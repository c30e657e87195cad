import CausalBroadcast.Broadcast.Volume
import CausalBroadcast.Broadcast.Completion
import CausalBroadcast.Broadcast.Window
import CausalBroadcast.Broadcast.Ring
import CausalBroadcast.Wire.Datagram
import CausalBroadcast.Link.Release
import CausalBroadcast.Link.Retry
import CausalBroadcast.Broadcast.Entries
import CausalBroadcast.Broadcast.Confluence
import CausalBroadcast.Broadcast.Setup
import CausalBroadcast.Link.Acks
import CausalBroadcast.Broadcast.Accesses
import CausalBroadcast.StaticVec.Refinement
import CausalBroadcast.Broadcast.Fifo
import CausalBroadcast.Broadcast.BroadcastLoop
import CausalBroadcast.Broadcast.Files
import CausalBroadcast.Validator
import CausalBroadcast.Link.Nesting
import CausalBroadcast.Broadcast.Relay
import CausalBroadcast.Broadcast.Uniform
import CausalBroadcast.Validator.Fifo
import CausalBroadcast.Broadcast.Validated
import CausalBroadcast.Broadcast.Launch
import CausalBroadcast.Harness.StressTest
import CausalBroadcast.Harness.Ending
import CausalBroadcast.Broadcast.MainThread
import CausalBroadcast.ConcurrentQueue
import CausalBroadcast.Broadcast.Liveness
import CausalBroadcast.Wire.Network
