import Mathlib.Data.List.Sort
import CausalBroadcast.Broadcast.Config
import CausalBroadcast.StaticVec

/-!
# What the files say

The ids of the hosts file and the numbers of the config file, read as `main` reads them. The lines of
both may come in any order: each is sorted, so that a process finds its host and its dependencies at
its own position. `WellFormed` is what the formats ask of the files, and `Sound` what the layers need of
what was read.
-/

namespace CausalBroadcast

/-- The numbers in the files. -/
structure Input where
  /-- the ids in the hosts file, line by line -/
  hosts : List Nat
  /-- the first line of the config file -/
  numMessages : UInt32
  /-- the other lines of the config file: a process, and those it depends on -/
  dependencies : List (Int × List Int)

/-- `static_cast<ProcessId>` of an `int`. -/
def processIdOfInt (x : Int) : Nat := (x % 256).toNat

/-- `Parser::hosts`, of which only the ids matter here: `none` where it throws. -/
def Parser.hosts (ids : List Nat) : Option (List Nat) :=
  if ids.length < 2 then none
  else if ids.min? ≠ some 1 ∨ ids.max? ≠ some ids.length then none
  else some ids.mergeSort

namespace ConfigParser

/-- `ConfigParser::Dependency`. -/
structure Dependency where
  process : Nat
  depends : StaticVec Nat maxProcesses

/-- `ConfigParser::parse_dependency`, with the new `Dependency` where `memory` was: `none` where a
`push_back` leaves the array. -/
def parseDependency (memory : Vector Nat maxProcesses) (line : Int × List Int) :
    Option Dependency := do
  let depends ← line.2.foldlM
    (fun depends process => depends.pushBack (processIdOfInt (process - 1))) ⟨memory, 0⟩
  return { process := processIdOfInt line.1, depends }

/-- `ConfigParser::parse`, after the first line. -/
def parse (memory : Vector Nat maxProcesses) (lines : List (Int × List Int)) :
    Option (List Dependency) := do
  let deps ← lines.mapM (parseDependency memory)
  return deps.mergeSort fun a b => a.process ≤ b.process

end ConfigParser

/-- What the layers are constructed from: `parser.hosts()`, `config.num_messages()` and
`config.dependencies()`. -/
structure Setup where
  hosts : List Nat
  numMessages : Nat
  deps : List ConfigParser.Dependency

/-- Both files are read. -/
def Input.read (memory : Vector Nat maxProcesses) (input : Input) : Option Setup := do
  let hosts ← Parser.hosts input.hosts
  let deps ← ConfigParser.parse memory input.dependencies
  return { hosts, numMessages := input.numMessages.toNat, deps }

/-- What the formats of the files ask: the hosts are numbered from 1, and the config file has a line for
each process, of dependencies among them. -/
structure Input.WellFormed (input : Input) : Prop where
  two_le : 2 ≤ input.hosts.length
  le_max : input.hosts.length ≤ maxProcesses
  hosts : input.hosts.Perm (List.range' 1 input.hosts.length)
  processes : (input.dependencies.map Prod.fst).Perm
    ((List.range' 1 input.hosts.length).map Int.ofNat)
  depends : ∀ line ∈ input.dependencies, line.2.length ≤ maxProcesses ∧
    ∀ d ∈ line.2, 1 ≤ d ∧ d ≤ input.hosts.length

namespace Setup

/-- What the layers need: everything that belongs to a process is at its position. -/
structure Sound (setup : Setup) : Prop where
  two_le : 2 ≤ setup.hosts.length
  le_max : setup.hosts.length ≤ maxProcesses
  numMessages_lt : setup.numMessages < 2 ^ 32
  hosts : setup.hosts = List.range' 1 setup.hosts.length
  processes : setup.deps.map ConfigParser.Dependency.process = setup.hosts
  depends : ∀ dep ∈ setup.deps, dep.depends.sz ≤ maxProcesses ∧
    ∀ d ∈ dep.depends.elements, d < setup.hosts.length

/-- The elements of `deps[i].depends`. -/
def depends (setup : Setup) (i : Nat) : List Nat :=
  (setup.deps[i]?.map fun dep => dep.depends.elements).getD []

variable {setup : Setup}

theorem Sound.exists_dep (sound : setup.Sound) {i : Nat} (inside : i < setup.hosts.length) :
    ∃ dep, setup.deps[i]? = some dep ∧ (setup.depends i).length = dep.depends.sz := by
  have listed : i < setup.deps.length := by
    have sizes := congrArg List.length sound.processes
    rw [List.length_map] at sizes
    omega
  have got := List.getElem?_eq_getElem listed
  refine ⟨_, got, ?_⟩
  rw [Setup.depends, got]
  exact StaticVec.length_elements (sound.depends _ (List.getElem_mem listed)).1

theorem Sound.depends_ok (sound : setup.Sound) (i : Nat) :
    (setup.depends i).length ≤ maxProcesses ∧ ∀ d ∈ setup.depends i, d < setup.hosts.length := by
  unfold Setup.depends
  cases got : setup.deps[i]? with
  | none => exact ⟨Nat.zero_le _, List.forall_mem_nil _⟩
  | some dep =>
    have ⟨small, below⟩ := sound.depends dep (List.mem_of_getElem? got)
    exact ⟨(StaticVec.length_elements small).trans_le small, below⟩

/-- The system that is run. -/
def config (setup : Setup) (sound : setup.Sound) : Config where
  numProcesses := setup.hosts.length
  numMessages := setup.numMessages
  depends := setup.depends
  two_le := sound.two_le
  le_max := sound.le_max
  numMessages_lt := sound.numMessages_lt
  depends_lt i := (sound.depends_ok i).2
  depends_length i := (sound.depends_ok i).1

end Setup

/-! ## Reading well-formed files -/

/-- Sorted, a permutation of consecutive numbers is those numbers. -/
theorem mergeSort_of_perm_range' {ids : List Nat} {n : Nat} (perm : ids.Perm (List.range' 1 n)) :
    ids.mergeSort = List.range' 1 n :=
  ((List.mergeSort_perm ids _).trans perm).eq_of_pairwise' (List.pairwise_mergeSort' (· ≤ ·) ids)
    List.pairwise_le_range'

namespace Parser

/-- Ids from 1 to as many as there are, with the first and the last among them. -/
def Compact (ids : List Nat) : Prop :=
  1 ∈ ids ∧ ids.length ∈ ids ∧ ∀ id ∈ ids, 1 ≤ id ∧ id ≤ ids.length

/-- What is asked of the least and the greatest id. -/
theorem compact_iff {ids : List Nat} :
    ids.min? = some 1 ∧ ids.max? = some ids.length ↔ Compact ids := by
  rw [List.min?_eq_some_iff, List.max?_eq_some_iff]
  constructor
  · exact fun ⟨⟨one, least⟩, last, greatest⟩ =>
      ⟨one, last, fun id mem => ⟨least id mem, greatest id mem⟩⟩
  · exact fun ⟨one, last, inside⟩ =>
      ⟨⟨one, fun id mem => (inside id mem).1⟩, last, fun id mem => (inside id mem).2⟩

/-- Compact ids of which none comes twice are all there. -/
theorem Compact.perm {ids : List Nat} (compact : Compact ids) (once : ids.Nodup) :
    ids.Perm (List.range' 1 ids.length) := by
  refine (List.subperm_of_subset once fun id mem => ?_).perm_of_length_le ?_
  · have := compact.2.2 id mem
    exact List.mem_range'_1.mpr (by omega)
  · rw [List.length_range']

theorem compact_of_perm {ids : List Nat} (some_ : 1 ≤ ids.length)
    (perm : ids.Perm (List.range' 1 ids.length)) : Compact ids := by
  have mem : ∀ {id}, id ∈ ids ↔ 1 ≤ id ∧ id < 1 + ids.length := fun {id} =>
    perm.mem_iff.trans List.mem_range'_1
  exact ⟨mem.mpr (by omega), mem.mpr (by omega), fun id listed => by
    have := mem.mp listed
    omega⟩

theorem hosts_of_perm {ids : List Nat} (two : 2 ≤ ids.length)
    (perm : ids.Perm (List.range' 1 ids.length)) :
    Parser.hosts ids = some (List.range' 1 ids.length) := by
  obtain ⟨least, greatest⟩ := compact_iff.mpr (compact_of_perm (by omega) perm)
  unfold Parser.hosts
  rw [if_neg (Nat.not_lt.mpr two), if_neg (by simp [least, greatest]), mergeSort_of_perm_range' perm]

end Parser

namespace ConfigParser

variable (memory : Vector Nat maxProcesses)

/-- A line with room for its dependencies is read. -/
theorem exists_parseDependency {line : Int × List Int} (short : line.2.length ≤ maxProcesses) :
    ∃ dep, parseDependency memory line = some dep ∧ dep.process = processIdOfInt line.1 ∧
      dep.depends.sz = line.2.length ∧
      dep.depends.elements = line.2.map fun d => processIdOfInt (d - 1) := by
  obtain ⟨depends, pushed, size, elements⟩ := StaticVec.exists_pushAll
    (v := ⟨memory, 0⟩) (fun d : Int => processIdOfInt (d - 1)) (by simpa using short)
  refine ⟨{ process := processIdOfInt line.1, depends }, ?_, rfl, ?_, ?_⟩
  · rw [parseDependency, pushed]
    rfl
  · simpa using size
  · simpa [StaticVec.elements] using elements

/-- The lines of a file, read one after the other. -/
theorem exists_mapM {lines : List (Int × List Int)}
    (short : ∀ line ∈ lines, line.2.length ≤ maxProcesses) :
    ∃ deps, lines.mapM (parseDependency memory) = some deps ∧
      deps.map Dependency.process = lines.map (fun line => processIdOfInt line.1) ∧
      ∀ dep ∈ deps, ∃ line ∈ lines, dep.process = processIdOfInt line.1 ∧
        dep.depends.sz = line.2.length ∧
        dep.depends.elements = line.2.map fun d => processIdOfInt (d - 1) := by
  induction lines with
  | nil => exact ⟨[], rfl, rfl, List.forall_mem_nil _⟩
  | cons line lines ih =>
    obtain ⟨dep, one, process, content⟩ :=
      exists_parseDependency memory (short line List.mem_cons_self)
    obtain ⟨deps, all, processes, contents⟩ := ih fun line mem =>
      short line (List.mem_cons_of_mem _ mem)
    refine ⟨dep :: deps, ?_, ?_, fun dep' mem => ?_⟩
    · rw [List.mapM_cons, one, all]
      rfl
    · rw [List.map_cons, List.map_cons, process, processes]
    · rcases List.mem_cons.mp mem with rfl | old
      · exact ⟨line, List.mem_cons_self, process, content⟩
      · obtain ⟨line', listed, content'⟩ := contents dep' old
        exact ⟨line', List.mem_cons_of_mem _ listed, content'⟩

variable {memory}

/-- Sorted, the dependencies of processes numbered from 1 are at their positions. -/
theorem map_process_mergeSort {deps : List Dependency} {n : Nat}
    (perm : (deps.map Dependency.process).Perm (List.range' 1 n)) :
    (deps.mergeSort fun a b => a.process ≤ b.process).map Dependency.process =
      List.range' 1 n := by
  rw [← mergeSort_of_perm_range' perm]
  exact List.map_mergeSort fun a _ b _ => rfl

end ConfigParser

/-- Small numbers are process ids. -/
theorem processIdOfInt_of_lt {x : Nat} (small : x < 256) : processIdOfInt x = x := by
  unfold processIdOfInt
  omega

/-- **Well-formed files are read**, and what is read is what the layers need. -/
theorem Input.WellFormed.exists_read {input : Input} (ok : input.WellFormed)
    (memory : Vector Nat maxProcesses) : ∃ setup, input.read memory = some setup ∧ setup.Sound ∧
      setup.hosts.length = input.hosts.length ∧ setup.numMessages = input.numMessages.toNat := by
  have fits : input.hosts.length ≤ 128 := ok.le_max
  have hosts := Parser.hosts_of_perm ok.two_le ok.hosts
  obtain ⟨deps, read, processes, contents⟩ := ConfigParser.exists_mapM memory
    fun line mem => (ok.depends line mem).1
  have numbered : (deps.map ConfigParser.Dependency.process).Perm
      (List.range' 1 input.hosts.length) := by
    have lines := ok.processes.map processIdOfInt
    rw [List.map_map, List.map_map] at lines
    rw [processes]
    refine lines.trans (List.Perm.of_eq ?_)
    refine (List.map_congr_left fun x mem => ?_).trans (List.map_id _)
    exact processIdOfInt_of_lt (by have := List.mem_range'_1.mp mem; omega)
  have sorted := ConfigParser.map_process_mergeSort numbered
  refine ⟨⟨List.range' 1 input.hosts.length, input.numMessages.toNat,
    deps.mergeSort fun a b => a.process ≤ b.process⟩, ?_, ?_, List.length_range', rfl⟩
  · rw [Input.read, hosts, ConfigParser.parse, read]
    rfl
  · exact {
      two_le := List.length_range'.symm ▸ ok.two_le
      le_max := List.length_range'.symm ▸ ok.le_max
      numMessages_lt := input.numMessages.toNat_lt
      hosts := by rw [List.length_range']
      processes := sorted
      depends := fun dep mem => by
        obtain ⟨line, listed, -, size, elements⟩ := contents dep (List.mem_mergeSort.mp mem)
        obtain ⟨short, inside⟩ := ok.depends line listed
        refine ⟨size.trans_le short, fun d mem => ?_⟩
        rw [elements] at mem
        obtain ⟨id, listed, rfl⟩ := List.mem_map.mp mem
        have bounds := inside id listed
        rw [List.length_range']
        unfold processIdOfInt
        omega }

end CausalBroadcast
