import CausalBroadcast.Broadcast.Setup
import CausalBroadcast.Text.Extraction

/-!
# The files as text

The config file and the hosts file from their characters on. Both are read line by line, but only the
hosts parser passes over blank lines: in a config file a blank line is an entry like any other, with
the number that was in the variable before, which is 0, for its process.
-/

namespace CausalBroadcast

open Text

/-! ## The config file -/

namespace ConfigParser

/-- The numbers that `parse_dependency` extracts from a line: its process, and those after it. -/
def readLine (line : List Char) : Int × List Int :=
  let process := extractInt 32 0 line
  (process.value, (process.rest.map (ints 32)).getD [])

/-- `parse_message_num`. -/
def messageNum (line : List Char) : Nat := (extractUnsigned 32 0 line).value

/-- `ConfigParser::parse`: `num_messages()` and `dependencies()`. -/
def parseFile (memory : Vector Nat maxProcesses) (text : List Char) :
    Option (Nat × List Dependency) := do
  let deps ← parse memory ((lines text).tail.map readLine)
  return (messageNum ((lines text).headD []), deps)

/-- A config file of the format: a line with the number of messages, and in any order a line for each of
the processes `1, ..., n` with the processes it depends on. There may be blank lines after the first. -/
structure ConfigText (n m : Nat) (depends : Nat → List Nat) (text : List Char) : Prop where
  two_le : 2 ≤ n
  le_max : n ≤ maxProcesses
  small : m < 2 ^ 32
  few : ∀ i ∈ List.range' 1 n, (depends i).length ≤ maxProcesses
  inside : ∀ i ∈ List.range' 1 n, ∀ d ∈ depends i, 1 ≤ d ∧ d ≤ n
  content : ∃ first others order, lines text = first :: others ∧ Numerals [m] first ∧
    order.Perm (List.range' 1 n) ∧
    List.Forall₂ (fun i line => Numerals (i :: depends i) line) order
      (others.filter fun line => ¬ Blank line)

/-- What is read of a file is at its position: entry `i` is that of process `i + 1`, with the ids it
lists minus one. -/
def Faithful (memory : Vector Nat maxProcesses) (n m : Nat) (depends : Nat → List Nat)
    (text : List Char) : Prop :=
  ∃ deps, parseFile memory text = some (m, deps) ∧ deps.length = n ∧
    ∀ i < n, ∃ dep, deps[i]? = some dep ∧ dep.process = i + 1 ∧
      dep.depends.elements = (depends (i + 1)).map (· - 1)

section
variable {n m : Nat} {depends : Nat → List Nat} {text line : List Char} {xs : List Nat} {i : Nat}

theorem messageNum_of_numerals (numerals : Numerals [m] line) (small : m < 2 ^ 32) :
    messageNum line = m := by
  cases numerals with
  | cons blank numeral apart _ =>
    rw [messageNum, numeral.extractUnsigned blank apart small]

theorem readLine_of_numerals (numerals : Numerals (i :: xs) line)
    (small : ∀ x ∈ i :: xs, x < 2 ^ 31) : readLine line = ((i : Int), xs.map Int.ofNat) := by
  obtain ⟨first, others⟩ := List.forall_mem_cons.mp small
  cases numerals with
  | cons blank numeral apart numerals =>
    have head : extractInt 32 0 _ = ⟨i, _⟩ := numeral.extractInt blank apart first
    have tail : ints 32 _ = xs.map Int.ofNat := numerals.ints others
    rw [readLine, head]
    simp [tail]

theorem readLine_of_blank (blank : Blank line) : readLine line = (0, []) := by
  rw [readLine, extractInt_blank 0 blank]
  rfl

/-- The numbers in the line of process `i`. -/
def entry (depends : Nat → List Nat) (i : Nat) : Int × List Int :=
  (Int.ofNat i, (depends i).map Int.ofNat)

/-- The lines of a config file, as they are read. -/
theorem ConfigText.exists_lines (ok : ConfigText n m depends text) :
    ∃ (first : List Char) (others : List (List Char)) (order : List Nat),
      lines text = first :: others ∧ messageNum first = m ∧ order.Perm (List.range' 1 n) ∧
      (others.filter fun line => ¬ Blank line).map readLine = order.map (entry depends) := by
  have fits : n ≤ 128 := ok.le_max
  obtain ⟨first, others, order, parts, number, perm, entries⟩ := ok.content
  refine ⟨first, others, order, parts, messageNum_of_numerals number ok.small, perm, ?_⟩
  have read : List.Forall₂ Eq ((others.filter fun line => ¬ Blank line).map readLine)
      (order.map (entry depends)) := by
    rw [List.forall₂_map_left_iff, List.forall₂_map_right_iff]
    refine List.Forall₂.flip (List.Forall₂.imp (fun i line read => ?_)
      ((List.forall₂_and_left order _).mpr ⟨fun _ => id, entries⟩))
    obtain ⟨listed, numerals⟩ := read
    have listed := perm.mem_iff.mp listed
    refine readLine_of_numerals numerals (List.forall_mem_cons.mpr ⟨?_, fun d mem => ?_⟩)
    · have := List.mem_range'_1.mp listed
      omega
    · have := ok.inside i listed d mem
      omega
  rwa [List.forall₂_eq_eq_eq] at read

/-- A file of the format is read: entry by entry, a blank line too. -/
theorem ConfigText.exists_parseFile (ok : ConfigText n m depends text)
    (memory : Vector Nat maxProcesses) : ∃ deps : List Dependency,
      parseFile memory text = some (m, deps.mergeSort fun a b => a.process ≤ b.process) ∧
      deps.map Dependency.process =
        (lines text).tail.map (fun line => processIdOfInt (readLine line).1) ∧
      ∀ dep ∈ deps, ∃ line ∈ (lines text).tail, dep.process = processIdOfInt (readLine line).1 ∧
        dep.depends.elements = (readLine line).2.map fun d => processIdOfInt (d - 1) := by
  obtain ⟨first, others, order, parts, number, perm, entries⟩ := ok.exists_lines
  have short : ∀ entry ∈ others.map readLine, entry.2.length ≤ maxProcesses := by
    intro entry mem
    obtain ⟨line, listed, rfl⟩ := List.mem_map.mp mem
    by_cases blank : Blank line
    · rw [readLine_of_blank blank]
      exact Nat.zero_le _
    · have kept : readLine line ∈ order.map (entry depends) :=
        entries ▸ List.mem_map_of_mem (List.mem_filter.mpr ⟨listed, decide_eq_true blank⟩)
      obtain ⟨i, mem, same⟩ := List.mem_map.mp kept
      rw [← same, entry, List.length_map]
      exact ok.few i (perm.mem_iff.mp mem)
  obtain ⟨deps, read, processes, contents⟩ := exists_mapM memory short
  refine ⟨deps, ?_, ?_, fun dep mem => ?_⟩
  · rw [parseFile, parts, List.tail_cons, parse, read, List.headD_cons, number]
    rfl
  · rw [processes, parts, List.tail_cons, List.map_map]
    rfl
  · obtain ⟨read, among, process, -, elements⟩ := contents dep mem
    obtain ⟨line, listed, rfl⟩ := List.mem_map.mp among
    exact ⟨line, parts ▸ listed, process, elements⟩

variable {memory : Vector Nat maxProcesses}

/-- Without blank lines, every entry is that of a process, and no process is missing. -/
theorem ConfigText.exists_of_full (ok : ConfigText n m depends text)
    (full : ∀ line ∈ (lines text).tail, ¬ Blank line) (memory : Vector Nat maxProcesses) :
    ∃ deps : List Dependency,
      parseFile memory text = some (m, deps.mergeSort fun a b => a.process ≤ b.process) ∧
      (deps.map Dependency.process).Perm (List.range' 1 n) ∧
      ∀ dep ∈ deps, ∃ i ∈ List.range' 1 n, dep.process = i ∧
        dep.depends.elements = (depends i).map (· - 1) := by
  have fits : n ≤ 128 := ok.le_max
  obtain ⟨deps, read, processes, contents⟩ := ok.exists_parseFile memory
  obtain ⟨first, others, order, parts, number, perm, entries⟩ := ok.exists_lines
  rw [parts, List.tail_cons] at processes contents full
  have whole : (others.filter fun line => ¬ Blank line) = others :=
    List.filter_eq_self.mpr fun line mem => decide_eq_true (full line mem)
  rw [whole] at entries
  have id_of : ∀ i ∈ List.range' 1 n, processIdOfInt (Int.ofNat i) = i := fun i mem =>
    processIdOfInt_of_lt (by have := List.mem_range'_1.mp mem; omega)
  refine ⟨deps, read, ?_, fun dep mem => ?_⟩
  · have same : others.map (fun line => processIdOfInt (readLine line).1) =
        order.map fun i : Nat => processIdOfInt (Int.ofNat i) := by
      have first := congrArg (List.map fun read => processIdOfInt read.1) entries
      rwa [List.map_map, List.map_map] at first
    rw [processes, same]
    refine (perm.map _).trans (List.Perm.of_eq ?_)
    exact (List.map_congr_left id_of).trans (List.map_id _)
  · obtain ⟨line, among, process, elements⟩ := contents dep mem
    obtain ⟨i, listed, same⟩ := List.mem_map.mp (entries ▸ List.mem_map_of_mem among)
    have listed := perm.mem_iff.mp listed
    rw [← same] at process elements
    refine ⟨i, listed, process.trans (id_of i listed), ?_⟩
    rw [elements, entry, List.map_map]
    refine List.map_congr_left fun d mem => ?_
    have bounds := ok.inside i listed d mem
    have below : (d : Int) - 1 = (d - 1 : Nat) := by omega
    show processIdOfInt ((d : Int) - 1) = d - 1
    rw [below, processIdOfInt_of_lt (by omega)]

variable {memory : Vector Nat maxProcesses}

/-- **A config file is read faithfully exactly if it has no blank line** after the first. -/
theorem faithful_iff (ok : ConfigText n m depends text) :
    Faithful memory n m depends text ↔ ∀ line ∈ (lines text).tail, ¬ Blank line := by
  constructor
  · rintro ⟨deps', read', size, -⟩ line mem
    obtain ⟨deps, read, processes, -⟩ := ok.exists_parseFile memory
    obtain ⟨first, others, order, parts, number, perm, entries⟩ := ok.exists_lines
    -- there is an entry for every line
    obtain rfl : _ = deps' := congrArg Prod.snd (Option.some.inj (read.symm.trans read'))
    rw [parts, List.tail_cons] at processes mem
    have kept := congrArg List.length entries
    have all := congrArg List.length processes
    simp only [List.length_map, List.length_mergeSort] at kept all size
    rw [perm.length_eq, List.length_range', ← size, all] at kept
    simpa using List.length_filter_eq_length_iff.mp kept line mem
  · intro full
    obtain ⟨deps, read, numbered, contents⟩ := ok.exists_of_full full memory
    have sorted := map_process_mergeSort numbered
    have mem_of : ∀ dep ∈ deps.mergeSort fun a b => a.process ≤ b.process, dep ∈ deps :=
      fun dep => List.mem_mergeSort.mp
    generalize (deps.mergeSort fun a b => a.process ≤ b.process) = inOrder at read sorted mem_of
    have size : inOrder.length = n := by
      have all := congrArg List.length sorted
      rwa [List.length_map, List.length_range'] at all
    refine ⟨_, read, size, fun i below => ?_⟩
    have at_ := List.getElem?_eq_getElem (size.symm ▸ below)
    have place := congrArg (·[i]?) sorted
    simp only [List.getElem?_map, at_, Option.map_some, List.getElem?_range' below,
      Option.some.injEq] at place
    obtain ⟨j, -, process, elements⟩ := contents _ (mem_of _ (List.mem_of_getElem? at_))
    obtain rfl : j = i + 1 := by omega
    exact ⟨_, at_, process, elements⟩

end

/-- `1\n1 2\n2\n`, with a blank line after the first or without. -/
def pairText (blank : List Char) : List Char :=
  ['1', '\n'] ++ blank ++ ['1', ' ', '2', '\n', '2', '\n']

/-- It is a config file of two processes, the first of which depends on the second. -/
theorem pairText_ok {blank : List Char} (few : blank = [] ∨ blank = ['\n']) :
    ConfigText 2 1 (fun i => if i = 1 then [2] else []) (pairText blank) where
  two_le := by decide
  le_max := by decide
  small := by decide
  few := by decide
  inside := by decide
  content := by
    have one : Numeral 1 ['1'] := ⟨by simp, by simp, rfl⟩
    have two : Numeral 2 ['2'] := ⟨by simp, by simp, rfl⟩
    have nothing : Blank [] := List.forall_mem_nil _
    have between : Blank [' '] := by simp [Blank, isSpace]
    have lone := Numerals.cons nothing one (by simp) (.nil nothing)
    have last := Numerals.cons nothing two (by simp) (.nil nothing)
    have both := Numerals.cons nothing one (by simp [isSpace])
      (.cons between two (by simp) (.nil nothing))
    have entries : List.Forall₂ (fun i line => Numerals (i :: if i = 1 then [2] else []) line)
        [1, 2] [['1', ' ', '2'], ['2']] := .cons both (.cons last .nil)
    rcases few with rfl | rfl
    · exact ⟨['1'], [['1', ' ', '2'], ['2']], [1, 2], by decide, lone, .refl _, entries⟩
    · exact ⟨['1'], [[], ['1', ' ', '2'], ['2']], [1, 2], by decide, lone, .refl _, entries⟩

theorem faithful_iff_of_pair :
    Faithful (.replicate _ 0) 2 1 (fun i => if i = 1 then [2] else []) (pairText []) :=
  (faithful_iff (pairText_ok (.inl rfl))).mpr (by decide)

/-- With a blank line there are three entries for two processes. -/
theorem not_faithful :
    ConfigText 2 1 (fun i => if i = 1 then [2] else []) (pairText ['\n']) ∧
    ¬ Faithful (.replicate _ 0) 2 1 (fun i => if i = 1 then [2] else []) (pairText ['\n']) := by
  have ok := @pairText_ok ['\n'] (.inr rfl)
  refine ⟨ok, fun ⟨deps', read', size, _⟩ => ?_⟩
  obtain ⟨deps, read, processes, -⟩ := ok.exists_parseFile (.replicate _ 0)
  obtain rfl : _ = deps' := congrArg Prod.snd (Option.some.inj (read.symm.trans read'))
  have all := congrArg List.length processes
  rw [List.length_mergeSort] at size
  rw [List.length_map, size, List.length_map] at all
  exact absurd all (by decide)

end ConfigParser

/-! ## The hosts file -/

namespace Parser

/-- `Parser::Host`. -/
structure Host where
  /-- an `unsigned long` -/
  id : Nat
  /-- an `in_addr_t` -/
  ip : Nat
  /-- an `unsigned short`, in network order -/
  port : Nat
  deriving DecidableEq

/-- `htons`. -/
def htons (port : Nat) : Nat := port % 256 * 256 + port / 256

/-- The host in a line of the hosts file: `none` where an extraction fails, or the name has no address
for `resolve`, which stands for the lookup of the network library. -/
def readHost (resolve : List Char → Option Nat) (line : List Char) : Option Host := do
  let id := extractUnsigned 64 0 line
  let ip := extractWord [] (← id.rest)
  let port := extractUnsigned 16 0 (← ip.rest)
  let _ ← port.rest
  let address ← resolve ip.value
  return { id := id.value, ip := address, port := htons port.value }

/-- The hosts in the lines that are not blank. -/
def readHosts (resolve : List Char → Option Nat) (text : List Char) : Option (List Host) :=
  ((lines text).filter fun line => ¬ Blank line).mapM (readHost resolve)

/-- `Parser::hosts`: `none` where it throws. -/
def hostsOfFile (resolve : List Char → Option Nat) (text : List Char) : Option (List Host) := do
  let hosts ← readHosts resolve text
  let ids := hosts.map Host.id
  if hosts.length < 2 then none
  else if ids.min? ≠ some 1 ∨ ids.max? ≠ some hosts.length then none
  else some (hosts.mergeSort fun a b => a.id ≤ b.id)

section
variable {resolve : List Char → Option Nat} {text : List Char} {entries : List Host}

/-- A file is accepted by its least and greatest id, and sorted. -/
theorem hostsOfFile_eq (read : readHosts resolve text = some entries) :
    (2 ≤ entries.length ∧ Compact (entries.map Host.id) →
      hostsOfFile resolve text = some (entries.mergeSort fun a b => a.id ≤ b.id)) ∧
    (¬ (2 ≤ entries.length ∧ Compact (entries.map Host.id)) →
      hostsOfFile resolve text = none) := by
  have checked := @compact_iff (entries.map Host.id)
  rw [List.length_map] at checked
  unfold hostsOfFile
  rw [read]
  constructor
  · rintro ⟨two, compact⟩
    obtain ⟨least, greatest⟩ := checked.mpr compact
    simp only [Option.bind_eq_bind, Option.bind_some]
    rw [if_neg (Nat.not_lt.mpr two), if_neg (by simp [least, greatest])]
  · intro refused
    by_cases two : 2 ≤ entries.length
    · have not := mt checked.mp fun compact => refused ⟨two, compact⟩
      simp only [Option.bind_eq_bind, Option.bind_some]
      rw [if_neg (Nat.not_lt.mpr two), if_pos (not_and_or.mp not)]
    · simp only [Option.bind_eq_bind, Option.bind_some]
      rw [if_pos (Nat.not_le.mp two)]

/-- **A hosts file is accepted exactly if its ids are `1, ..., n`, provided that no id comes twice in a
file that has the ids 1 and `n` and none beyond.** -/
theorem accepts_iff (read : readHosts resolve text = some entries) :
    let ids := entries.map Host.id
    let n := entries.length
    (((hostsOfFile resolve text).isSome ↔ 2 ≤ n ∧ ids.Perm (List.range' 1 n)) ∧
      ∀ hosts, hostsOfFile resolve text = some hosts → hosts.length = n ∧
        ∀ i < n, ∃ host, hosts[i]? = some host ∧ host.id = i + 1 ∧ host ∈ entries) ↔
    (2 ≤ n → 1 ∈ ids → n ∈ ids → (∀ id ∈ ids, 1 ≤ id ∧ id ≤ n) → ids.Nodup) := by
  intro ids n
  have size : ids.length = n := List.length_map _
  obtain ⟨accepted, refused⟩ := hostsOfFile_eq read
  constructor
  · rintro ⟨iff, -⟩ two one last inside
    have compact : Compact ids := ⟨one, size ▸ last, size ▸ inside⟩
    have perm := (iff.mp (by rw [accepted ⟨two, compact⟩]; rfl)).2
    exact perm.nodup_iff.mpr List.nodup_range'
  · intro once
    have perm_of : 2 ≤ n ∧ Compact ids → ids.Perm (List.range' 1 n) := fun ⟨two, compact⟩ =>
      size ▸ compact.perm (once two compact.1 (size ▸ compact.2.1) (size ▸ compact.2.2))
    by_cases checks : 2 ≤ n ∧ Compact ids
    · have perm := perm_of checks
      refine ⟨iff_of_true (by rw [accepted checks]; rfl) ⟨checks.1, perm⟩, fun hosts got => ?_⟩
      obtain rfl := Option.some.inj ((accepted checks).symm.trans got)
      have sorted : (entries.mergeSort fun a b => a.id ≤ b.id).map Host.id = List.range' 1 n := by
        rw [← mergeSort_of_perm_range' perm]
        exact List.map_mergeSort fun a _ b _ => rfl
      refine ⟨List.length_mergeSort _, fun i below => ?_⟩
      have at_ := List.getElem?_eq_getElem (l := entries.mergeSort fun a b => a.id ≤ b.id) (i := i)
        (by rw [List.length_mergeSort]; exact below)
      have place := congrArg (·[i]?) sorted
      simp only [List.getElem?_map, at_, Option.map_some, List.getElem?_range' below,
        Option.some.injEq] at place
      exact ⟨_, at_, by omega, List.mem_mergeSort.mp (List.mem_of_getElem? at_)⟩
    · have none_ := refused checks
      refine ⟨iff_of_false (by simp [none_]) fun ⟨two, perm⟩ => checks ⟨two, ?_⟩, fun hosts got => ?_⟩
      · exact compact_of_perm (by omega) (size.symm ▸ perm)
      · rw [none_] at got
        cases got

/-- The ids that are returned are those of `hosts`. -/
theorem map_id_hostsOfFile (read : readHosts resolve text = some entries) :
    (hostsOfFile resolve text).map (List.map Host.id) = Parser.hosts (entries.map Host.id) := by
  unfold hostsOfFile Parser.hosts
  rw [read, List.length_map]
  simp only [Option.bind_eq_bind, Option.bind_some]
  split
  · rfl
  split
  · rfl
  · exact congrArg some (List.map_mergeSort fun a _ b _ => rfl)

end

/-- A lookup that finds every name. -/
def loopback (_name : List Char) : Option Nat := some 16777343

/-- A line with an id, a name and a port, such as `1 a 9`. -/
def hostLine (id : Char) : List Char := [id, ' ', 'a', ' ', '9', '\n']

/-- The lines of a hosts file in the wrong order. -/
theorem accepts_iff_of_swap : (hostsOfFile loopback (hostLine '2' ++ hostLine '1')).isSome := by
  have read : readHosts loopback (hostLine '2' ++ hostLine '1') =
      some [⟨2, 16777343, 2304⟩, ⟨1, 16777343, 2304⟩] := by decide
  exact ((accepts_iff read).mpr fun _ _ _ _ => by decide).1.mpr ⟨by decide, by decide⟩

/-- A file with the ids 1, 1 and 3 is accepted. -/
theorem accepts_twice :
    readHosts loopback (hostLine '1' ++ hostLine '1' ++ hostLine '3') =
      some [⟨1, 16777343, 2304⟩, ⟨1, 16777343, 2304⟩, ⟨3, 16777343, 2304⟩] ∧
    (hostsOfFile loopback (hostLine '1' ++ hostLine '1' ++ hostLine '3')).isSome ∧
    ¬ [1, 1, 3].Perm (List.range' 1 3) := by
  have read : readHosts loopback (hostLine '1' ++ hostLine '1' ++ hostLine '3') =
      some [⟨1, 16777343, 2304⟩, ⟨1, 16777343, 2304⟩, ⟨3, 16777343, 2304⟩] := by decide
  refine ⟨read, ?_, by decide⟩
  rw [(hostsOfFile_eq read).1 ⟨by decide, by decide, by decide, by decide⟩]
  rfl

end Parser

/-! ## Both files -/

/-- The numbers in the files, with the ids of the hosts. -/
def Input.ofText (ids : List Nat) (config : List Char) : Input where
  hosts := ids
  numMessages := .ofNat (ConfigParser.messageNum ((lines config).headD []))
  dependencies := (lines config).tail.map ConfigParser.readLine

/-- Files of the formats, the config file without blank lines, are well formed. -/
theorem ConfigParser.ConfigText.wellFormed {n m : Nat} {depends : Nat → List Nat}
    {text : List Char} (ok : ConfigText n m depends text)
    (full : ∀ line ∈ (lines text).tail, ¬ Blank line) {ids : List Nat}
    (perm : ids.Perm (List.range' 1 n)) : (Input.ofText ids text).WellFormed := by
  have size : ids.length = n := by rw [perm.length_eq, List.length_range']
  obtain ⟨first, others, order, parts, number, perm', entries⟩ := ok.exists_lines
  rw [parts, List.tail_cons] at full
  have whole : (others.filter fun line => ¬ Blank line) = others :=
    List.filter_eq_self.mpr fun line mem => decide_eq_true (full line mem)
  rw [whole] at entries
  have dependencies : (Input.ofText ids text).dependencies = order.map (entry depends) := by
    rw [Input.ofText, parts, List.tail_cons, entries]
  exact {
    two_le := size.symm ▸ ok.two_le
    le_max := size.symm ▸ ok.le_max
    hosts := size.symm ▸ perm
    processes := by
      rw [dependencies, List.map_map]
      exact size.symm ▸ perm'.map Int.ofNat
    depends := fun line mem => by
      rw [dependencies] at mem
      obtain ⟨i, listed, rfl⟩ := List.mem_map.mp mem
      have listed := perm'.mem_iff.mp listed
      refine ⟨by simpa [entry] using ok.few i listed, fun d mem => ?_⟩
      obtain ⟨d, among, rfl⟩ := List.mem_map.mp mem
      have bounds := ok.inside i listed d among
      show 1 ≤ (d : Int) ∧ (d : Int) ≤ ids.length
      omega }

end CausalBroadcast
