import CausalBroadcast.Broadcast.CommandLine
import CausalBroadcast.Text.Python

/-!
# How the processes are started

What `validate.py` writes and the processes read: the hosts file, the config file, and the command
line of each process. Whatever number of processes and messages and whatever dependencies it is given,
every process reads this system of its files, and its own place in the system of its command line.
-/

namespace CausalBroadcast

open Text

/-! ## The files -/

/-- `PROCESSES_BASE_IP`. -/
def processesBaseIp : Nat := 11000

/-- The name in the hosts file, and `BARRIER_IP` and `SIGNAL_IP`. -/
def localhost : List Char := ['l', 'o', 'c', 'a', 'l', 'h', 'o', 's', 't']

/-- A line of the hosts file. -/
def hostsLine (i : Nat) : List Char :=
  [' '].intercalate [Python.str i, localhost, Python.str (processesBaseIp + i)]

/-- A line of the config file, behind the first. -/
def dependenciesLine (dependencies : Nat → List Nat) (process : Nat) : List Char :=
  [' '].intercalate ((process :: dependencies process).map Python.str)

/-- `generateConfig` of the validation of localized causal broadcast: the hosts file and the config
file. -/
def generateConfig (processes messages : Nat) (dependencies : Nat → List Nat) :
    List Char × List Char :=
  let hosts := (List.range' 1 processes).map hostsLine
  let config := Python.str messages :: (List.range' 1 processes).map (dependenciesLine dependencies)
  (hosts.flatMap fun line => line ++ ['\n'], config.flatMap fun line => line ++ ['\n'])

/-! ## The command lines -/

/-- `BARRIER_PORT`. -/
def barrierPort : Nat := 10000

/-- `SIGNAL_PORT`. -/
def signalPort : Nat := 11000

/-- `"{}:{}".format`. -/
def address (name : List Char) (port : Nat) : List Char := name ++ ':' :: Python.str port

/-- `"proc{:02d}.output".format`, in the directory of the logs. -/
def outputPath (outputDirPath : List Char) (pid : Nat) : List Char :=
  let number := if pid < 10 then '0' :: Python.str pid else Python.str pid
  let name := ['p', 'r', 'o', 'c'] ++ number ++ ['.', 'o', 'u', 't', 'p', 'u', 't']
  if outputDirPath.getLast? = some '/' then outputDirPath ++ name
  else outputDirPath ++ '/' :: name

/-- The arguments that `startProcesses` gives process `pid`. -/
def startArguments (bin hostsFilePath configFilePath outputDirPath : List Char) (pid : Nat) :
    List (List Char) :=
  [bin, Parser.idFlag, Python.str pid, Parser.hostsFlag, hostsFilePath,
    Parser.barrierFlag, address localhost barrierPort,
    Parser.signalFlag, address localhost signalPort,
    Parser.outputFlag, outputPath outputDirPath pid, configFilePath]

/-! ## Lines of numbers and words -/

theorem blank_space : Blank [' '] := by simp [Blank, isSpace]

theorem blank_nil : Blank [] := List.forall_mem_nil _

/-- Numbers with a blank between any two are a line of numbers. -/
theorem numerals_intercalate {space : List Char} (blank : Blank space) (x : Nat) (xs : List Nat) :
    Numerals (x :: xs) (space ++ [' '].intercalate ((x :: xs).map Python.str)) := by
  induction xs generalizing space x with
  | nil =>
    have last := Numerals.cons blank (Python.numeral_str x) (by simp) (.nil blank_nil)
    simpa using last
  | cons y ys ih =>
    rw [List.map_cons, List.map_cons, List.intercalate_cons_cons, List.append_assoc]
    exact .cons blank (Python.numeral_str x) (by simp [isSpace]) (ih blank_space y)

/-- A run of characters that are no white space, behind white space. -/
theorem extractWord_append {space word rest old : List Char} (blank : Blank space) (some_ : word ≠ [])
    (solid : ∀ c ∈ word, isSpace c = false) (apart : ∀ c ∈ rest.head?, isSpace c) :
    extractWord old (space ++ (word ++ rest)) = ⟨word, some rest⟩ := by
  have skipped : skipSpace (space ++ (word ++ rest)) = word ++ rest := by
    rw [skipSpace_append blank]
    obtain ⟨c, cs, rfl⟩ := List.exists_cons_of_ne_nil some_
    refine List.dropWhile_cons_of_neg ?_
    simp [solid c List.mem_cons_self]
  have stop : rest.takeWhile (fun c => !isSpace c) = [] ∧
      rest.dropWhile (fun c => !isSpace c) = rest := by
    cases rest with
    | nil => exact ⟨rfl, rfl⟩
    | cons c cs =>
      have space := apart c rfl
      simp [space]
  have all : ∀ c ∈ word, (!isSpace c) = true := fun c mem => by simp [solid c mem]
  unfold extractWord
  rw [skipped, if_neg (by simp [some_]), List.takeWhile_append_of_pos all,
    List.dropWhile_append_of_pos all, stop.1, stop.2, List.append_nil]

theorem localhost_word : localhost ≠ [] ∧ (∀ c ∈ localhost, isSpace c = false) ∧ ':' ∉ localhost ∧
    '\n' ∉ localhost := by
  simp [localhost, isSpace]

theorem notMem_str {c : Char} (other : c.isDigit = false) (n : Nat) : c ∉ Python.str n := by
  intro mem
  rw [Python.isDigit_of_mem_str mem] at other
  cases other

/-- No newline comes into a line. -/
theorem newline_notMem_intercalate {words : List (List Char)}
    (plain : ∀ word ∈ words, '\n' ∉ word) : '\n' ∉ [' '].intercalate words := by
  induction words with
  | nil => simp
  | cons word words ih =>
    obtain ⟨first, others⟩ := List.forall_mem_cons.mp plain
    cases words with
    | nil => simpa using first
    | cons next words =>
      rw [List.intercalate_cons_cons]
      simp [first, ih others]

/-- What is read of each line is read of all. -/
theorem mapM_map_some {α β γ : Type} {f : β → Option γ} {g : α → β} {h : α → γ} {l : List α}
    (each : ∀ a ∈ l, f (g a) = some (h a)) : (l.map g).mapM f = some (l.map h) := by
  induction l with
  | nil => rfl
  | cons a l ih =>
    obtain ⟨first, others⟩ := List.forall_mem_cons.mp each
    rw [List.map_cons, List.mapM_cons, first, ih others]
    rfl

/-! ## The hosts -/

namespace Parser

variable {resolve : List Char → Option Nat} {ip n i : Nat}

/-- The host of process `i`. -/
def startedHost (ip i : Nat) : Host := { id := i, ip, port := htons (processesBaseIp + i) }

theorem readHost_hostsLine (found : resolve localhost = some ip) (small : i < 2 ^ 15) :
    readHost resolve (hostsLine i) = some (startedHost ip i) := by
  have line : hostsLine i = [] ++ (Python.str i ++
      ([' '] ++ (localhost ++ ([' '] ++ (Python.str (processesBaseIp + i) ++ []))))) := by
    simp [hostsLine, List.intercalate_cons_cons]
  have id_ : extractUnsigned 64 0 ([] ++ (Python.str i ++
      ([' '] ++ (localhost ++ ([' '] ++ (Python.str (processesBaseIp + i) ++ [])))))) = ⟨i, _⟩ :=
    (Python.numeral_str i).extractUnsigned blank_nil (by simp [isSpace]) (by omega)
  have name : extractWord [] ([' '] ++ (localhost ++
      ([' '] ++ (Python.str (processesBaseIp + i) ++ [])))) = ⟨localhost, _⟩ :=
    extractWord_append blank_space localhost_word.1 localhost_word.2.1 (by simp [isSpace])
  have port : extractUnsigned 16 0 ([' '] ++ (Python.str (processesBaseIp + i) ++ [])) =
      ⟨processesBaseIp + i, _⟩ :=
    (Python.numeral_str (processesBaseIp + i)).extractUnsigned blank_space (by simp)
      (by unfold processesBaseIp; omega)
  unfold readHost
  rw [line, id_]
  simp only [Option.bind_eq_bind, Option.bind_some]
  rw [name]
  simp only [Option.bind_some]
  rw [port]
  simp only [Option.bind_some, found]
  rfl

theorem readHosts_generateConfig (found : resolve localhost = some ip) (few : n ≤ maxProcesses)
    (messages : Nat) (dependencies : Nat → List Nat) :
    readHosts resolve (generateConfig n messages dependencies).1 =
      some ((List.range' 1 n).map (startedHost ip)) := by
  have fits : n ≤ 128 := few
  have parts : lines (generateConfig n messages dependencies).1 =
      (List.range' 1 n).map hostsLine := by
    refine Python.lines_flatMap fun line mem => ?_
    obtain ⟨i, -, rfl⟩ := List.mem_map.mp mem
    refine newline_notMem_intercalate fun word mem => ?_
    rcases List.mem_cons.mp mem with rfl | mem
    · exact notMem_str (by decide) i
    rcases List.mem_pair.mp mem with rfl | rfl
    · exact localhost_word.2.2.2
    · exact notMem_str (by decide) _
  have full : ∀ line ∈ (List.range' 1 n).map hostsLine, ¬ Blank line := by
    intro line mem blank
    obtain ⟨i, -, rfl⟩ := List.mem_map.mp mem
    have inside : 'l' ∈ hostsLine i := by simp [hostsLine, List.intercalate_cons_cons, localhost]
    exact absurd (blank 'l' inside) (by decide)
  unfold readHosts
  rw [parts, List.filter_eq_self.mpr fun line mem => decide_eq_true (full line mem)]
  refine mapM_map_some fun i mem => readHost_hostsLine found ?_
  have := List.mem_range'_1.mp mem
  omega

/-- The hosts file is read as it was written. -/
theorem hostsOfFile_generateConfig (found : resolve localhost = some ip) (two : 2 ≤ n)
    (few : n ≤ maxProcesses) (messages : Nat) (dependencies : Nat → List Nat) :
    hostsOfFile resolve (generateConfig n messages dependencies).1 =
      some ((List.range' 1 n).map (startedHost ip)) := by
  have read := readHosts_generateConfig found few messages dependencies
  have ids : ((List.range' 1 n).map (startedHost ip)).map Host.id = List.range' 1 n := by
    rw [List.map_map]
    exact List.map_id _
  have size : ((List.range' 1 n).map (startedHost ip)).length = n := by
    rw [List.length_map, List.length_range']
  have compact : Compact (((List.range' 1 n).map (startedHost ip)).map Host.id) := by
    rw [ids]
    refine compact_of_perm ?_ ?_
    · rw [List.length_range']
      omega
    · rw [List.length_range']
  rw [(hostsOfFile_eq read).1 ⟨size.symm ▸ two, compact⟩]
  refine congrArg some (List.mergeSort_of_pairwise ?_)
  rw [List.pairwise_map]
  exact List.pairwise_le_range'.imp fun le => decide_eq_true le

/-! ## The arguments -/

theorem hostOfAddress_address (found : resolve localhost = some ip) (old : Nat) {port : Nat}
    (small : port < 2 ^ 16) :
    hostOfAddress resolve old (address localhost port) = some { id := 0, ip, port := htons port } := by
  have digits : (Python.str port).map (fun c => if c = ':' then ' ' else c) = Python.str port := by
    refine (List.map_congr_left fun c mem => if_neg ?_).trans (List.map_id _)
    exact fun same => notMem_str (by decide) port (same ▸ mem)
  have blanks : (address localhost port).map (fun c => if c = ':' then ' ' else c) =
      [] ++ (localhost ++ ([' '] ++ (Python.str port ++ []))) := by
    rw [address, List.map_append, List.map_cons, digits]
    simp [localhost]
  have name : extractWord [] ([] ++ (localhost ++ ([' '] ++ (Python.str port ++ [])))) =
      ⟨localhost, _⟩ :=
    extractWord_append blank_nil localhost_word.1 localhost_word.2.1 (by simp [isSpace])
  have number : extractUnsigned 16 old ([' '] ++ (Python.str port ++ [])) = ⟨port, _⟩ :=
    (Python.numeral_str port).extractUnsigned blank_space (by simp) small
  unfold hostOfAddress
  rw [blanks, name]
  simp only [Option.map_some, Option.getD_some]
  rw [number, found]
  rfl

/-- What process `pid` reads of its arguments. -/
def started (ip : Nat) (hostsFilePath configFilePath outputDirPath : List Char) (pid : Nat) :
    Parser where
  id := pid
  hostsPath := hostsFilePath
  barrier := { id := 0, ip, port := htons barrierPort }
  signal := { id := 0, ip, port := htons signalPort }
  outputPath := CausalBroadcast.outputPath outputDirPath pid
  configPath := configFilePath

theorem parse_startArguments (found : resolve localhost = some ip) (old : Nat)
    (bin hostsFilePath configFilePath outputDirPath : List Char) {pid : Nat} (small : pid < 2 ^ 64) :
    parse resolve old true (startArguments bin hostsFilePath configFilePath outputDirPath pid) =
      some (started ip hostsFilePath configFilePath outputDirPath pid) := by
  have places : startArguments bin hostsFilePath configFilePath outputDirPath pid =
      arguments bin (Python.str pid) hostsFilePath (address localhost barrierPort)
        (address localhost signalPort) (CausalBroadcast.outputPath outputDirPath pid) ++
        [configFilePath] := by
    simp [startArguments, arguments]
  have barrier := hostOfAddress_address found old (by decide : barrierPort < 2 ^ 16)
  have signal := hostOfAddress_address found old (by decide : signalPort < 2 ^ 16)
  rw [places]
  exact @parse_arguments _ _ _ (started ip hostsFilePath configFilePath outputDirPath pid) _ _ _ _ _
    (Python.numeral_str pid) small barrier signal (by simp [started])

/-- Ports are told apart in network order. -/
theorem htons_inj {port port' : Nat} (small : port < 2 ^ 16) (small' : port' < 2 ^ 16)
    (same : htons port = htons port') : port = port' := by
  unfold htons at same
  omega

/-- A process finds its own host among those of the hosts file. -/
theorem localPort_startedHost {hostsFilePath configFilePath outputDirPath : List Char}
    (below : i < n) :
    (started ip hostsFilePath configFilePath outputDirPath (i + 1)).localPort
      ((List.range' 1 n).map (startedHost ip)) = some (startedHost ip (i + 1)).port := by
  have mem : i + 1 ∈ List.range' 1 n := List.mem_range'_1.mpr (by omega)
  cases first : (List.range' 1 n).find? (fun j => decide (j = i + 1)) with
  | none =>
    have away := List.find?_eq_none.mp first (i + 1) mem
    simp at away
  | some j =>
    obtain rfl : j = i + 1 := by simpa using List.find?_some first
    unfold localPort
    rw [List.find?_map, Option.map_map]
    exact congrArg (Option.map fun j => (startedHost ip j).port) first

end Parser

/-- No two processes have one output file. -/
theorem outputPath_injective (outputDirPath : List Char) :
    Function.Injective (outputPath outputDirPath) := by
  intro pid pid' same
  have numbers : (if pid < 10 then '0' :: Python.str pid else Python.str pid) =
      if pid' < 10 then '0' :: Python.str pid' else Python.str pid' := by
    unfold outputPath at same
    dsimp only at same
    split at same
    · have tail := List.append_cancel_left same
      simpa using tail
    · have tail := List.append_cancel_left same
      simpa using tail
  have value : ∀ pid, Nat.ofDigitChars 10 (if pid < 10 then '0' :: Python.str pid else
      Python.str pid) 0 = pid := by
    intro pid
    split
    · exact (Python.numeral_str pid).value
    · exact (Python.numeral_str pid).value
  calc pid = Nat.ofDigitChars 10 (if pid < 10 then '0' :: Python.str pid else Python.str pid) 0 :=
        (value pid).symm
    _ = pid' := by rw [numbers, value]

/-! ## The system -/

section
variable {n m : Nat} {dependencies : Nat → List Nat}

/-- The config file is one of the format, without blank lines. -/
theorem configText_generateConfig (two : 2 ≤ n) (few : n ≤ maxProcesses) (small : m < 2 ^ 32)
    (short : ∀ i ∈ List.range' 1 n, (dependencies i).length ≤ maxProcesses)
    (inside : ∀ i ∈ List.range' 1 n, ∀ d ∈ dependencies i, 1 ≤ d ∧ d ≤ n) :
    ConfigParser.ConfigText n m dependencies (generateConfig n m dependencies).2 ∧
      ∀ line ∈ (lines (generateConfig n m dependencies).2).tail, ¬ Blank line := by
  have written : ∀ process, Numerals (process :: dependencies process)
      (dependenciesLine dependencies process) := fun process =>
    numerals_intercalate blank_nil process (dependencies process)
  have first : Numerals [m] (Python.str m) := by
    simpa using numerals_intercalate blank_nil m []
  have parts : lines (generateConfig n m dependencies).2 =
      Python.str m :: (List.range' 1 n).map (dependenciesLine dependencies) := by
    refine Python.lines_flatMap fun line mem => ?_
    rcases List.mem_cons.mp mem with rfl | mem
    · exact notMem_str (by decide) m
    · obtain ⟨i, -, rfl⟩ := List.mem_map.mp mem
      refine newline_notMem_intercalate fun word mem => ?_
      obtain ⟨x, -, rfl⟩ := List.mem_map.mp mem
      exact notMem_str (by decide) x
  have full : ∀ line ∈ (List.range' 1 n).map (dependenciesLine dependencies), ¬ Blank line := by
    intro line mem blank
    obtain ⟨process, -, rfl⟩ := List.mem_map.mp mem
    have numerals := written process
    generalize dependenciesLine dependencies process = line at numerals blank
    cases numerals with
    | cons space numeral apart rest =>
      obtain ⟨c, cs, rfl, digit⟩ := numeral.exists_cons
      have space := blank c (by simp)
      rw [not_isDigit_of_isSpace space] at digit
      cases digit
  have whole := List.filter_eq_self.mpr fun line mem => decide_eq_true (full line mem)
  refine ⟨{
    two_le := two
    le_max := few
    small := small
    few := short
    inside := inside
    content := ⟨_, _, List.range' 1 n, parts, first, .refl _, ?_⟩ }, by rw [parts]; exact full⟩
  rw [whole, List.forall₂_map_right_iff]
  exact List.forall₂_same.mpr fun process _ => written process

open ConfigParser in
/-- The config file is read as it was written, and is what the layers need. -/
theorem exists_setup (two : 2 ≤ n) (few : n ≤ maxProcesses) (small : m < 2 ^ 32)
    (short : ∀ i ∈ List.range' 1 n, (dependencies i).length ≤ maxProcesses)
    (inside : ∀ i ∈ List.range' 1 n, ∀ d ∈ dependencies i, 1 ≤ d ∧ d ≤ n)
    (memory : Vector Nat maxProcesses) : ∃ (setup : Setup) (sound : setup.Sound),
      parseFile memory (generateConfig n m dependencies).2 = some (setup.numMessages, setup.deps) ∧
      setup.hosts = List.range' 1 n ∧ (setup.config sound).numProcesses = n ∧
      (setup.config sound).numMessages = m ∧
      ∀ i < n, (setup.config sound).depends i = (dependencies (i + 1)).map (· - 1) := by
  obtain ⟨ok, full⟩ := configText_generateConfig two few small short inside
  obtain ⟨deps, parsed, numbered, contents⟩ := ok.exists_of_full full memory
  have perm : (List.range' 1 n).Perm (List.range' 1 n) := .refl _
  obtain ⟨setup, read, sound, size, count⟩ := (ok.wellFormed full perm).exists_read memory
  have size : setup.hosts.length = n := size.trans List.length_range'
  simp only [Input.read, Option.bind_eq_bind, Option.bind_eq_some_iff, Option.pure_def,
    Option.some.injEq] at read
  obtain ⟨hosts, -, deps', parsed', rfl⟩ := read
  simp only [parseFile, Option.bind_eq_bind, Option.bind_eq_some_iff, Option.pure_def,
    Option.some.injEq, Prod.mk.injEq] at parsed
  obtain ⟨deps'', parsed'', number, rfl⟩ := parsed
  obtain rfl : deps' = _ := Option.some.inj (parsed'.symm.trans parsed'')
  have messages : (UInt32.ofNat (messageNum ((lines (generateConfig n m dependencies).2).headD
      []))).toNat = m := by
    rw [number]
    exact Nat.mod_eq_of_lt small
  refine ⟨_, sound, ?_, size ▸ sound.hosts, size, messages, fun i below => ?_⟩
  · rw [parseFile, parsed'']
    exact congrArg (fun count => some (count, _)) (number.trans messages.symm)
  · have sorted := map_process_mergeSort numbered
    have mem_of : ∀ dep ∈ deps.mergeSort fun a b => a.process ≤ b.process, dep ∈ deps :=
      fun dep => List.mem_mergeSort.mp
    generalize (deps.mergeSort fun a b => a.process ≤ b.process) = inOrder at *
    have count : inOrder.length = n := by
      have all := congrArg List.length sorted
      rwa [List.length_map, List.length_range'] at all
    have at_ := List.getElem?_eq_getElem (count.symm ▸ below)
    have place := congrArg (·[i]?) sorted
    simp only [List.getElem?_map, at_, Option.map_some, List.getElem?_range' below,
      Option.some.injEq] at place
    obtain ⟨j, -, process, elements⟩ := contents _ (mem_of _ (List.mem_of_getElem? at_))
    obtain rfl : j = i + 1 := by omega
    show Setup.depends _ i = _
    rw [Setup.depends, at_]
    exact elements

/-- **What `validate.py` writes is what every process reads**: the system that was asked for, its own
place in it, the port of its own host, and an output file that no other process has. -/
theorem launch_ok (two : 2 ≤ n) (few : n ≤ maxProcesses) (small : m < 2 ^ 32)
    (short : ∀ i ∈ List.range' 1 n, (dependencies i).length ≤ maxProcesses)
    (inside : ∀ i ∈ List.range' 1 n, ∀ d ∈ dependencies i, 1 ≤ d ∧ d ≤ n)
    {resolve : List Char → Option Nat} {ip : Nat} (found : resolve localhost = some ip) (old : Nat)
    (memory : Vector Nat maxProcesses)
    (bin hostsFilePath configFilePath outputDirPath : List Char) :
    ∃ (setup : Setup) (sound : setup.Sound) (hosts : List Parser.Host),
      (setup.config sound).numProcesses = n ∧ (setup.config sound).numMessages = m ∧
      (∀ i < n, (setup.config sound).depends i = (dependencies (i + 1)).map (· - 1)) ∧
      Parser.hostsOfFile resolve (generateConfig n m dependencies).1 = some hosts ∧
      hosts.map Parser.Host.id = setup.hosts ∧ (hosts.map Parser.Host.port).Nodup ∧
      ConfigParser.parseFile memory (generateConfig n m dependencies).2 =
        some (setup.numMessages, setup.deps) ∧
      (∀ i < n, ∃ parser host, Parser.parse resolve old true
          (startArguments bin hostsFilePath configFilePath outputDirPath (i + 1)) = some parser ∧
        parser.index = i ∧ parser.hostsPath = hostsFilePath ∧ parser.configPath = configFilePath ∧
        parser.outputPath = outputPath outputDirPath (i + 1) ∧
        parser.barrier = ⟨0, ip, Parser.htons barrierPort⟩ ∧
        parser.signal = ⟨0, ip, Parser.htons signalPort⟩ ∧
        hosts[i]? = some host ∧ parser.localPort hosts = some host.port) ∧
      Function.Injective (outputPath outputDirPath) := by
  have fits : n ≤ 128 := few
  obtain ⟨setup, sound, parsed, ids, processes, messages, depends⟩ :=
    exists_setup two few small short inside memory
  have hosts := Parser.hostsOfFile_generateConfig found two few m dependencies
  refine ⟨setup, sound, _, processes, messages, depends, hosts, ?_, ?_, parsed, fun i below => ?_,
    outputPath_injective outputDirPath⟩
  · rw [ids, List.map_map]
    exact List.map_id _
  · rw [List.map_map]
    refine List.Nodup.map_on (fun i mem j mem' same => ?_) List.nodup_range'
    have lowI := List.mem_range'_1.mp mem
    have lowJ := List.mem_range'_1.mp mem'
    have ports := Parser.htons_inj (by unfold processesBaseIp; omega)
      (by unfold processesBaseIp; omega) same
    omega
  · have place : ((List.range' 1 n).map (Parser.startedHost ip))[i]? =
        some (Parser.startedHost ip (i + 1)) := by
      rw [List.getElem?_map, List.getElem?_range' below]
      exact congrArg (some ∘ Parser.startedHost ip) (Nat.add_comm 1 _ |>.trans (by omega))
    refine ⟨_, _, Parser.parse_startArguments found old bin hostsFilePath configFilePath outputDirPath
      (by omega), ?_, rfl, rfl, rfl, rfl, rfl, place, ?_⟩
    · show (i + 1 + 2 ^ 64 - 1) % 256 = i
      omega
    · exact Parser.localPort_startedHost below

/-- Two processes, of which the first depends on the second. -/
theorem launch_ok_of_pair : ∃ parser, Parser.parse Parser.loopback 0 true
    (startArguments ['d', 'a'] ['h'] ['c'] ['l', 'o', 'g', 's'] 2) = some parser ∧
      parser.index = 1 ∧ parser.hostsPath = ['h'] ∧ parser.configPath = ['c'] ∧
      parser.outputPath = outputPath ['l', 'o', 'g', 's'] 2 := by
  have launched := @launch_ok 2 1 (fun i => if i = 1 then [2] else []) (by decide) (by decide)
    (by decide) (by decide) (by decide) Parser.loopback 0x0100007f rfl 0 (Vector.replicate _ 0)
    ['d', 'a'] ['h'] ['c'] ['l', 'o', 'g', 's']
  obtain ⟨_, _, _, -, -, -, -, -, -, -, runs, -⟩ := launched
  obtain ⟨parser, -, parsed, index, hosts, config, output, -⟩ := runs 1 (by decide)
  exact ⟨parser, parsed, index, hosts, config, output⟩

end

end CausalBroadcast
