import CausalBroadcast.Broadcast.Files

/-!
# The command line

`Parser::parse`, over the list of arguments. Every argument has its place, and a path is whatever
stands there. An address is a name and a port with a colon in between, neither of which is looked at
any further: what is read of an address without them is what was in the variables before.
-/

namespace CausalBroadcast

open Text

namespace Parser

/-- `isPositiveNumber`. -/
def isPositiveNumber (s : List Char) : Bool := s ≠ [] && s.all Char.isDigit

/-- `std::stoul`: `none` where it throws. -/
def stoul (s : List Char) : Option Nat :=
  match number (skipSpace s) with
  | none => none
  | some (negative, n, _) =>
    if 2 ^ 64 ≤ n then none else some (if negative then (2 ^ 64 - n) % 2 ^ 64 else n)

/-- The flags, in the order of their places. -/
def idFlag : List Char := ['-', '-', 'i', 'd']

@[inherit_doc idFlag] def hostsFlag : List Char := ['-', '-', 'h', 'o', 's', 't', 's']

@[inherit_doc idFlag] def barrierFlag : List Char :=
  ['-', '-', 'b', 'a', 'r', 'r', 'i', 'e', 'r']

@[inherit_doc idFlag] def signalFlag : List Char := ['-', '-', 's', 'i', 'g', 'n', 'a', 'l']

@[inherit_doc idFlag] def outputFlag : List Char := ['-', '-', 'o', 'u', 't', 'p', 'u', 't']

/-- The argument behind a flag at place `i`. -/
def argument (argv : List (List Char)) (i : Nat) (flag : List Char) : Option (List Char) :=
  if argv.length < i + 2 then none
  else if argv[i]? = some flag then argv[i + 1]?
  else none

/-- The host of an address: `none` where the name has no address for `resolve`. The port is stored
where `old` was. -/
def hostOfAddress (resolve : List Char → Option Nat) (old : Nat) (address : List Char) :
    Option Host := do
  let name := extractWord [] (address.map fun c => if c = ':' then ' ' else c)
  let port := (name.rest.map fun rest => (extractUnsigned 16 old rest).value).getD old
  let ip ← resolve name.value
  return { id := 0, ip, port := htons port }

/-- `parseID`. -/
def parseID (argv : List (List Char)) : Option Nat :=
  (argument argv 1 idFlag).bind fun s => if isPositiveNumber s then stoul s else none

/-- `parseHostPath`. -/
def parseHostPath (argv : List (List Char)) : Option (List Char) := argument argv 3 hostsFlag

/-- `parseBarrier`. -/
def parseBarrier (resolve : List Char → Option Nat) (old : Nat) (argv : List (List Char)) :
    Option Host :=
  (argument argv 5 barrierFlag).bind (hostOfAddress resolve old)

/-- `parseSignal`. -/
def parseSignal (resolve : List Char → Option Nat) (old : Nat) (argv : List (List Char)) :
    Option Host :=
  (argument argv 7 signalFlag).bind (hostOfAddress resolve old)

/-- `parseOutputPath`. -/
def parseOutputPath (argv : List (List Char)) : Option (List Char) := argument argv 9 outputFlag

/-- `parseConfigPath`. -/
def parseConfigPath (withConfig : Bool) (argv : List (List Char)) : Option (List Char) :=
  if !withConfig then some []
  else if argv.length < 12 then none
  else argv[11]?

end Parser

/-- What is parsed of the command line. -/
structure Parser where
  /-- an `unsigned long` -/
  id : Nat
  hostsPath : List Char
  barrier : Parser.Host
  signal : Parser.Host
  outputPath : List Char
  configPath : List Char

namespace Parser

/-- `parse`: `none` where it prints the usage and exits, or throws. -/
def parse (resolve : List Char → Option Nat) (old : Nat) (withConfig : Bool)
    (argv : List (List Char)) : Option Parser := do
  let id ← parseID argv
  let hostsPath ← parseHostPath argv
  let barrier ← parseBarrier resolve old argv
  let signal ← parseSignal resolve old argv
  let outputPath ← parseOutputPath argv
  let configPath ← parseConfigPath withConfig argv
  return { id, hostsPath, barrier, signal, outputPath, configPath }

/-- `index`. -/
def index (parser : Parser) : Nat := toProcessId (parser.id + 2 ^ 64 - 1)

/-- `local_port`: `none` where it throws. -/
def localPort (parser : Parser) (hosts : List Host) : Option Nat :=
  (hosts.find? fun host => host.id = parser.id).map Host.port

section
variable {argv : List (List Char)} {s flag : List Char} {i n : Nat}

theorem argument_eq_some_iff :
    argument argv i flag = some s ↔ argv[i]? = some flag ∧ argv[i + 1]? = some s := by
  unfold argument
  split
  next short =>
    refine iff_of_false (fun none_ => by cases none_) fun ⟨_, second⟩ => ?_
    have := (List.getElem?_eq_some_iff.mp second).1
    omega
  next long =>
    split
    next first => exact (and_iff_right first).symm
    next other => exact iff_of_false (fun none_ => by cases none_) fun ⟨first, _⟩ => other first

/-- An id is a numeral of 64 bits. -/
theorem stoul_eq_some_iff (digits : isPositiveNumber s) :
    stoul s = some n ↔ Numeral n s ∧ n < 2 ^ 64 := by
  simp only [isPositiveNumber, Bool.and_eq_true, decide_eq_true_eq, List.all_eq_true] at digits
  have numeral : Numeral (Nat.ofDigitChars 10 s 0) s := ⟨digits.1, digits.2, rfl⟩
  have read : number (skipSpace s) = some (false, Nat.ofDigitChars 10 s 0, []) := by
    have spaceless := numeral.skipSpace_append []
    have numbered : number (s ++ []) = some (false, Nat.ofDigitChars 10 s 0, []) :=
      numeral.number_append fun c mem => by cases mem
    rw [List.append_nil] at spaceless numbered
    rw [spaceless, numbered]
  unfold stoul
  rw [read]
  dsimp only
  constructor
  · intro stored
    obtain ⟨small, same⟩ := Option.ite_none_left_eq_some.mp stored
    obtain rfl : Nat.ofDigitChars 10 s 0 = n := by simpa using same
    exact ⟨numeral, Nat.not_le.mp small⟩
  · rintro ⟨numeral', small⟩
    rw [numeral'.value, if_neg (Nat.not_le.mpr small)]
    rfl

theorem parseID_eq_some_iff : parseID argv = some n ↔
    argv[1]? = some idFlag ∧ ∃ s, argv[2]? = some s ∧ Numeral n s ∧ n < 2 ^ 64 := by
  unfold parseID
  rw [Option.bind_eq_some_iff]
  constructor
  · rintro ⟨s, given, stored⟩
    obtain ⟨flag, place⟩ := argument_eq_some_iff.mp given
    obtain ⟨digits, stored⟩ := Option.ite_none_right_eq_some.mp stored
    exact ⟨flag, s, place, (stoul_eq_some_iff digits).mp stored⟩
  · rintro ⟨flag, s, place, numeral, small⟩
    refine ⟨s, argument_eq_some_iff.mpr ⟨flag, place⟩, ?_⟩
    have digits : isPositiveNumber s := by
      simp only [isPositiveNumber, Bool.and_eq_true, decide_eq_true_eq, List.all_eq_true]
      exact ⟨numeral.nonempty, numeral.isDigit⟩
    rw [if_pos digits]
    exact (stoul_eq_some_iff digits).mpr ⟨numeral, small⟩

/-- The arguments up to the output path, each flag at its place. -/
def arguments (program id hostsPath barrier signal outputPath : List Char) : List (List Char) :=
  [program, idFlag, id, hostsFlag, hostsPath, barrierFlag, barrier, signalFlag, signal, outputFlag,
    outputPath]

theorem parseConfigPath_eq_some_iff {withConfig : Bool} {path : List Char} :
    parseConfigPath withConfig argv = some path ↔
      if withConfig then argv[11]? = some path else path = [] := by
  unfold parseConfigPath
  cases withConfig with
  | false => simp [eq_comm]
  | true =>
    simp only [Bool.not_true, Bool.false_eq_true, if_false, if_true]
    split
    next short =>
      refine iff_of_false (fun none_ => by cases none_) fun place => ?_
      have := (List.getElem?_eq_some_iff.mp place).1
      omega
    next long => rfl

variable {resolve : List Char → Option Nat} {old : Nat} {withConfig : Bool} {parser : Parser}

/-- Arguments at their places are parsed. -/
theorem parse_arguments {program id barrier signal : List Char} {rest : List (List Char)}
    (numeral : Numeral parser.id id) (small : parser.id < 2 ^ 64)
    (barrierHost : hostOfAddress resolve old barrier = some parser.barrier)
    (signalHost : hostOfAddress resolve old signal = some parser.signal)
    (config : if withConfig then rest.head? = some parser.configPath else parser.configPath = []) :
    parse resolve old withConfig
        (arguments program id parser.hostsPath barrier signal parser.outputPath ++ rest) =
      some parser := by
  rw [List.head?_eq_getElem?] at config
  simp only [parse, Option.bind_eq_bind, Option.bind_eq_some_iff, Option.pure_def,
    Option.some.injEq, parseBarrier, parseSignal, parseHostPath, parseOutputPath,
    argument_eq_some_iff, parseID_eq_some_iff, parseConfigPath_eq_some_iff]
  exact ⟨_, ⟨rfl, id, rfl, numeral, small⟩, _, ⟨rfl, rfl⟩, _, ⟨barrier, ⟨rfl, rfl⟩, barrierHost⟩, _,
    ⟨signal, ⟨rfl, rfl⟩, signalHost⟩, _, ⟨rfl, rfl⟩, _, config, rfl⟩

/-- **What command lines are accepted**: those with the flags at their places, an id of 64 bits
written in digits, two addresses whose names can be looked up, and a config file where one is asked
for; and whatever comes behind is not looked at. -/
theorem parse_eq_some_iff : parse resolve old withConfig argv = some parser ↔
    ∃ program id barrier signal rest,
      argv = arguments program id parser.hostsPath barrier signal parser.outputPath ++ rest ∧
      Numeral parser.id id ∧ parser.id < 2 ^ 64 ∧
      hostOfAddress resolve old barrier = some parser.barrier ∧
      hostOfAddress resolve old signal = some parser.signal ∧
      if withConfig then rest.head? = some parser.configPath else parser.configPath = [] := by
  constructor
  · intro parsed
    obtain ⟨n, hostsPath, barrierHost, signalHost, outputPath, configPath⟩ := parser
    simp only [parse, Option.bind_eq_bind, Option.bind_eq_some_iff, Option.pure_def,
      Option.some.injEq, mk.injEq, parseBarrier, parseSignal, parseHostPath, parseOutputPath,
      argument_eq_some_iff, parseID_eq_some_iff, parseConfigPath_eq_some_iff] at parsed
    obtain ⟨n, ⟨idAt, id, idText, numeral, small⟩, hostsPath, ⟨hostsAt, hosts⟩, _,
      ⟨barrier, ⟨barrierAt, barrierText⟩, barrierHost⟩, _,
      ⟨signal, ⟨signalAt, signalText⟩, signalHost⟩, outputPath, ⟨outputAt, output⟩, _, config, rfl, rfl,
      rfl, rfl, rfl, rfl⟩ := parsed
    obtain ⟨program, first⟩ : ∃ program, argv[0]? = some program := by
      have := (List.getElem?_eq_some_iff.mp output).1
      exact ⟨_, List.getElem?_eq_getElem (by omega)⟩
    have front : argv.take 11 = arguments program id hostsPath barrier signal outputPath := by
      simp only [List.take_add_one, List.take_zero, first, idAt, idText, hostsAt, hosts, barrierAt,
        barrierText, signalAt, signalText, outputAt, output]
      rfl
    refine ⟨program, id, barrier, signal, argv.drop 11, ?_, numeral, small, barrierHost, signalHost, ?_⟩
    · rw [← front, List.take_append_drop]
    · rwa [List.head?_drop]
  · rintro ⟨program, id, barrier, signal, rest, rfl, numeral, small, barrierHost, signalHost, config⟩
    exact parse_arguments numeral small barrierHost signalHost config

end

end Parser

end CausalBroadcast
