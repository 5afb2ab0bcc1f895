/-!
# Command-line arguments

A `Grammar` says which options and operands a command line may have.  `Grammar.scan` takes a command
line apart by these rules.

* `--name` is an option by its name and `-x` by its letter.  Letters may be joined, as in `-vvx`.
* A value follows its option as the next argument, after `=`, or directly after the letter.
* An option with many values takes all arguments up to the next option, unless its value came after
  `=`.
* An argument that starts with `-` is never a value, except `-` alone.
* After the first `--` all arguments are operands, another `--` too.
* A command word ends the options.
* `--help` or `-h` and `--version` or `-V` end everything, whatever comes after them.
-/

namespace Demanded

/-- What values an option takes and whether it may be repeated. -/
inductive Arity where
  /-- No value, at most once. -/
  | flag
  /-- No value, any number of times. -/
  | counter
  /-- One value, at most once. -/
  | one
  /-- At least one value each time, any number of times. -/
  | many
deriving DecidableEq

namespace Arity

/-- Whether an option has values. -/
def hasValues : Arity → Bool
  | one | many => true
  | flag | counter => false

/-- Whether an option may be repeated. -/
def repeats : Arity → Bool
  | counter | many => true
  | flag | one => false

end Arity

/-- An option of a command line. -/
structure OptionSpec where
  /-- The name, without dashes. -/
  name : String
  /-- The letter. -/
  letter : Option Char
  /-- What values it takes. -/
  arity : Arity
  /-- Whether a value is known where none is given. -/
  hasDefault : Bool := false

/-- What a command line may have. -/
structure Grammar where
  /-- The name and the version of the program. -/
  title : String
  /-- The options. -/
  options : List OptionSpec
  /-- The greatest number of operands. -/
  operands : Nat
  /-- The words that end the options. -/
  commands : List String

/-- Why a command line is not carried out. -/
inductive Halt where
  /-- It does not follow the grammar. -/
  | refused
  /-- It asks how to use the program. -/
  | helpWanted
  /-- It asks for the version of the program, which the title tells. -/
  | versionWanted (title : String)
deriving DecidableEq

/-- A command line taken apart. -/
structure Taken where
  /-- The names of the options, each time they stand. -/
  given : List String
  /-- The values, with the names of their options. -/
  values : List (String × String)
  /-- The operands. -/
  operands : List String
  /-- The command word and the arguments after it. -/
  command : Option (String × List String)

namespace Taken

/-- Nothing is taken. -/
def nothing : Taken := ⟨[], [], [], none⟩

/-- Adds an option. -/
def addOption (t : Taken) (o : OptionSpec) : Taken := { t with given := t.given ++ [o.name] }

/-- Adds a value of an option. -/
def addValue (t : Taken) (o : OptionSpec) (value : String) : Taken :=
  { t with values := t.values ++ [(o.name, value)] }

/-- How often an option stands. -/
def count (t : Taken) (name : String) : Nat := t.given.count name

/-- The values of an option, in order. -/
def valuesOf (t : Taken) (name : String) : List String :=
  (t.values.filter fun v => v.1 == name).map Prod.snd

/-- Whether an option stands as often as it may, with a value if it needs one. -/
def allows (t : Taken) (o : OptionSpec) : Bool :=
  (o.arity.repeats || decide (t.count o.name ≤ 1)) &&
    (!o.arity.hasValues || t.count o.name == 0 || o.hasDefault || !(t.valuesOf o.name).isEmpty)

end Taken

/-! ## Single arguments -/

/-- The forms of an argument. -/
inductive ArgumentForm where
  /-- An option by its name, with what stands after `=`. -/
  | named (name : List Char) (value : Option (List Char))
  /-- Options by their letters. -/
  | lettered (letters : List Char)
  /-- A value or an operand. -/
  | word

/-- The form of an argument other than `--`. -/
def argumentForm : List Char → ArgumentForm
  | '-' :: '-' :: rest =>
    let body := rest.dropWhile (· == '-')
    match body.dropWhile (· != '=') with
    | [] => .named body none
    | _ :: value => .named (body.takeWhile (· != '=')) (some value)
  | '-' :: c :: rest => .lettered (c :: rest)
  | _ => .word

/-- A value that is attached to its option, without equality signs in front. -/
def attached (value : List Char) : String := String.ofList (value.dropWhile (· == '='))

/-- The option that takes the next value, if any, and what is taken so far. -/
abbrev Progress := Option OptionSpec × Taken

namespace Grammar

/-- Why a command line with an unknown option is not carried out, where `help` and `version` tell
whether the option asks for one of these. -/
def unknownOption (g : Grammar) (help version : Bool) : Halt :=
  if help then .helpWanted else if version then .versionWanted g.title else .refused

/-- Takes an option by its name. -/
def takeNamed (g : Grammar) (name : String) (value : Option (List Char)) (t : Taken) :
    Except Halt Progress :=
  match g.options.find? fun o => o.name == name with
  | none => .error (g.unknownOption (name == "help") (name == "version"))
  | some o =>
    if o.arity.hasValues then
      match value with
      | none => .ok (some o, t.addOption o)
      | some v => .ok (none, (t.addOption o).addValue o (attached v))
    else .ok (none, t.addOption o)

/-- Takes options by their letters. -/
def takeLetters (g : Grammar) : List Char → Taken → Except Halt Progress
  | [], t => .ok (none, t)
  | c :: rest, t =>
    match g.options.find? fun o => o.letter == some c with
    | none => .error (g.unknownOption (c == 'h') (c == 'V'))
    | some o =>
      if o.arity.hasValues then
        if rest.isEmpty then .ok (some o, t.addOption o)
        else
          let more := o.arity.repeats && rest.head? != some '='
          .ok (if more then some o else none, (t.addOption o).addValue o (attached rest))
      else takeLetters g rest (t.addOption o)

/-- Takes a word, which is a value if an option waits for one and else an operand. -/
def takeWord (g : Grammar) (arg : String) (waiting : Option OptionSpec) (t : Taken) :
    Except Halt Progress :=
  match waiting with
  | some o => .ok (if o.arity.repeats then some o else none, t.addValue o arg)
  | none =>
    if t.operands.length < g.operands then .ok (none, { t with operands := t.operands ++ [arg] })
    else .error .refused

/-! ## Command lines -/

/-- Takes arguments one after the other.  `closed` tells whether `--` came before. -/
def takeAll (g : Grammar) (closed : Bool) : List String → Option OptionSpec → Taken →
    Except Halt Taken
  | [], _, t => .ok t
  | arg :: rest, waiting, t =>
    if closed then
      match g.takeWord arg none t with
      | .error h => .error h
      | .ok (_, t) => takeAll g closed rest none t
    else if arg = "--" then takeAll g true rest none t
    else if waiting.isNone && g.commands.contains arg then
      .ok { t with command := some (arg, rest) }
    else
      let taken :=
        match argumentForm arg.toList with
        | .named name value => g.takeNamed (String.ofList name) value t
        | .lettered letters => g.takeLetters letters t
        | .word => g.takeWord arg waiting t
      match taken with
      | .error h => .error h
      | .ok (waiting, t) => takeAll g closed rest waiting t

/-- Takes a command line apart. -/
def scan (g : Grammar) (args : List String) : Except Halt Taken :=
  match g.takeAll false args none .nothing with
  | .error h => .error h
  | .ok t => if g.options.all t.allows then .ok t else .error .refused

end Grammar

/-! ## Values -/

/-- Reads a natural number below `2 ^ 64` from decimal digits, after a plus sign if there is one. -/
def readCount? (s : String) : Option Nat :=
  let digits :=
    match s.toList with
    | '+' :: rest => rest
    | cs => cs
  if digits.isEmpty || !digits.all Char.isDigit then none
  else
    let n := digits.foldl (fun n c => 10 * n + (c.toNat - '0'.toNat)) 0
    if n < 18446744073709551616 then some n else none

end Demanded
