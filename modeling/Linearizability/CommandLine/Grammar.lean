import Linearizability.Decimal.Digits

/-! # Command lines

A command line is a list of arguments, some of which are options. An option has a long name, and
perhaps a letter; letters can be put together. The value of an option is attached to its name or is
the next argument. Arguments take effect in their order, up to the first one that stops it.
-/

namespace Linearizability.CommandLine

/-- What an option does to the settings of a command. -/
inductive Effect (α : Type) where
  | help
  | flag (apply : α → α)
  /-- The option has a value, which may be refused. -/
  | value (apply : String → α → Option α)

structure Switch (α : Type) where
  name : String
  letter : Option Char := none
  effect : Effect α

/-- How the arguments of a command make up its settings. -/
structure Grammar (α : Type) where
  switches : List (Switch α)
  /-- Take an argument that is no option. -/
  argument : String → α → Option α
  /-- Whether nothing is missing. -/
  isComplete : α → Bool

/-- Why a command does not run. -/
inductive Stop where
  | help
  /-- The arguments are not those of the command. -/
  | usage
  deriving DecidableEq

/-- What has been read of a command line. -/
structure Parse (α : Type) where
  settings : α
  /-- The names of the options met. -/
  used : List String := []
  /-- What to do with the next argument, if it is the value of an option. -/
  pending : Option (String → α → Option α) := none
  /-- Whether no argument that follows is an option. -/
  isClosed : Bool := false

namespace Parse

variable {α : Type}

def update (parse : Parse α) (settings : Option α) : Except Stop (Parse α) :=
  match settings with
  | none => .error .usage
  | some settings => .ok { parse with settings }

/-- Use an option, to which a value may be attached. No option is used twice. -/
def use (parse : Parse α) (switch : Switch α) (attached : Option String) :
    Except Stop (Parse α) :=
  if switch.name ∈ parse.used then .error .usage
  else
    let parse := { parse with used := switch.name :: parse.used }
    match switch.effect, attached with
    | .help, none => .error .help
    | .flag apply, none => parse.update (some (apply parse.settings))
    | .help, some _ | .flag _, some _ => .error .usage
    | .value apply, some value => parse.update (apply value parse.settings)
    | .value apply, none => .ok { parse with pending := some apply }

/-- Use an option by its long name, from the characters behind the dashes. -/
def useName (grammar : Grammar α) (parse : Parse α) (cs : List Char) : Except Stop (Parse α) :=
  let name := String.ofList (cs.takeWhile (· != '='))
  let attached :=
    match cs.dropWhile (· != '=') with
    | [] => none
    | _ :: value => some (String.ofList value)
  match grammar.switches.find? (·.name == name) with
  | none => .error .usage
  | some switch => parse.use switch attached

/-- The value attached to a letter; an equals sign in front of it is no part of it. -/
def attachedTo : List Char → Option String
  | [] => none
  | '=' :: value => some (String.ofList value)
  | value => some (String.ofList value)

/-- Use options by their letters. What follows the letter of an option with a value is the
value. -/
def useLetters (grammar : Grammar α) (parse : Parse α) : List Char → Except Stop (Parse α)
  | [] => .ok parse
  | c :: rest =>
    match grammar.switches.find? (·.letter == some c) with
    | none => .error .usage
    | some switch =>
      match switch.effect with
      | .value _ => parse.use switch (attachedTo rest)
      | _ =>
        match parse.use switch none with
        | .error stop => .error stop
        | .ok parse => parse.useLetters grammar rest

/-- Read an argument. A single dash is no option, and a value does not look like an option. -/
def next (grammar : Grammar α) (parse : Parse α) (argument : String) : Except Stop (Parse α) :=
  if parse.isClosed then parse.update (grammar.argument argument parse.settings)
  else
    match parse.pending, argument.toList with
    | some _, '-' :: _ :: _ => .error .usage
    | some apply, _ => { parse with pending := none }.update (apply argument parse.settings)
    | none, ['-', '-'] => .ok { parse with isClosed := true }
    | none, '-' :: '-' :: name => parse.useName grammar name
    | none, '-' :: c :: rest => parse.useLetters grammar (c :: rest)
    | none, _ => parse.update (grammar.argument argument parse.settings)

/-- The settings, if nothing is missing. -/
def finish (grammar : Grammar α) (parse : Parse α) : Except Stop α :=
  if parse.pending.isSome then .error .usage
  else if grammar.isComplete parse.settings then .ok parse.settings
  else .error .usage

end Parse

/-- The settings that the arguments of a command ask for, from those without any argument. -/
def Grammar.parse {α : Type} (grammar : Grammar α) (settings : α) (arguments : List String) :
    Except Stop α := do
  let parse ← arguments.foldlM (Parse.next grammar) { settings }
  parse.finish grammar

/-- The natural number with the given digits. -/
def natural? (cs : List Char) : Option Nat :=
  if cs.isEmpty = false ∧ cs.all Char.isDigit = true then
    some (Decimal.ofDigits 0 (cs.map fun c => c.toNat - 48))
  else none

/-- A number of 64 bits, which may have a plus sign. -/
def uint64? (s : String) : Option UInt64 :=
  let n? :=
    match s.toList with
    | '+' :: digits => natural? digits
    | digits => natural? digits
  n?.bind fun n => if n < UInt64.size then some (.ofNat n) else none

/-- The number of a port, which may have a sign. -/
def port? (s : String) : Option UInt16 :=
  let z? : Option Int :=
    match s.toList with
    | '+' :: digits => (natural? digits).map Int.ofNat
    | '-' :: digits => (natural? digits).map fun n => -n
    | digits => (natural? digits).map Int.ofNat
  z?.bind fun z => if 0 ≤ z ∧ z < UInt16.size then some (.ofNat z.toNat) else none

/-- A path is not empty. -/
def path? (s : String) : Option String := if s = "" then none else some s

/-- What a command prints, and the status with which it ends. -/
structure Output where
  stdout : String := ""
  stderr : String := ""
  exit : Nat
  deriving DecidableEq

/-- What is printed when a command does not run. -/
def Stop.output (help : String) : Stop → Output
  | .help => { stdout := help, exit := 0 }
  | .usage => { stderr := "error: unexpected arguments; see --help\n", exit := 2 }

end Linearizability.CommandLine
