import Linearizability.Json.Container

/-! # JSON values

A value as it is, whatever is wanted. Lists and objects may be nested only to a certain depth.
-/

namespace Linearizability.Json

inductive Value where
  | null
  | flag (value : Bool)
  | number (value : Number)
  | text (value : String)
  | list (elements : List Value)
  | object (members : List (String × Value))

def Value.found : Value → Found
  | null => .null
  | flag b => .flag b
  | number x => x.found
  | text s => .text s
  | list _ => .list
  | object _ => .object

/-- The front of a value: all of it, or the opening bracket of a list or an object. -/
inductive Head where
  | null
  | flag (value : Bool)
  | number (value : Number)
  | text (value : String)
  | list
  | object

def Head.found : Head → Found
  | null => .null
  | flag b => .flag b
  | number x => x.found
  | text s => .text s
  | list => .list
  | object => .object

namespace Reader

/-- The front of the next value. -/
def head : Reader Head := do
  match ← peek with
  | none => fail .endInValue
  | some 'n' =>
    word .endInValue .expectedIdent ['n', 'u', 'l', 'l']
    pure .null
  | some 't' =>
    word .endInValue .expectedIdent ['t', 'r', 'u', 'e']
    pure (.flag true)
  | some 'f' =>
    word .endInValue .expectedIdent ['f', 'a', 'l', 's', 'e']
    pure (.flag false)
  | some '"' =>
    advance
    .text <$> Text.reader
  | some '[' =>
    advance
    pure .list
  | some '{' =>
    advance
    pure .object
  | some c =>
    if c = '-' ∨ c.isDigit = true then .number <$> Number.reader else fail .expectedValue

/-- The next value, in which lists and objects are nested to the given depth at most. -/
def value : Nat → Reader Value
  | 0 => do
    match ← head with
    | .null => pure .null
    | .flag b => pure (.flag b)
    | .number x => pure (.number x)
    | .text s => pure (.text s)
    | .list | .object => fail .tooDeep
  | depth + 1 => do
    match ← head with
    | .null => pure .null
    | .flag b => pure (.flag b)
    | .number x => pure (.number x)
    | .text s => pure (.text s)
    | .list => .list <$> elements (value depth)
    | .object =>
      let member (key : String) (read : List (String × Value)) : Reader (List (String × Value)) := do
        colon
        let v ← value depth
        pure ((key, v) :: read)
      let read ← members member []
      pure (.object read.reverse)

end Reader

end Linearizability.Json
