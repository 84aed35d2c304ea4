import Linearizability.Decimal.Shortest
import Linearizability.Text.Quoted

/-! # Faults of JSON texts

Why a text is not JSON, or not JSON of the wanted kind. A text is read once from left to right, and
the first fault met is the one reported.
-/

namespace Linearizability.Json

/-- What stands in a text where something else is wanted. -/
inductive Found where
  | null
  | flag (value : Bool)
  | integer (value : Int)
  | float (value : Float)
  | text (value : String)
  | list
  | object

def Found.message : Found → String
  | null => "null"
  | flag true => "boolean `true`"
  | flag false => "boolean `false`"
  | integer z => "integer `" ++ Decimal.ofInt z ++ "`"
  | float x => "floating point `" ++ Decimal.FloatFormat.message.text x ++ "`"
  | text s => "string " ++ Text.quote s
  | list => "sequence"
  | object => "map"

/-- The kinds of values that are wanted. -/
inductive Kind where
  | int64
  | uint64
  | uint16
  | text
  | flag
  | path
  | list
  /-- An object with known members. -/
  | struct (name : String)
  /-- An object with one member that tells which further ones it has. -/
  | tagged (name : String)
  /-- The name of an alternative. -/
  | variant
  deriving DecidableEq

def Kind.message : Kind → String
  | int64 => "i64"
  | uint64 => "u64"
  | uint16 => "u16"
  | text => "a string"
  | flag => "a boolean"
  | path => "path string"
  | list => "a sequence"
  | struct name => "struct " ++ name
  | tagged name => "internally tagged enum " ++ name
  | variant => "variant identifier"

/-- The numbers of elements that are wanted of a list. -/
inductive Extent where
  /-- The members of an object, written as a list. -/
  | struct (name : String) (size : Nat)
  | variant (name : String) (size : Nat)
  /-- No more elements than these. -/
  | exactly (size : Nat)
  deriving DecidableEq

def elementCount (size : Nat) : String :=
  Decimal.ofNat size ++ if size = 1 then " element" else " elements"

def Extent.message : Extent → String
  | struct name size => "struct " ++ name ++ " with " ++ elementCount size
  | variant name size => "struct variant " ++ name ++ " with " ++ elementCount size
  | exactly size => elementCount size ++ " in sequence"

inductive Fault where
  | endInValue
  | endInList
  | endInObject
  | endInText
  | expectedValue
  | expectedIdent
  | invalidNumber
  | numberOutOfRange
  | expectedListEnd
  | expectedObjectEnd
  | expectedColon
  | expectedKey
  | trailingComma
  | trailingCharacters
  | controlCharacter
  | invalidEscape
  /-- A low surrogate without a high one before it, or a high one followed by another escape. -/
  | loneSurrogate
  /-- A high surrogate that no escape follows. -/
  | unfinishedSurrogate
  | invalidUtf8
  | tooDeep
  | wrongKind (found : Found) (wanted : Kind)
  | outOfRange (value : Int) (wanted : Kind)
  | wrongLength (length : Nat) (wanted : Extent)
  | missingMember (name : String)
  | duplicateMember (name : String)
  | unknownVariant (name : String) (known : List String)

namespace Fault

inductive Category where
  /-- The text ends too early. -/
  | ending
  /-- The text is not JSON. -/
  | grammar
  /-- The text is JSON, but not of the wanted kind. -/
  | data
  deriving DecidableEq

def category : Fault → Category
  | endInValue | endInList | endInObject | endInText => .ending
  | wrongKind .. | outOfRange .. | wrongLength .. | missingMember .. | duplicateMember ..
  | unknownVariant .. => .data
  | _ => .grammar

def message : Fault → String
  | endInValue => "EOF while parsing a value"
  | endInList => "EOF while parsing a list"
  | endInObject => "EOF while parsing an object"
  | endInText => "EOF while parsing a string"
  | expectedValue => "expected value"
  | expectedIdent => "expected ident"
  | invalidNumber => "invalid number"
  | numberOutOfRange => "number out of range"
  | expectedListEnd => "expected `,` or `]`"
  | expectedObjectEnd => "expected `,` or `\x7d`"
  | expectedColon => "expected `:`"
  | expectedKey => "key must be a string"
  | trailingComma => "trailing comma"
  | trailingCharacters => "trailing characters"
  | controlCharacter =>
    "control character (\\u0000-\\u001F) found while parsing a string"
  | invalidEscape => "invalid escape"
  | loneSurrogate => "lone leading surrogate in hex escape"
  | unfinishedSurrogate => "unexpected end of hex escape"
  | invalidUtf8 => "invalid unicode code point"
  | tooDeep => "recursion limit exceeded"
  | wrongKind found wanted => "invalid type: " ++ found.message ++ ", expected " ++ wanted.message
  | outOfRange z wanted =>
    "invalid value: " ++ (Found.integer z).message ++ ", expected " ++ wanted.message
  | wrongLength n wanted =>
    "invalid length " ++ Decimal.ofNat n ++ ", expected " ++ wanted.message
  | missingMember name => "missing field `" ++ name ++ "`"
  | duplicateMember name => "duplicate field `" ++ name ++ "`"
  | unknownVariant name known =>
    let names := known.map fun name => "`" ++ name ++ "`"
    "unknown variant `" ++ name ++ "`, expected one of " ++ ", ".intercalate names

end Fault

end Linearizability.Json
