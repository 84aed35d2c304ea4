/-! # HTML

A page is a list of tags and texts. Characters of a text that could be taken for a part of a tag
are written as references.
-/

namespace Linearizability

inductive Html where
  /-- A tag, by what stands between its angle brackets. -/
  | tag (content : String)
  | text (content : String)
  deriving DecidableEq

namespace Html

def escapeChar : Char → List Char
  | '&' => ['&', 'a', 'm', 'p', ';']
  | '<' => ['&', 'l', 't', ';']
  | '>' => ['&', 'g', 't', ';']
  | '"' => ['&', 'q', 'u', 'o', 't', ';']
  | '\'' => ['&', '#', '3', '9', ';']
  | c => [c]

def escape (s : String) : String := String.ofList (s.toList.flatMap escapeChar)

def write : Html → String
  | tag content => "<" ++ content ++ ">"
  | text content => escape content

def writeAll (page : List Html) : String := String.join (page.map write)

/-- The contents of an element, between its tags. -/
def element (name : String) (contents : List Html) : List Html :=
  [tag name] ++ contents ++ [tag ("/" ++ name)]

/-- Contents on a line of their own. -/
def line (contents : List Html) : List Html := contents ++ [text "\n"]

/-- A row of a table, from the texts of its cells. -/
def row (opening cell : String) (texts : List String) : List Html :=
  line ([tag opening] ++ (texts.flatMap fun s => element cell [text s]) ++ [tag "/tr"])

end Html

end Linearizability
