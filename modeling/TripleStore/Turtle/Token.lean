/-! # Tokens

The words of Turtle documents. Escapes are resolved; IRI references are not yet resolved against a
base, and prefixed names not against a prefix table. -/
namespace TripleStore.Turtle

inductive Symbol
  | dot
  | semicolon
  | comma
  | openBracket
  | closeBracket
  | openList
  | closeList
  /-- The two carets before a datatype. -/
  | datatype
  deriving DecidableEq

inductive NumberForm
  | integer
  | decimal
  | double
  deriving DecidableEq

inductive Token
  | iri (reference : String)
  /-- A prefixed name; `critical` tells whether its IRI has to be checked for its characters. -/
  | name (space localName : String) (critical : Bool)
  | blank (label : String)
  | string (value : String)
  /-- What follows an at sign: a language tag or the keyword of a directive. -/
  | tag (text : String)
  | number (form : NumberForm) (text : String)
  | word (text : String)
  | symbol (s : Symbol)
  deriving DecidableEq

end TripleStore.Turtle
