import TripleStore.LanguageTag

/-! # Literals

A literal is a lexical value with a language tag, a datatype, or neither. A string without a tag has
one representation: the datatype of strings is never spelled out. -/
namespace TripleStore

/-! ### Vocabulary

The IRIs with a meaning of their own: the types of literals and the terms of RDF lists. -/

namespace Vocabulary

def rdf : String := "http://www.w3.org/1999/02/22-rdf-syntax-ns#"
def xsd : String := "http://www.w3.org/2001/XMLSchema#"

def rdfType : String := rdf ++ "type"
def rdfFirst : String := rdf ++ "first"
def rdfRest : String := rdf ++ "rest"
def rdfNil : String := rdf ++ "nil"
def rdfLangString : String := rdf ++ "langString"

def xsdString : String := xsd ++ "string"
def xsdInteger : String := xsd ++ "integer"
def xsdDecimal : String := xsd ++ "decimal"
def xsdDouble : String := xsd ++ "double"
def xsdBoolean : String := xsd ++ "boolean"

end Vocabulary

/-! ### Quoted text

The written form of a lexical value between double quotes: seven characters have a two-character
escape, the other control characters are written with their code point, everything else stands for
itself. -/

namespace Quoted

/-- The upper-case hexadecimal digit of a number below sixteen. -/
def hexDigit (n : Nat) : Char :=
  if n < 10 then Char.ofNat (48 + n) else Char.ofNat (55 + n)

def escape (c : Char) : List Char :=
  if c = '\x08' then ['\\', 'b']
  else if c = '\t' then ['\\', 't']
  else if c = '\n' then ['\\', 'n']
  else if c = '\x0c' then ['\\', 'f']
  else if c = '\r' then ['\\', 'r']
  else if c = '"' then ['\\', '"']
  else if c = '\\' then ['\\', '\\']
  else if c.toNat < 32 ∨ c.toNat = 127 then
    ['\\', 'u', '0', '0', hexDigit (c.toNat / 16), hexDigit (c.toNat % 16)]
  else [c]

/-- The written form of a text, without the enclosing quotes. -/
def encode (s : String) : String := String.ofList (s.toList.flatMap escape)

@[simp] theorem toList_encode (s : String) : (encode s).toList = s.toList.flatMap escape := by
  simp [encode]

end Quoted

/-! ### Literals and their texts -/

inductive Literal
  | simple (lexical : String)
  | tagged (lexical : String) (tag : LanguageTag)
  | typed (lexical datatype : String) (not_string : datatype ≠ Vocabulary.xsdString)
  deriving DecidableEq

namespace Literal

/-- The literal with a given datatype; the datatype of strings gives a simple literal. -/
def ofDatatype (lexical datatype : String) : Literal :=
  if h : datatype = Vocabulary.xsdString then .simple lexical else .typed lexical datatype h

def lexical : Literal → String
  | simple v | tagged v _ | typed v _ _ => v

def datatype : Literal → String
  | simple _ => Vocabulary.xsdString
  | tagged _ _ => Vocabulary.rdfLangString
  | typed _ d _ => d

def language? : Literal → Option LanguageTag
  | tagged _ t => some t
  | _ => none

/-- What follows the closing quote. -/
def suffix : Literal → String
  | simple _ => ""
  | tagged _ t => "@" ++ t.text
  | typed _ d _ => "^^<" ++ d ++ ">"

def canonical (l : Literal) : String := "\"" ++ Quoted.encode l.lexical ++ "\"" ++ l.suffix

end Literal
end TripleStore
