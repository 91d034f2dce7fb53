/-! # Characters and names

Classes of characters given by ranges of code points, those from which Turtle and SPARQL build names, and
the grammars of blank node labels and variable names. -/
namespace TripleStore

/-- Whether the code point of a character lies in one of the ranges, ends included. -/
def inRanges (ranges : List (Nat × Nat)) (c : Char) : Bool :=
  ranges.any fun r => r.1 ≤ c.toNat && c.toNat ≤ r.2

/-- The value of a hexadecimal digit. -/
def hexValue? (c : Char) : Option Nat :=
  if '0' ≤ c ∧ c ≤ '9' then some (c.toNat - 48)
  else if 'a' ≤ c ∧ c ≤ 'f' then some (c.toNat - 87)
  else if 'A' ≤ c ∧ c ≤ 'F' then some (c.toNat - 55)
  else none

def isHexDigit (c : Char) : Bool := (hexValue? c).isSome

namespace Name

/-- The letters of names. -/
def isLetter (c : Char) : Bool :=
  c.isAlpha || inRanges [(0xC0, 0xD6), (0xD8, 0xF6), (0xF8, 0x2FF), (0x370, 0x37D), (0x37F, 0x1FFF),
    (0x200C, 0x200D), (0x2070, 0x218F), (0x2C00, 0x2FEF), (0x3001, 0xD7FF), (0xF900, 0xFDCF),
    (0xFDF0, 0xFFFD), (0x10000, 0xEFFFF)] c

/-- A letter or an underscore. -/
def isStart (c : Char) : Bool := isLetter c || c == '_'

/-- Marks that may stand inside a name but not begin it. -/
def isMark (c : Char) : Bool := inRanges [(0xB7, 0xB7), (0x300, 0x36F), (0x203F, 0x2040)] c

/-- The characters inside a name. -/
def isPart (c : Char) : Bool := isStart c || c == '-' || c.isDigit || isMark c

/-- Whether a text is the label of a blank node: it begins with a letter, an underscore, a digit or a
colon, goes on with name characters, colons and dots, and does not end with a dot. -/
def isBlankLabel (s : String) : Bool :=
  match s.toList with
  | [] => false
  | c :: cs =>
    (isStart c || c == ':' || c.isDigit) && cs.all (fun d => isPart d || d == ':' || d == '.') &&
      cs.getLast? != some '.'

/-- Whether a text is the name of a variable: it begins like a blank node label and goes on with
letters, underscores, digits and marks. -/
def isVariableName (s : String) : Bool :=
  match s.toList with
  | [] => false
  | c :: cs =>
    (isStart c || c == ':' || c.isDigit) && cs.all (fun d => isStart d || d.isDigit || isMark d)

end Name
end TripleStore
