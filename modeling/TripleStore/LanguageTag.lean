import TripleStore.Text.Split

/-! # Language tags

A language tag is a text. A well-formed tag in lower case is one of the registered irregular tags, a
private-use tag, or a language followed by optional subtags in a fixed order. -/
namespace TripleStore

namespace LanguageTag

/-- The registered tags outside the general form. -/
def irregular : List String :=
  ["art-lojban", "cel-gaulish", "en-gb-oed", "i-ami", "i-bnn", "i-default", "i-enochian", "i-hak",
   "i-klingon", "i-lux", "i-mingo", "i-navajo", "i-pwn", "i-tao", "i-tay", "i-tsu", "no-bok",
   "no-nyn", "sgn-be-fr", "sgn-be-nl", "sgn-ch-de", "zh-guoyu", "zh-hakka", "zh-min", "zh-min-nan",
   "zh-xiang"]

/-- A subtag is a run of characters between hyphens. -/
abbrev Subtag := List Char

def Subtag.isAlphanumeric (t : Subtag) : Bool :=
  1 ≤ t.length && t.length ≤ 8 && t.all Char.isAlphanum

def Subtag.isAlphabetic (t : Subtag) : Bool := t.all Char.isAlpha

/-- A variant has five to eight characters, or four to eight when it begins with a digit. -/
def Subtag.isVariant (t : Subtag) : Bool :=
  t.isAlphanumeric && match t with
    | [] => false
    | c :: _ => if c.isDigit then 4 ≤ t.length else 5 ≤ t.length

/-- After `x`: at least one subtag. -/
def isPrivateUse (ts : List Subtag) : Bool := !ts.isEmpty && ts.all Subtag.isAlphanumeric

/-- Extensions and a private-use part. `pending` tells that an extension has just been opened and
needs a subtag. -/
def isExtensions (pending : Bool) : List Subtag → Bool
  | [] => !pending
  | t :: ts =>
    if t = ['x'] then !pending && isPrivateUse ts
    else if t.length = 1 then !pending && t.isAlphanumeric && isExtensions true ts
    else t.isAlphanumeric && isExtensions false ts

/-- Any number of variants, then extensions, the first of which has to be opened. -/
def isVariants : List Subtag → Bool
  | [] => true
  | t :: ts => if t.length = 1 then isExtensions false (t :: ts) else t.isVariant && isVariants ts

/-- An optional region of two letters or three digits. -/
def isRegion : List Subtag → Bool
  | [] => true
  | t :: ts =>
    if t.length = 2 && t.isAlphabetic || t.length = 3 && t.all Char.isDigit then isVariants ts
    else isVariants (t :: ts)

/-- An optional script of four letters. -/
def isScript : List Subtag → Bool
  | [] => true
  | t :: ts => if t.length = 4 && t.isAlphabetic then isRegion ts else isRegion (t :: ts)

/-- Up to `n` extended languages of three letters. -/
def isExtended : Nat → List Subtag → Bool
  | n + 1, t :: ts =>
    if t.length = 3 && t.isAlphabetic then isExtended n ts else isScript (t :: ts)
  | _, ts => isScript ts

/-- A language of two to eight letters and what may follow it; only short languages have extended
ones. -/
def isLanguage : List Subtag → Bool
  | [] => false
  | t :: ts =>
    2 ≤ t.length && t.length ≤ 8 && t.isAlphabetic && isExtended (if t.length ≤ 3 then 3 else 0) ts

/-- Whether a text is a well-formed tag in lower case. -/
def isWellFormed (s : String) : Bool :=
  s.toLower == s && (irregular.contains s ||
    match splitAt '-' s.toList with
    | ['x'] :: ts => isPrivateUse ts
    | ts => isLanguage ts)

end LanguageTag

/-- A language tag, which need not be well formed. -/
structure LanguageTag where
  text : String
  deriving DecidableEq

/-- Reads a well-formed tag in any mixture of cases. -/
def LanguageTag.parse? (s : String) : Option LanguageTag :=
  if isWellFormed s.toLower then some ⟨s.toLower⟩ else none

end TripleStore
