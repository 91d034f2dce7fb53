import TripleStore.LanguageTag
import TripleStore.Name
import TripleStore.Turtle.Token

/-! # Reading tokens

A document is cut into tokens from left to right. A token is as long as possible, but a dot is left to
what follows where no character of the token stands behind it. At the end of the document this differs:
a dot there belongs to a narrow label, and a local name that is written with backslashes is cut;
`scanLabelChars` and `scanLocal` state how. Every scanner returns what it has read and the characters
behind it, or nothing if the document is malformed there. -/
namespace TripleStore.Turtle

/-- How labels of blank nodes and language tags are read. -/
inductive Lexicon
  /-- As the grammar of Turtle has them. -/
  | standard
  /-- Labels without two dots in a row, and well-formed tags without digits, which are put into lower
  case. -/
  | narrow
  deriving DecidableEq

/-- The language tag that a text behind an at sign denotes. -/
def Lexicon.tag? : Lexicon → String → Option LanguageTag
  | .standard, text => some ⟨text⟩
  | .narrow, text => LanguageTag.parse? text

/-- The number that hexadecimal digits denote. -/
def hexNumber? : List Char → Option Nat
  | [] => some 0
  | cs => cs.foldl (fun n c => n.bind fun n => (hexValue? c).map (16 * n + ·)) (some 0)

/-- The character with a code point; surrogates and larger numbers have none. -/
def charOfCode? (n : Nat) : Option Char := if n.isValidChar then some (Char.ofNat n) else none

def scanCode (digits : Nat) (cs : List Char) : Option (Char × List Char) :=
  if digits ≤ cs.length then
    ((hexNumber? (cs.take digits)).bind charOfCode?).map fun c => (c, cs.drop digits)
  else none

def scanEscape : List Char → Option (Char × List Char)
  | 'u' :: cs => scanCode 4 cs
  | 'U' :: cs => scanCode 8 cs
  | 't' :: cs => some ('\t', cs)
  | 'b' :: cs => some ('\x08', cs)
  | 'n' :: cs => some ('\n', cs)
  | 'r' :: cs => some ('\r', cs)
  | 'f' :: cs => some ('\x0c', cs)
  | '"' :: cs => some ('"', cs)
  | '\'' :: cs => some ('\'', cs)
  | '\\' :: cs => some ('\\', cs)
  | _ => none

/-- Reads what follows a backslash in an IRI reference, where only numeric escapes are allowed. -/
def scanIriEscape : List Char → Option (Char × List Char)
  | 'u' :: cs => scanCode 4 cs
  | 'U' :: cs => scanCode 8 cs
  | _ => none

theorem length_scanCode {digits : Nat} {cs rest : List Char} {c : Char}
    (h : scanCode digits cs = some (c, rest)) : rest.length ≤ cs.length := by
  unfold scanCode at h
  split at h
  · obtain ⟨_, -, e⟩ := Option.map_eq_some_iff.mp h
    simp only [Prod.mk.injEq] at e
    rw [← e.2, List.length_drop]
    omega
  · simp at h

theorem length_scanEscape {cs rest : List Char} {c : Char} (h : scanEscape cs = some (c, rest)) :
    rest.length ≤ cs.length := by
  unfold scanEscape at h
  split at h
  case h_1 => exact Nat.le_succ_of_le (length_scanCode h)
  case h_2 => exact Nat.le_succ_of_le (length_scanCode h)
  case h_11 => simp at h
  all_goals
    simp only [Option.some.injEq, Prod.mk.injEq] at h
    simp [← h.2]

theorem length_scanIriEscape {cs rest : List Char} {c : Char}
    (h : scanIriEscape cs = some (c, rest)) : rest.length ≤ cs.length := by
  unfold scanIriEscape at h
  split at h
  · exact Nat.le_succ_of_le (length_scanCode h)
  · exact Nat.le_succ_of_le (length_scanCode h)
  · simp at h

/-- Reads an IRI reference behind its opening bracket. -/
def scanIri : List Char → Option (List Char × List Char)
  | [] => none
  | c :: cs =>
    if c = '>' then some ([], cs)
    else if c = '\\' then
      match _h : scanIriEscape cs with
      | none => none
      | some (d, rest) => (scanIri rest).map fun r => (d :: r.1, r.2)
    else (scanIri cs).map fun r => (c :: r.1, r.2)
termination_by cs => cs.length
decreasing_by
  · have := length_scanIriEscape (by assumption)
    simp only [List.length_cons]
    omega
  · simp

/-- Reads a string on one line behind its opening quote. -/
def scanShort (quote : Char) : List Char → Option (List Char × List Char)
  | [] => none
  | c :: cs =>
    if c = quote then some ([], cs)
    else if c = '\\' then
      match _h : scanEscape cs with
      | none => none
      | some (d, rest) => (scanShort quote rest).map fun r => (d :: r.1, r.2)
    else if c = '\n' ∨ c = '\r' then none
    else (scanShort quote cs).map fun r => (c :: r.1, r.2)
termination_by cs => cs.length
decreasing_by
  · have := length_scanEscape (by assumption)
    simp only [List.length_cons]
    omega
  · simp

/-- Reads a string behind its three opening quotes, up to the next three quotes. -/
def scanLong (quote : Char) : List Char → Option (List Char × List Char)
  | [] => none
  | c :: cs =>
    if c = quote ∧ cs.take 2 = [quote, quote] then some ([], cs.drop 2)
    else if c = '\\' then
      match _h : scanEscape cs with
      | none => none
      | some (d, rest) => (scanLong quote rest).map fun r => (d :: r.1, r.2)
    else (scanLong quote cs).map fun r => (c :: r.1, r.2)
termination_by cs => cs.length
decreasing_by
  · have := length_scanEscape (by assumption)
    simp only [List.length_cons]
    omega
  · simp

/-- Reads a string behind its first quote; two more quotes open a long string. -/
def scanString (quote : Char) (cs : List Char) : Option (List Char × List Char) :=
  if cs.take 2 = [quote, quote] then scanLong quote (cs.drop 2) else scanShort quote cs

/-- Removes the elements at the end of a list that satisfy `p`. -/
def trimEnd {α : Type} (p : α → Bool) (l : List α) : List α := (l.reverse.dropWhile p).reverse

/-- Reads a run of characters that may contain dots but does not end with one. -/
def scanDotted (p : Char → Bool) (cs : List Char) : List Char × List Char :=
  let kept := trimEnd (· == '.') (cs.takeWhile fun c => p c || c == '.')
  (kept, cs.drop kept.length)

/-- Reads the characters of a narrow label behind its first one. A dot belongs to the label if a name
character stands behind it, and at the end of the document. -/
def scanLabelChars : List Char → List Char × List Char
  | [] => ([], [])
  | ['.'] => (['.'], [])
  | '.' :: c :: cs =>
    if Name.isPart c then
      let r := scanLabelChars (c :: cs)
      ('.' :: r.1, r.2)
    else ([], '.' :: c :: cs)
  | c :: cs =>
    if Name.isPart c then
      let r := scanLabelChars cs
      (c :: r.1, r.2)
    else ([], c :: cs)

def scanLabel (lx : Lexicon) : List Char → Option (List Char × List Char)
  | [] => none
  | c :: cs =>
    if Name.isStart c || c.isDigit then
      let r := match lx with
        | .standard => scanDotted Name.isPart cs
        | .narrow => scanLabelChars cs
      some (c :: r.1, r.2)
    else none

/-- Whether a character may stand in a language tag, `inner` behind a hyphen: a letter, or a digit if the
lexicon has them. -/
def isTagChar (lx : Lexicon) (inner : Bool) (c : Char) : Bool :=
  c.isAlpha || lx = .standard && inner && c.isDigit

/-- Reads the characters of a language tag behind its first one. A hyphen belongs to the tag if a
character of the tag stands behind it. -/
def scanTagChars (lx : Lexicon) (inner : Bool) : List Char → List Char × List Char
  | [] => ([], [])
  | '-' :: c :: cs =>
    if isTagChar lx true c then
      let r := scanTagChars lx true (c :: cs)
      ('-' :: r.1, r.2)
    else ([], '-' :: c :: cs)
  | c :: cs =>
    if isTagChar lx inner c then
      let r := scanTagChars lx inner cs
      (c :: r.1, r.2)
    else ([], c :: cs)

/-- Reads a language tag or the keyword of a directive behind an at sign. -/
def scanTag (lx : Lexicon) : List Char → Option (List Char × List Char)
  | [] => none
  | c :: cs =>
    if c.isAlpha then some (c :: (scanTagChars lx false cs).1, (scanTagChars lx false cs).2) else none

/-- The characters that may follow a backslash in a local name. -/
def isLocalEscape (c : Char) : Bool := "_~.-!$&'()*+,;=/?#@%".toList.contains c

/-- Whether a character may stand in a local name; at its beginning, hyphens, marks and dots may
not. -/
def isLocalChar (first : Bool) (c : Char) : Bool :=
  if first then Name.isStart c || c.isDigit || c == ':' else Name.isPart c || c == ':' || c == '.'

/-- A character of a local name, and whether it is written with a backslash. -/
structure LocalChar where
  char : Char
  escaped : Bool := false
  deriving DecidableEq

namespace LocalChar

/-- A dot without a backslash does not belong to the name at its end. -/
def isBareDot (c : LocalChar) : Bool := c.char == '.' && !c.escaped

/-- Whether the IRI of a name with this character has to be checked: for a colon, for the delimiters that
can be written with a backslash, and for letters at the end of the first plane and with a code point
that is a multiple of `FFFE` or `FFFF`. -/
def isCritical (c : LocalChar) : Bool :=
  if c.escaped then "/?#@%".toList.contains c.char
  else c.char == ':' || inRanges [(0xFFF0, 0xFFFD)] c.char || c.char.toNat % 0xFFFE == 0 ||
    c.char.toNat % 0xFFFF == 0

end LocalChar

/-- Reads the characters of a local name with the dots at its end. -/
def scanLocalChars (first : Bool) : List Char → Option (List LocalChar × List Char)
  | [] => some ([], [])
  | '%' :: a :: b :: cs =>
    if isHexDigit a && isHexDigit b then
      (scanLocalChars false cs).map fun r => (⟨'%', false⟩ :: ⟨a, false⟩ :: ⟨b, false⟩ :: r.1, r.2)
    else none
  | '\\' :: c :: cs =>
    if isLocalEscape c then (scanLocalChars false cs).map fun r => (⟨c, true⟩ :: r.1, r.2) else none
  | c :: cs =>
    if c = '%' ∨ c = '\\' then none
    else if isLocalChar first c then
      (scanLocalChars false cs).map fun r => (⟨c, false⟩ :: r.1, r.2)
    else some ([], c :: cs)

/-- How many bytes a text takes up. -/
def byteSize (cs : List Char) : Nat := cs.foldl (fun n c => n + c.utf8Size) 0

/-- The end of a text that takes up `n` bytes; nothing if it would begin inside a character. -/
def endOfSize? (n : Nat) : List Char → Option (List Char)
  | [] => if n = 0 then some [] else none
  | c :: cs => if byteSize (c :: cs) = n then some (c :: cs) else endOfSize? n cs

/-- Reads a local name, which may be empty, and whether its IRI has to be checked. Dots at its end are
not part of it and stand behind it again. A name with a backslash that reaches the end of the
document is cut behind the last character that is written with one; then all dots at its end go, and
as many of the document's last bytes stand behind it again. -/
def scanLocal (cs : List Char) : Option (List Char × Bool × List Char) :=
  (scanLocalChars true cs).bind fun r =>
    let critical := r.1.any LocalChar.isCritical
    if r.2.isEmpty && r.1.any LocalChar.escaped then
      let cut := trimEnd (fun c => !c.escaped) r.1
      let kept := trimEnd (fun c => c.char == '.') cut
      (endOfSize? (cut.length - kept.length) cs).map fun rest =>
        (kept.map LocalChar.char, critical, rest)
    else
      let kept := trimEnd LocalChar.isBareDot r.1
      let dots := r.1.drop kept.length
      some (kept.map LocalChar.char, critical, dots.map LocalChar.char ++ r.2)

def nameToken (space : List Char) (l : List Char × Bool × List Char) : Token × List Char :=
  (.name (String.ofList space) (String.ofList l.1) l.2.1, l.2.2)

def scanName : List Char → Option (Token × List Char)
  | [] => none
  | ':' :: cs => (scanLocal cs).map (nameToken [])
  | c :: cs =>
    if Name.isLetter c then
      let run := c :: cs.takeWhile fun d => Name.isPart d || d == '.'
      match cs.dropWhile fun d => Name.isPart d || d == '.' with
      | ':' :: rest =>
        if run.getLast? = some '.' then none
        else (scanLocal rest).map (nameToken run)
      | _ =>
        let r := scanDotted Name.isPart cs
        some (.word (String.ofList (c :: r.1)), r.2)
    else none

/-- Reads the digits of an exponent, with an optional sign. -/
def scanExponent (cs : List Char) : Option (List Char × List Char) :=
  let (sign, cs) := match cs with
    | '+' :: r => (['+'], r)
    | '-' :: r => (['-'], r)
    | r => ([], r)
  let (digits, rest) := cs.span Char.isDigit
  if digits.isEmpty then none else some (sign ++ digits, rest)

/-- Reads a number. A dot belongs to it only before a digit or, behind a digit, before an exponent. -/
def scanNumber (cs : List Char) : Option (Token × List Char) :=
  let (sign, unsigned) := match cs with
    | '+' :: r => (['+'], r)
    | '-' :: r => (['-'], r)
    | r => ([], r)
  let (whole, behind) := unsigned.span Char.isDigit
  let (point, fraction, rest) := match behind with
    | '.' :: r => (true, r.span Char.isDigit)
    | r => (false, [], r)
  let mantissa := sign ++ whole ++ (if point then '.' :: fraction else [])
  let exponentMark := match rest with
    | 'e' :: r => some ('e', r)
    | 'E' :: r => some ('E', r)
    | _ => none
  match exponentMark with
  | some (mark, r) =>
    if whole.isEmpty && fraction.isEmpty then none
    else (scanExponent r).map fun x =>
      (.number .double (String.ofList (mantissa ++ mark :: x.1)), x.2)
  | none =>
    if point && !fraction.isEmpty then some (.number .decimal (String.ofList mantissa), rest)
    else if whole.isEmpty then none
    else some (.number .integer (String.ofList (sign ++ whole)), behind)

/-- Reads one token at the beginning of a text that does not begin with blanks or a comment. -/
def scanToken (lx : Lexicon) : List Char → Option (Token × List Char)
  | [] => none
  | '<' :: cs => (scanIri cs).map fun r => (.iri (String.ofList r.1), r.2)
  | '"' :: cs => (scanString '"' cs).map fun r => (.string (String.ofList r.1), r.2)
  | '\'' :: cs => (scanString '\'' cs).map fun r => (.string (String.ofList r.1), r.2)
  | '@' :: cs => (scanTag lx cs).map fun r => (.tag (String.ofList r.1), r.2)
  | '_' :: ':' :: cs => (scanLabel lx cs).map fun r => (.blank (String.ofList r.1), r.2)
  | '^' :: '^' :: cs => some (.symbol .datatype, cs)
  | ';' :: cs => some (.symbol .semicolon, cs)
  | ',' :: cs => some (.symbol .comma, cs)
  | '[' :: cs => some (.symbol .openBracket, cs)
  | ']' :: cs => some (.symbol .closeBracket, cs)
  | '(' :: cs => some (.symbol .openList, cs)
  | ')' :: cs => some (.symbol .closeList, cs)
  | '.' :: cs =>
    if (cs.head?.map Char.isDigit).getD false then scanNumber ('.' :: cs)
    else some (.symbol .dot, cs)
  | c :: cs => if c.isDigit || c == '+' || c == '-' then scanNumber (c :: cs) else scanName (c :: cs)

/-- Skips blanks and comments; a comment ends with its line. -/
def skipBlanks : List Char → List Char
  | [] => []
  | c :: cs =>
    if c = ' ' ∨ c = '\t' ∨ c = '\n' ∨ c = '\r' then skipBlanks cs
    else if c = '#' then skipBlanks (cs.dropWhile fun d => d != '\n' && d != '\r')
    else c :: cs
termination_by cs => cs.length
decreasing_by
  · simp
  · have := (List.dropWhile_sublist (fun d => d != '\n' && d != '\r') (l := cs)).length_le
    simp only [List.length_cons]
    omega

/-- The tokens of a text. Every token takes up at least one character, so a text has no more tokens
than `fuel`, if that is its length. -/
def scanTokens (lx : Lexicon) : Nat → List Char → Option (List Token)
  | fuel, cs =>
    match skipBlanks cs, fuel with
    | [], _ => some []
    | _ :: _, 0 => none
    | c :: rest, fuel + 1 =>
      match scanToken lx (c :: rest) with
      | none => none
      | some (t, rest) => (scanTokens lx fuel rest).map (t :: ·)

def tokens? (lx : Lexicon) (document : String) : Option (List Token) :=
  scanTokens lx document.toList.length document.toList

end TripleStore.Turtle
