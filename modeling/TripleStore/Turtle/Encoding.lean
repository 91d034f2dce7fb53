import TripleStore.Turtle.Lexer

/-! # The text of a document

Documents are encoded in UTF-8. Only comments may hold other bytes; a comment that does is cut off at
the first of them. -/
namespace TripleStore.Turtle

/-- The first place from `i` on where bytes are not UTF-8. -/
def firstMalformed? (bytes : ByteArray) (i : Nat) : Option Nat :=
  if i < bytes.size then
    match bytes.utf8DecodeChar? i with
    | some c => firstMalformed? bytes (i + c.utf8Size)
    | none => some i
  else none
termination_by bytes.size - i
decreasing_by
  have := c.utf8Size_pos
  omega

/-- The first place from `i` on where a line ends, which is at the latest the end of the bytes. -/
def lineEnd (bytes : ByteArray) (i : Nat) : Nat :=
  if h : i < bytes.size then
    if bytes[i] = 10 ∨ bytes[i] = 13 then i else lineEnd bytes (i + 1)
  else i
termination_by bytes.size - i

theorem le_lineEnd (bytes : ByteArray) (i : Nat) : i ≤ lineEnd bytes i := by
  fun_induction lineEnd bytes i with
  | case1 => exact Nat.le_refl _
  | case2 i _ _ ih => exact Nat.le_of_succ_le ih
  | case3 => exact Nat.le_refl _

/-- Whether a text breaks off inside a comment. Only there the beginning of an IRI reference can stand
at the end of a document. -/
def breaksInComment (text : String) : Bool := (tokens? .narrow (text ++ "<")).isSome

def cutLine (bytes : ByteArray) (i : Nat) : ByteArray :=
  bytes.extract 0 i ++ bytes.extract (lineEnd bytes (i + 1)) bytes.size

theorem size_cutLine {bytes : ByteArray} {i : Nat} (h : i < bytes.size) :
    (cutLine bytes i).size < bytes.size := by
  have := le_lineEnd bytes (i + 1)
  simp only [cutLine, ByteArray.size_append, ByteArray.size_extract]
  omega

/-- The text of a document; nothing if it has malformed bytes outside of comments. -/
def text? (bytes : ByteArray) : Option String :=
  (String.fromUTF8? bytes).or <|
    match firstMalformed? bytes 0 with
    | none => none
    | some i =>
      if _h : i < bytes.size then
        (String.fromUTF8? (bytes.extract 0 i)).bind fun front =>
          if breaksInComment front then text? (cutLine bytes i) else none
      else none
termination_by bytes.size
decreasing_by exact size_cutLine _h

/-- The text that has been encoded is read. -/
theorem text?_toUTF8 (s : String) : text? s.toUTF8 = some s := by
  have h : String.fromUTF8? s.toUTF8 = some s := by
    unfold String.fromUTF8?
    rw [String.toUTF8_eq_toByteArray, dif_pos s.isValidUTF8]
    rfl
  rw [text?, h, Option.some_or]

end TripleStore.Turtle
