import Mathlib.Data.List.TakeWhile
import TripleStore.Literal
import TripleStore.Turtle.Lexer
import TripleStore.Turtle.PrefixTable
import TripleStore.Proofs.Iri.Characters

/-! # Scanning words

Each scanner reads a word as it is written, up to what stands behind it. Behind labels, tags and names
that is a blank or a comma, where none of them goes on. -/
namespace TripleStore.Turtle

theorem ne_of_class {p : Char → Bool} {c d : Char} (hc : p c = true) (hd : p d = false) : c ≠ d := by
  intro e
  rw [e, hd] at hc
  exact absurd hc Bool.false_ne_true

/-- Whether characters may stand behind the first one of a narrow label: no two dots in a row, and none
at the end. -/
def isNarrow : List Char → Bool
  | [] => true
  | '.' :: c :: cs => Name.isPart c && isNarrow (c :: cs)
  | c :: cs => Name.isPart c && isNarrow cs

/-- Whether characters may stand behind the first one of a language tag: hyphens only before others. -/
def isTagTail (lx : Lexicon) (inner : Bool) : List Char → Bool
  | [] => true
  | '-' :: c :: cs => isTagChar lx true c && isTagTail lx true (c :: cs)
  | c :: cs => isTagChar lx inner c && isTagTail lx inner cs

namespace Lexicon

def isLabel (lx : Lexicon) (s : String) : Bool :=
  match s.toList with
  | [] => false
  | c :: cs => (Name.isStart c || c.isDigit) && match lx with
    | .standard => cs.all (fun d => Name.isPart d || d == '.') && cs.getLast? != some '.'
    | .narrow => isNarrow cs

def isTag (lx : Lexicon) (s : String) : Bool :=
  match s.toList with
  | [] => false
  | c :: cs => c.isAlpha && isTagTail lx false cs

end Lexicon

/-- A text that begins with a blank or a comma. -/
def IsParted (rest : List Char) : Prop := ∃ c cs, rest = c :: cs ∧ (c = ' ' ∨ c = ',')

theorem isParted_blank (cs : List Char) : IsParted (' ' :: cs) := ⟨' ', cs, rfl, .inl rfl⟩

theorem isParted_comma (cs : List Char) : IsParted (',' :: cs) := ⟨',', cs, rfl, .inr rfl⟩

theorem IsParted.takeWhile {rest : List Char} (h : IsParted rest) {p : Char → Bool}
    (hp : p ' ' = false ∧ p ',' = false) (cs : List Char) (hcs : cs.all p = true) :
    (cs ++ rest).takeWhile p = cs ∧ (cs ++ rest).dropWhile p = rest := by
  obtain ⟨c, tail, rfl, hc⟩ := h
  have : p c = false := by rcases hc with rfl | rfl <;> simp [hp]
  have all : ∀ d ∈ cs, p d = true := by simpa using hcs
  rw [List.takeWhile_append_of_pos all, List.dropWhile_append_of_pos all]
  simp [this]

theorem scanIri_append {v : List Char} (h : ∀ c ∈ v, Iri.IsInner c) (rest : List Char) :
    scanIri (v ++ '>' :: rest) = some (v, rest) := by
  induction v with
  | nil => simp [scanIri]
  | cons c v ih =>
    obtain ⟨hc, hv⟩ := List.forall_mem_cons.mp h
    rw [List.cons_append, scanIri, if_neg hc.1, if_neg hc.2, ih hv]
    rfl

theorem hexValue?_hexDigit : ∀ n < 16, hexValue? (Quoted.hexDigit n) = some n := by decide

theorem scanEscape_control {c : Char} (h : c.toNat < 32 ∨ c.toNat = 127) (cs : List Char) :
    scanEscape ('u' :: '0' :: '0' :: Quoted.hexDigit (c.toNat / 16) ::
      Quoted.hexDigit (c.toNat % 16) :: cs) = some (c, cs) := by
  have high := hexValue?_hexDigit (c.toNat / 16) (by omega)
  have low := hexValue?_hexDigit (c.toNat % 16) (by omega)
  have zero : hexValue? '0' = some 0 := by decide
  have number : 16 * (c.toNat / 16) + c.toNat % 16 = c.toNat := Nat.div_add_mod _ _
  have code : charOfCode? c.toNat = some c := by
    rw [charOfCode?, if_pos (show c.toNat.isValidChar from c.valid), Char.ofNat_toNat]
  simp [scanEscape, scanCode, hexNumber?, zero, high, low, number, code]

theorem escape_cases (c : Char) :
    (∃ cs, Quoted.escape c = '\\' :: cs ∧ ∀ rest, scanEscape (cs ++ rest) = some (c, rest)) ∨
      Quoted.escape c = [c] ∧ c ≠ '"' ∧ c ≠ '\\' ∧ c ≠ '\n' ∧ c ≠ '\r' := by
  unfold Quoted.escape
  split
  next h => subst h; exact .inl ⟨_, rfl, fun _ => rfl⟩
  split
  next h => subst h; exact .inl ⟨_, rfl, fun _ => rfl⟩
  split
  next h => subst h; exact .inl ⟨_, rfl, fun _ => rfl⟩
  split
  next h => subst h; exact .inl ⟨_, rfl, fun _ => rfl⟩
  split
  next h => subst h; exact .inl ⟨_, rfl, fun _ => rfl⟩
  split
  next h => subst h; exact .inl ⟨_, rfl, fun _ => rfl⟩
  split
  next h => subst h; exact .inl ⟨_, rfl, fun _ => rfl⟩
  split
  next h => exact .inl ⟨_, rfl, scanEscape_control h⟩
  next => exact .inr ⟨rfl, by assumption, by assumption, by assumption, by assumption⟩

theorem scanShort_escape (c : Char) (rest : List Char) :
    scanShort '"' (Quoted.escape c ++ rest) = (scanShort '"' rest).map fun r => (c :: r.1, r.2) := by
  rcases escape_cases c with ⟨cs, e, h⟩ | ⟨e, hq, hb, hn, hr⟩
  · rw [e, List.cons_append, scanShort, if_neg (by decide), if_pos rfl]
    split
    next none => simp [h] at none
    next d rest' some =>
      obtain ⟨rfl, rfl⟩ : c = d ∧ rest = rest' := by simpa [h] using some
      rfl
  · rw [e, List.singleton_append, scanShort, if_neg hq, if_neg hb, if_neg (by simp [hn, hr])]

theorem scanShort_encode (v rest : List Char) :
    scanShort '"' (v.flatMap Quoted.escape ++ '"' :: rest) = some (v, rest) := by
  induction v with
  | nil => simp [scanShort]
  | cons c v ih =>
    rw [List.flatMap_cons, List.append_assoc, scanShort_escape, ih]
    rfl

/-- A quoted text is no long string: there are two quotes at its beginning only if it is empty, and then
no third one. -/
theorem scanString_encode (v : List Char) {rest : List Char} (h : rest.head? ≠ some '"') :
    scanString '"' (v.flatMap Quoted.escape ++ '"' :: rest) = some (v, rest) := by
  have short : (v.flatMap Quoted.escape ++ '"' :: rest).take 2 ≠ ['"', '"'] := by
    cases v with
    | nil =>
      cases rest with
      | nil => simp
      | cons c rest => simpa using h
    | cons c v =>
      rcases escape_cases c with ⟨cs, e, -⟩ | ⟨e, hq, -⟩
      · simp [e]
      · simp [e, hq]
  rw [scanString, if_neg short, scanShort_encode]

theorem trimEnd_of_getLast? {α : Type} {p : α → Bool} {l : List α} (h : ∀ a ∈ l.getLast?, p a = false) :
    trimEnd p l = l := by
  rw [trimEnd]
  cases e : l.reverse with
  | nil => simp [List.reverse_eq_nil_iff.mp e]
  | cons a as =>
    have : p a = false := h a (by rw [← List.head?_reverse, e]; rfl)
    rw [List.dropWhile_cons_of_neg (by simp [this]), ← e, List.reverse_reverse]

theorem scanDotted_append {p : Char → Bool} (hp : p ' ' = false ∧ p ',' = false) (cs : List Char)
    (hcs : cs.all (fun d => p d || d == '.') = true) (hl : cs.getLast? ≠ some '.') {rest : List Char}
    (hr : IsParted rest) : scanDotted p (cs ++ rest) = (cs, rest) := by
  have run := (hr.takeWhile (p := fun d => p d || d == '.') (by simp [hp]) cs hcs).1
  have last : ∀ c ∈ cs.getLast?, (c == '.') = false := by
    intro c hc
    rw [beq_eq_false_iff_ne]
    rintro rfl
    exact hl hc
  rw [scanDotted, run, trimEnd_of_getLast? last, List.drop_left]

theorem scanLabelChars_append {cs : List Char} (h : isNarrow cs = true) {rest : List Char}
    (hr : IsParted rest) : scanLabelChars (cs ++ rest) = (cs, rest) := by
  fun_induction isNarrow cs with
  | case1 =>
    obtain ⟨c, tail, rfl, rfl | rfl⟩ := hr
    · simp [scanLabelChars, show Name.isPart ' ' = false by decide]
    · simp [scanLabelChars, show Name.isPart ',' = false by decide]
  | case2 c cs ih =>
    simp only [Bool.and_eq_true] at h
    have := ih h.2
    rw [List.cons_append] at this
    rw [List.cons_append, List.cons_append, scanLabelChars, if_pos h.1, this]
  | case3 c cs hdot ih =>
    simp only [Bool.and_eq_true] at h
    have part : c ≠ '.' := ne_of_class h.1 (by decide)
    rw [List.cons_append, scanLabelChars, if_pos h.1, ih h.2]
    · simp [part]
    · simp [part]

theorem scanLabel_append {lx : Lexicon} {s : String} (h : lx.isLabel s = true) {rest : List Char}
    (hr : IsParted rest) : scanLabel lx (s.toList ++ rest) = some (s.toList, rest) := by
  unfold Lexicon.isLabel at h
  split at h
  · simp at h
  next c cs e =>
    rw [Bool.and_eq_true] at h
    unfold scanLabel
    rw [e, List.cons_append]
    dsimp only
    rw [if_pos h.1]
    cases lx with
    | standard =>
      have run := h.2
      rw [Bool.and_eq_true] at run
      rw [scanDotted_append (by decide) cs run.1 (by simpa using run.2) hr]
    | narrow => rw [scanLabelChars_append h.2 hr]

theorem scanTagChars_append {lx : Lexicon} {inner : Bool} {cs : List Char}
    (h : isTagTail lx inner cs = true) {rest : List Char} (hr : IsParted rest) :
    scanTagChars lx inner (cs ++ rest) = (cs, rest) := by
  fun_induction isTagTail lx inner cs with
  | case1 inner =>
    obtain ⟨c, tail, rfl, rfl | rfl⟩ := hr
    · simp [scanTagChars, isTagChar, show ' '.isAlpha = false by decide, show ' '.isDigit = false by decide]
    · simp [scanTagChars, isTagChar, show ','.isAlpha = false by decide, show ','.isDigit = false by decide]
  | case2 inner c cs ih =>
    simp only [Bool.and_eq_true] at h
    have := ih h.2
    rw [List.cons_append] at this
    rw [List.cons_append, List.cons_append, scanTagChars, if_pos h.1, this]
  | case3 inner c cs hdash ih =>
    simp only [Bool.and_eq_true] at h
    have char : c ≠ '-' := by
      rintro rfl
      revert h
      simp [isTagChar, show '-'.isAlpha = false by decide, show '-'.isDigit = false by decide]
    rw [List.cons_append, scanTagChars, if_pos h.1, ih h.2]
    simp [char]

theorem scanTag_append {lx : Lexicon} {s : String} (h : lx.isTag s = true) {rest : List Char}
    (hr : IsParted rest) : scanTag lx (s.toList ++ rest) = some (s.toList, rest) := by
  unfold Lexicon.isTag at h
  split at h
  · simp at h
  next c cs e =>
    rw [Bool.and_eq_true] at h
    rw [e, List.cons_append, scanTag, if_pos h.1, scanTagChars_append h.2 hr]

/-! ### Prefixed names -/

theorem isAlpha_iff {c : Char} : c.isAlpha = true ↔
    65 ≤ c.toNat ∧ c.toNat ≤ 90 ∨ 97 ≤ c.toNat ∧ c.toNat ≤ 122 := by
  have spelled : c.isAlpha = (decide (65 ≤ c.toNat ∧ c.toNat ≤ 90) ||
    (decide (97 ≤ c.toNat) && decide (c.toNat ≤ 122))) := rfl
  simp [spelled]

theorem isDigit_iff {c : Char} : c.isDigit = true ↔ 48 ≤ c.toNat ∧ c.toNat ≤ 57 := by
  have spelled : c.isDigit = (decide (48 ≤ c.toNat) && decide (c.toNat ≤ 57)) := rfl
  simp [spelled]

theorem bounds_of_isPlainChar {c : Char} (h : isPlainChar c = true) : 0 < c.toNat ∧ c.toNat < 128 := by
  simp only [isPlainChar, Char.isAlphanum, Bool.or_eq_true, beq_iff_eq, isAlpha_iff, isDigit_iff] at h
  rcases h with ((h | h) | rfl) | rfl
  · omega
  · omega
  · decide
  · decide

theorem isLocalChar_of_isPlainChar {c : Char} (h : isPlainChar c = true) : isLocalChar false c = true := by
  simp only [isPlainChar, Char.isAlphanum, Bool.or_eq_true, beq_iff_eq] at h
  simp only [isLocalChar, Name.isPart, Name.isStart, Name.isLetter]
  grind

theorem not_isCritical_of_isPlainChar {c : Char} (h : isPlainChar c = true) :
    LocalChar.isCritical ⟨c, false⟩ = false := by
  have := bounds_of_isPlainChar h
  have colon : c ≠ ':' := ne_of_class h (by decide)
  simp [LocalChar.isCritical, inRanges, colon]
  omega

theorem scanLocalChars_cons {first : Bool} {c : Char} {cs : List Char} (hc : isPlainChar c = true)
    (hl : isLocalChar first c = true) :
    scanLocalChars first (c :: cs) =
      (scanLocalChars false cs).map fun r => (⟨c, false⟩ :: r.1, r.2) := by
  have percent : c ≠ '%' := ne_of_class hc (by decide)
  have slash : c ≠ '\\' := ne_of_class hc (by decide)
  rw [scanLocalChars, if_neg (by simp [percent, slash]), if_pos hl]
  · simp [percent]
  · simp [slash]

theorem scanLocalChars_parted (first : Bool) {rest : List Char} (hr : IsParted rest) :
    scanLocalChars first rest = some ([], rest) := by
  obtain ⟨c, tail, rfl, rfl | rfl⟩ := hr
  · have : isLocalChar first ' ' = false := by cases first <;> decide
    simp [scanLocalChars, this]
  · have : isLocalChar first ',' = false := by cases first <;> decide
    simp [scanLocalChars, this]

theorem scanLocalChars_append {cs : List Char} (h : isPlainLocal cs = true) {rest : List Char}
    (hr : IsParted rest) :
    scanLocalChars true (cs ++ rest) = some (cs.map (LocalChar.mk · false), rest) := by
  have inner (cs : List Char) (h : cs.all isPlainChar = true) :
      scanLocalChars false (cs ++ rest) = some (cs.map (LocalChar.mk · false), rest) := by
    induction cs with
    | nil => exact scanLocalChars_parted false hr
    | cons c cs ih =>
      rw [List.all_cons, Bool.and_eq_true] at h
      rw [List.cons_append, scanLocalChars_cons h.1 (isLocalChar_of_isPlainChar h.1), ih h.2]
      rfl
  cases cs with
  | nil => exact scanLocalChars_parted true hr
  | cons c cs =>
    rw [isPlainLocal, Bool.and_eq_true] at h
    have plain : isPlainChar c = true := by
      rw [isPlainChar, h.1, Bool.true_or]
    have head : isLocalChar true c = true := by
      have := h.1
      simp only [Char.isAlphanum, Bool.or_eq_true, beq_iff_eq] at this
      simp only [isLocalChar, Name.isStart, Name.isLetter]
      grind
    rw [List.cons_append, scanLocalChars_cons plain head, inner cs h.2]
    rfl

theorem isPlainChar_of_isPlainLocal {cs : List Char} (h : isPlainLocal cs = true) :
    ∀ c ∈ cs, isPlainChar c = true := by
  cases cs with
  | nil => simp
  | cons c cs =>
    rw [isPlainLocal, Bool.and_eq_true, List.all_eq_true] at h
    have plain : isPlainChar c = true := by
      rw [isPlainChar, h.1, Bool.true_or]
    exact List.forall_mem_cons.mpr ⟨plain, h.2⟩

theorem scanLocal_append {cs : List Char} (h : isPlainLocal cs = true) {rest : List Char}
    (hr : IsParted rest) : scanLocal (cs ++ rest) = some (cs, false, rest) := by
  have plain := isPlainChar_of_isPlainLocal h
  have critical : (cs.map (LocalChar.mk · false)).any LocalChar.isCritical = false := by
    rw [List.any_map, List.any_eq_false]
    exact fun c hc => by simp [not_isCritical_of_isPlainChar (plain c hc)]
  have dots : trimEnd LocalChar.isBareDot (cs.map (LocalChar.mk · false)) =
      cs.map (LocalChar.mk · false) := by
    refine trimEnd_of_getLast? fun d hd => ?_
    obtain ⟨c, hc, rfl⟩ := List.mem_map.mp (List.mem_of_getLast? hd)
    have : c ≠ '.' := ne_of_class (plain c hc) (by decide)
    simp [LocalChar.isBareDot, this]
  rw [scanLocal, scanLocalChars_append h hr]
  simp [critical, dots, Function.comp_def]

theorem isPart_of_isPlainChar {c : Char} (h : isPlainChar c = true) : Name.isPart c = true := by
  simp only [isPlainChar, Char.isAlphanum, Bool.or_eq_true, beq_iff_eq] at h
  simp only [Name.isPart, Name.isStart, Name.isLetter]
  grind

theorem scanName_append {name : String} (hn : isPrefixName name = true) {cs : List Char}
    (h : isPlainLocal cs = true) {rest : List Char} (hr : IsParted rest) :
    scanName (name.toList ++ ':' :: (cs ++ rest)) =
      some (.name name (String.ofList cs) false, rest) := by
  unfold isPrefixName at hn
  split at hn
  next e =>
    have : name = "" := String.toList_eq_nil_iff.mp e
    rw [e, List.nil_append, scanName, scanLocal_append h hr, this]
    rfl
  next c ds e =>
    rw [Bool.and_eq_true, List.all_eq_true] at hn
    have letter : Name.isLetter c = true := by rw [Name.isLetter, hn.1, Bool.true_or]
    have run : ∀ d ∈ ds, (Name.isPart d || d == '.') = true := fun d hd => by
      rw [isPart_of_isPlainChar (hn.2 d hd), Bool.true_or]
    have colon : (Name.isPart ':' || ':' == '.') = false := by decide
    have head : c ≠ ':' := ne_of_class hn.1 (by decide)
    have last : (c :: ds).getLast? ≠ some '.' := by
      intro hl
      rcases List.mem_cons.mp (List.mem_of_getLast? hl) with rfl | hd
      · exact ne_of_class hn.1 (by decide) rfl
      · exact ne_of_class (hn.2 '.' hd) (by decide) rfl
    rw [e, List.cons_append, scanName, if_pos letter]
    · rw [List.takeWhile_append_of_pos run, List.dropWhile_append_of_pos run]
      simp only [List.takeWhile_cons, List.dropWhile_cons, colon, Bool.false_eq_true, if_false,
        List.append_nil, if_neg last, scanLocal_append h hr]
      rw [Option.map_some, nameToken, ← e, String.ofList_toList]
    · simp [head]

theorem scanName_letter {c : Char} (hc : Name.isLetter c = true) {rest : List Char}
    (hr : IsParted rest) : scanName (c :: rest) = some (.word (String.ofList [c]), rest) := by
  have colon : c ≠ ':' := ne_of_class hc (by decide)
  have none : scanDotted Name.isPart rest = ([], rest) :=
    scanDotted_append (by decide) [] rfl (by simp) hr
  have behind : rest.dropWhile (fun d => Name.isPart d || d == '.') = rest :=
    (hr.takeWhile (by decide) [] rfl).2
  rw [scanName, if_pos hc]
  · rw [behind]
    obtain ⟨d, tail, rfl, rfl | rfl⟩ := hr
    · simp [none]
    · simp [none]
  · simp [colon]

theorem not_isDigit_of_isAlpha {c : Char} (h : c.isAlpha = true) : c.isDigit = false := by
  rw [Bool.eq_false_iff]
  intro hd
  rw [isAlpha_iff] at h
  rw [isDigit_iff] at hd
  omega

theorem scanToken_letter (lx : Lexicon) {c : Char} (hc : c.isAlpha = true) (cs : List Char) :
    scanToken lx (c :: cs) = scanName (c :: cs) := by
  -- A letter begins none of the symbols, so only the last branch is left.
  unfold scanToken
  split
  case h_1 e => exact absurd e (List.cons_ne_nil _ _)
  case h_15 =>
    rename_i e
    obtain ⟨rfl, rfl⟩ := List.cons.inj e
    have plus : c ≠ '+' := ne_of_class hc (by decide)
    have minus : c ≠ '-' := ne_of_class hc (by decide)
    simp [not_isDigit_of_isAlpha hc, plus, minus]
  all_goals
    next e =>
      have := (List.cons.inj e).1
      subst this
      exact absurd hc (by decide)

end TripleStore.Turtle
