import Mathlib.Data.List.TakeDrop
import Mathlib.Data.List.TakeWhile
import TripleStore.Iri.Grammar

/-! # The characters of IRIs

Splitting an IRI into its parts loses nothing, and no part of a valid IRI has a character that could end
or escape an IRI reference in a document. -/
namespace TripleStore

theorem mem_splitAt (sep : Char) {c : Char} {cs : List Char} (h : c ∈ cs) :
    c = sep ∨ ∃ run ∈ splitAt sep cs, c ∈ run := by
  induction cs with
  | nil => exact absurd h List.not_mem_nil
  | cons d cs ih =>
    simp only [splitAt]
    split
    next e =>
      rcases List.mem_cons.mp h with rfl | h
      · exact .inl e
      · rcases ih h with e | ⟨run, hr, hc⟩
        · exact .inl e
        · exact .inr ⟨run, List.mem_cons_of_mem _ hr, hc⟩
    next =>
      split
      next e => exact absurd e (splitAt_ne_nil sep cs)
      next run runs e =>
        rcases List.mem_cons.mp h with rfl | h
        · exact .inr ⟨_, List.mem_cons_self, List.mem_cons_self⟩
        · rcases ih h with e' | ⟨run', hr, hc⟩
          · exact .inl e'
          · rw [e] at hr
            rcases List.mem_cons.mp hr with rfl | hr
            · exact .inr ⟨_, List.mem_cons_self, List.mem_cons_of_mem _ hc⟩
            · exact .inr ⟨run', List.mem_cons_of_mem _ hr, hc⟩

namespace Iri

theorem cutAt_append (d : Char) (cs : List Char) :
    (cutAt (· == d) cs).1 ++ delimited (String.singleton d) (cutAt (· == d) cs).2 = cs := by
  induction cs with
  | nil => rfl
  | cons c cs ih =>
    rw [cutAt]
    split
    next h => simp [delimited, beq_iff_eq.mp h]
    next h => exact congrArg (c :: ·) ih

theorem cutScheme_eq_some {cs s rest : List Char} (h : cutScheme cs = some (s, rest)) :
    cs = s ++ ':' :: rest := by
  unfold cutScheme at h
  rw [List.span_eq_takeWhile_dropWhile] at h
  split at h
  · simp at h
  next s' rest' _ e =>
    obtain ⟨rfl, rfl⟩ : s' = s ∧ rest' = rest := by simpa using h
    rw [← (Prod.mk.inj e).1, ← (Prod.mk.inj e).2, List.takeWhile_append_dropWhile]
  · simp at h

theorem cutAuthority_append (cs : List Char) :
    delimited "//" (cutAuthority cs).1 ++ (cutAuthority cs).2 = cs := by
  unfold cutAuthority
  split
  next cs => simp [delimited, List.span_eq_takeWhile_dropWhile, List.takeWhile_append_dropWhile]
  next => simp [delimited]

theorem join_split (cs : List Char) : join (split cs) = cs := by
  have behind (rest : List Char) :
      delimited "//" (cutAuthority (cutAt (· == '?') (cutAt (· == '#') rest).1).1).1 ++
        (cutAuthority (cutAt (· == '?') (cutAt (· == '#') rest).1).1).2 ++
        delimited "?" (cutAt (· == '?') (cutAt (· == '#') rest).1).2 ++
        delimited "#" (cutAt (· == '#') rest).2 = rest := by
    rw [cutAuthority_append]
    exact (congrArg (· ++ _) (cutAt_append '?' _)).trans (cutAt_append '#' rest)
  unfold split join
  cases h : cutScheme cs with
  | none => exact behind cs
  | some p =>
    obtain ⟨s, rest⟩ := p
    rw [cutScheme_eq_some h]
    refine Eq.trans ?_ (congrArg (s ++ ':' :: ·) (behind rest))
    simp only [List.append_assoc, List.singleton_append]
    rfl

/-- Neither the bracket behind an IRI reference nor a backslash. -/
def IsInner (c : Char) : Prop := c ≠ '>' ∧ c ≠ '\\'

theorem isInner_of {p : Char → Bool} (h : p '>' = false ∧ p '\\' = false) {c : Char}
    (hc : p c = true) : IsInner c := by
  constructor
  · rintro rfl
    simp [h.1] at hc
  · rintro rfl
    simp [h.2] at hc

theorem isInner_of_isEncoded {p : Char → Bool} (hp : p '>' = false ∧ p '\\' = false)
    {cs : List Char} (h : isEncoded p cs = true) : ∀ c ∈ cs, IsInner c := by
  fun_induction isEncoded p cs with
  | case1 => simp
  | case2 a b cs ih =>
    simp only [Bool.and_eq_true] at h
    have hex {d : Char} : isHexDigit d = true → IsInner d := isInner_of (by decide)
    simp only [List.mem_cons, forall_eq_or_imp]
    exact ⟨by simp [IsInner], hex h.1.1, hex h.1.2, ih h.2⟩
  | case3 c cs _ ih =>
    simp only [Bool.and_eq_true] at h
    simp only [List.mem_cons, forall_eq_or_imp]
    exact ⟨isInner_of hp h.1.2, ih h.2⟩

theorem isInner_of_isDigitSuffix {cs : List Char} (h : isDigitSuffix cs = true) :
    ∀ c ∈ cs, IsInner c := by
  cases cs with
  | nil => simp
  | cons d cs =>
    simp only [isDigitSuffix, Bool.and_eq_true, beq_iff_eq, List.all_eq_true] at h
    simp only [List.mem_cons, forall_eq_or_imp]
    exact ⟨h.1 ▸ by simp [IsInner], fun c hc => isInner_of (by decide) (h.2 c hc)⟩

namespace Address

theorem isInner_of_isV4 {cs : List Char} (h : isV4 cs = true) : ∀ c ∈ cs, IsInner c := by
  intro c hc
  simp only [isV4, Bool.and_eq_true, List.all_eq_true] at h
  rcases mem_splitAt '.' hc with rfl | ⟨run, hr, hc⟩
  · simp [IsInner]
  · have := h.2 run hr
    simp only [isOctet, Bool.and_eq_true, List.all_eq_true] at this
    exact isInner_of (p := Char.isDigit) (by decide) (this.1.1.1.1 c hc)

theorem isInner_of_isGroup {cs : List Char} (h : isGroup cs = true) : ∀ c ∈ cs, IsInner c := by
  simp only [isGroup, Bool.and_eq_true, List.all_eq_true] at h
  exact fun c hc => isInner_of (by decide) (h.1.1 c hc)

theorem isInner_of_groups {tail : Bool} {gs : List (List Char)} (h : (groups? tail gs).isSome) :
    ∀ g ∈ gs, ∀ c ∈ g, IsInner c := by
  fun_induction groups? tail gs with
  | case1 => simp
  | case2 g hg => simpa using isInner_of_isGroup hg
  | case3 g hg ht =>
    simp only [Bool.and_eq_true] at ht
    simpa using isInner_of_isV4 ht.2
  | case4 => simp at h
  | case5 g gs _ hg ih =>
    simp only [List.mem_cons, forall_eq_or_imp]
    exact ⟨isInner_of_isGroup hg, ih (by simpa using h)⟩
  | case6 => simp at h

theorem isInner_of_colonGroups (tail : Bool) {cs : List Char}
    (h : (groups? tail (colonGroups cs)).isSome) : ∀ c ∈ cs, IsInner c := by
  intro c hc
  have hne : cs.isEmpty = false := List.isEmpty_eq_false_iff.mpr (List.ne_nil_of_mem hc)
  have inner := isInner_of_groups h
  rw [colonGroups, hne] at inner
  rcases mem_splitAt ':' hc with rfl | ⟨run, hr, hc⟩
  · simp [IsInner]
  · exact inner run hr c hc

theorem mem_cutDoubleColon {c : Char} {cs : List Char} (h : c ∈ cs) :
    c = ':' ∨ c ∈ (cutDoubleColon cs).1 ∨ ∃ back, (cutDoubleColon cs).2 = some back ∧ c ∈ back := by
  fun_induction cutDoubleColon cs with
  | case1 cs => grind
  | case2 d cs _ r ih => grind
  | case3 => exact absurd h List.not_mem_nil

theorem isInner_of_isV6 {cs : List Char} (h : isV6 cs = true) : ∀ c ∈ cs, IsInner c := by
  intro c hc
  unfold isV6 at h
  split at h
  next all e =>
    have front := isInner_of_colonGroups true (Option.isSome_of_eq_some (beq_iff_eq.mp h))
    have := mem_cutDoubleColon hc
    rw [e] at this
    rcases this with rfl | h | ⟨_, h, _⟩
    · simp [IsInner]
    · exact front c h
    · simp at h
  next front back e =>
    split at h
    next m n hm hn =>
      have hf := isInner_of_colonGroups false (Option.isSome_of_eq_some hm)
      have hb := isInner_of_colonGroups true (Option.isSome_of_eq_some hn)
      have := mem_cutDoubleColon hc
      rw [e] at this
      rcases this with rfl | h | ⟨_, h, hc⟩
      · simp [IsInner]
      · exact hf c h
      · exact hb c (Option.some.inj h ▸ hc)
    next => simp at h

theorem isInner_of_isFuture {p : Char → Bool} (hp : p '>' = false ∧ p '\\' = false) {cs : List Char}
    (h : isFuture p cs = true) : ∀ c ∈ cs, IsInner c := by
  cases cs with
  | nil => simp
  | cons v cs =>
    simp only [isFuture, Bool.and_eq_true, List.span_eq_takeWhile_dropWhile] at h
    obtain ⟨hv, h⟩ := h
    split at h
    next version address e =>
      simp only [Bool.and_eq_true, List.all_eq_true] at h
      simp only [List.mem_cons, forall_eq_or_imp]
      refine ⟨isInner_of (p := fun v => v == 'v' || v == 'V') (by decide) hv, fun c hc => ?_⟩
      rw [← List.takeWhile_append_dropWhile (p := isHexDigit) (l := cs), (Prod.mk.inj e).2] at hc
      simp only [List.mem_append, List.mem_cons] at hc
      rcases hc with hc | rfl | hc
      · exact isInner_of (p := isHexDigit) (by decide) (List.mem_takeWhile_imp hc)
      · simp [IsInner]
      · exact isInner_of hp (h.2 c hc)
    next => simp at h

end Address

theorem isInner_of_isHost {cs : List Char} (h : isHost cs = true) : ∀ c ∈ cs, IsInner c := by
  unfold isHost at h
  split at h
  next cs =>
    rw [List.span_eq_takeWhile_dropWhile] at h
    split at h
    next address b suffix e =>
      simp only [Bool.and_eq_true, Bool.or_eq_true] at h
      intro c hc
      rw [← List.takeWhile_append_dropWhile (p := (· != ']')) (l := cs), (Prod.mk.inj e).1,
        (Prod.mk.inj e).2] at hc
      have hb : b = ']' := by
        have := List.head?_dropWhile_not (· != ']') cs
        rw [(Prod.mk.inj e).2] at this
        simpa using this
      simp only [List.mem_append, List.mem_cons] at hc
      rcases hc with rfl | hc | rfl | hc
      · simp [IsInner]
      · exact h.1.elim (fun h => Address.isInner_of_isV6 h c hc)
          fun h => Address.isInner_of_isFuture (by decide) h c hc
      · rw [hb]; simp [IsInner]
      · exact isInner_of_isDigitSuffix h.2 c hc
    next => simp at h
  next =>
    simp only [List.span_eq_takeWhile_dropWhile, Bool.and_eq_true] at h
    intro c hc
    rw [← List.takeWhile_append_dropWhile (p := (· != ':')) (l := cs)] at hc
    rcases List.mem_append.mp hc with hc | hc
    · exact isInner_of_isEncoded (by decide) h.1 c hc
    · exact isInner_of_isDigitSuffix h.2 c hc

theorem isInner_of_isAuthority {cs : List Char} (h : isAuthority cs = true) : ∀ c ∈ cs, IsInner c := by
  intro c hc
  have cut := cutAt_append '@' cs
  unfold isAuthority at h
  split at h
  next user rest e =>
    rw [e] at cut
    simp only [Bool.and_eq_true] at h
    rw [← cut] at hc
    simp only [delimited, String.toList_singleton, List.mem_append, List.mem_singleton] at hc
    rcases hc with hc | rfl | hc
    · exact isInner_of_isEncoded (by decide) h.1 c hc
    · simp [IsInner]
    · exact isInner_of_isHost h.2 c hc
  next => exact isInner_of_isHost h c hc

theorem isInner_of_isScheme {cs : List Char} (h : isScheme cs = true) : ∀ c ∈ cs, IsInner c := by
  cases cs with
  | nil => simp
  | cons d cs =>
    simp only [isScheme, Bool.and_eq_true, List.all_eq_true] at h
    simp only [List.mem_cons, forall_eq_or_imp]
    have inner (c : Char) : (c.isAlphanum || c == '+' || c == '-' || c == '.') = true → IsInner c :=
      isInner_of (p := fun c => c.isAlphanum || c == '+' || c == '-' || c == '.') (by decide)
    exact ⟨isInner_of (p := Char.isAlpha) (by decide) h.1, fun c hc => inner c (h.2 c hc)⟩

theorem isInner_of_delimited {d : String} (hd : ∀ c ∈ d.toList, IsInner c) {o : Option (List Char)}
    (ho : ∀ cs ∈ o, ∀ c ∈ cs, IsInner c) : ∀ c ∈ delimited d o, IsInner c := by
  cases o with
  | none => simp [delimited]
  | some cs =>
    intro c hc
    exact (List.mem_append.mp hc).elim (hd c) (ho cs rfl c)

/-- A valid IRI can be written between angle brackets as it is. -/
theorem isInner_of_isValid {s : String} (h : isValid s = true) : ∀ c ∈ s.toList, IsInner c := by
  simp only [isValid, isReference, Bool.and_eq_true, Option.all_eq_true] at h
  obtain ⟨-, ⟨⟨⟨⟨scheme, authority⟩, path⟩, query⟩, fragment⟩, -⟩ := h
  rw [← join_split s.toList]
  intro c hc
  simp only [join, List.mem_append] at hc
  rcases hc with (((hc | hc) | hc) | hc) | hc
  · cases e : (split s.toList).scheme with
    | none => simp [e] at hc
    | some cs =>
      simp only [e, List.mem_append, List.mem_singleton] at hc
      rcases hc with hc | rfl
      · exact isInner_of_isScheme (scheme cs e) c hc
      · simp [IsInner]
  · exact isInner_of_delimited (by simp [IsInner]) (fun cs e => isInner_of_isAuthority (authority cs e)) c hc
  · exact isInner_of_isEncoded (by decide) path c hc
  · exact isInner_of_delimited (by simp [IsInner])
      (fun cs e => isInner_of_isEncoded (by decide) (query cs e)) c hc
  · exact isInner_of_delimited (by simp [IsInner])
      (fun cs e => isInner_of_isEncoded (by decide) (fragment cs e)) c hc

end Iri
end TripleStore
