import TripleStore.Loading
import TripleStore.Proofs.Graph.History

/-! # Copies of triples

Copies of the triples of a document, each with blank nodes of its own, have only triples without blank
nodes in common. Added to a list that mentions none of these blank nodes, they add all their triples with
blank nodes and the others once. -/
namespace TripleStore
open FirstOccurrences GraphStep

variable {ts : List Triple}

theorem freshening_of_mem {labels : LabelSupply} {drawn : Nat} {blanks : List Node} {a : Node}
    (ha : a ∈ blanks) :
    freshening labels drawn blanks a = freshNode labels (drawn + blanks.idxOf a) := by
  cases h : blanks.idxOf? a with
  | none => exact absurd ha (List.idxOf?_eq_none_iff.mp h)
  | some i => simp [freshening, h, List.idxOf_eq_getD_idxOf?]

theorem freshening_of_not_mem {labels : LabelSupply} {drawn : Nat} {blanks : List Node} {a : Node}
    (ha : a ∉ blanks) : freshening labels drawn blanks a = a := by
  rw [freshening, List.idxOf?_eq_none_iff.mpr ha]

theorem freshNode_inj {labels : LabelSupply} {m n : Nat}
    (h : freshNode labels m = freshNode labels n) : m = n :=
  labels.label_inj (Node.blank.inj h)

/-- Nodes are never given a name that is drawn later, nor do they have one of their own. -/
theorem freshening_ne_freshNode {labels : LabelSupply} {drawn n : Nat} {blanks : List Node} {a : Node}
    (ha : a.isBlank = true → a ∈ blanks) (hn : drawn + blanks.length ≤ n) :
    freshening labels drawn blanks a ≠ freshNode labels n := by
  by_cases hm : a ∈ blanks
  · rw [freshening_of_mem hm]
    intro h
    have := List.idxOf_lt_length_of_mem hm
    have := freshNode_inj h
    omega
  · rw [freshening_of_not_mem hm]
    rintro rfl
    exact hm (ha rfl)

theorem Triple.mem_blankNodes_of_subject {t : Triple} (ht : t ∈ ts) (h : t.subject.isBlank = true) :
    t.subject ∈ Triple.blankNodes ts :=
  mem_blankNodes.mpr ⟨h, t, ht, .inl rfl⟩

theorem Triple.mem_blankNodes_of_object {t : Triple} (ht : t ∈ ts) (h : t.object.isBlank = true) :
    t.object ∈ Triple.blankNodes ts :=
  mem_blankNodes.mpr ⟨h, t, ht, .inr rfl⟩

/-- Ways to name the blank nodes of `ts` in copy after copy. A name belongs to one node in one copy, is
blank and is not mentioned in `old`; what is not blank keeps its name. -/
structure NamesCopies (f : Nat → Node → Node) (ts old : List Triple) : Prop where
  inj : ∀ i j, ∀ a ∈ Triple.blankNodes ts, ∀ b ∈ Triple.blankNodes ts, f i a = f j b → i = j ∧ a = b
  blank : ∀ i, ∀ a ∈ Triple.blankNodes ts, (f i a).isBlank = true
  unused : ∀ i, ∀ a ∈ Triple.blankNodes ts, ∀ t ∈ old, t.mentions (f i a) = false
  fixed : ∀ i a, a.isBlank = false → f i a = a

/-- Whether the subject or the object is blank. -/
def Triple.hasBlank (t : Triple) : Bool := t.subject.isBlank || t.object.isBlank

/-- The triples of a document with a blank node, each once. -/
def Triple.blankPart (ts : List Triple) : List Triple := (ts.filter Triple.hasBlank).eraseDups

def Triple.groundPart (ts : List Triple) : List Triple := ts.filter fun t => !t.hasBlank

theorem Triple.mem_blankPart {t : Triple} : t ∈ Triple.blankPart ts ↔ t ∈ ts ∧ t.hasBlank = true := by
  rw [blankPart, List.mem_eraseDups, List.mem_filter]

theorem Triple.mem_groundPart {t : Triple} : t ∈ Triple.groundPart ts ↔ t ∈ ts ∧ t.hasBlank = false := by
  simp [groundPart]

/-- Copies of triples one after the other. -/
def Triple.copies (f : Nat → Node → Node) (ts : List Triple) (n : Nat) : List Triple :=
  (List.range n).flatMap fun i => ts.map (Triple.rename (f i))

theorem Triple.copies_succ (f : Nat → Node → Node) (ts : List Triple) (n : Nat) :
    Triple.copies f ts (n + 1) = Triple.copies f ts n ++ ts.map (Triple.rename (f n)) := by
  simp [copies, List.range_succ]

theorem Triple.mem_copies {f : Nat → Node → Node} {n : Nat} {t : Triple} :
    t ∈ Triple.copies f ts n ↔ ∃ i < n, ∃ u ∈ ts, u.rename (f i) = t := by
  simp [copies]

theorem Triple.length_copies (f : Nat → Node → Node) (ts : List Triple) (n : Nat) :
    (Triple.copies f ts n).length = n * ts.length := by
  simp [copies]

namespace NamesCopies
variable {f : Nat → Node → Node} {old : List Triple}

theorem isBlank_eq (h : NamesCopies f ts old) (i : Nat) {a : Node}
    (ha : a.isBlank = true → a ∈ Triple.blankNodes ts) : (f i a).isBlank = a.isBlank := by
  cases hb : a.isBlank with
  | false => rw [h.fixed i a hb, hb]
  | true => exact h.blank i a (ha hb)

theorem hasBlank_rename (h : NamesCopies f ts old) (i : Nat) {t : Triple} (ht : t ∈ ts) :
    (t.rename (f i)).hasBlank = t.hasBlank := by
  simp only [Triple.hasBlank, Triple.rename, h.isBlank_eq i (Triple.mem_blankNodes_of_subject ht),
    h.isBlank_eq i (Triple.mem_blankNodes_of_object ht)]

theorem rename_ground (h : NamesCopies f ts old) (i : Nat) {t : Triple} (ht : t.hasBlank = false) :
    t.rename (f i) = t := by
  obtain ⟨hs, ho⟩ : t.subject.isBlank = false ∧ t.object.isBlank = false := by
    simpa [Triple.hasBlank] using ht
  rw [Triple.rename, h.fixed i _ hs, h.fixed i _ ho]

/-- In a triple with a blank node a name comes from it that the old triples do not have. -/
theorem rename_not_mem (h : NamesCopies f ts old) (i : Nat) {t : Triple} (ht : t ∈ ts)
    (hb : t.hasBlank = true) : t.rename (f i) ∉ old := by
  intro hold
  simp only [Triple.hasBlank, Bool.or_eq_true] at hb
  rcases hb with hb | hb
  · have := h.unused i _ (Triple.mem_blankNodes_of_subject ht hb) _ hold
    simp [Triple.mentions, Triple.rename] at this
  · have := h.unused i _ (Triple.mem_blankNodes_of_object ht hb) _ hold
    simp [Triple.mentions, Triple.rename] at this

/-- Nodes of triples have the same name only if they are the same, and blank ones only in one copy. -/
theorem eq_of_name_eq (h : NamesCopies f ts old) {i j : Nat} {a b : Node}
    (ha : a.isBlank = true → a ∈ Triple.blankNodes ts)
    (hb : b.isBlank = true → b ∈ Triple.blankNodes ts) (hab : f i a = f j b) :
    a = b ∧ (a.isBlank = true → i = j) := by
  have kind : a.isBlank = b.isBlank := by rw [← h.isBlank_eq i ha, ← h.isBlank_eq j hb, hab]
  cases hk : a.isBlank with
  | true =>
    obtain ⟨hij, e⟩ := h.inj i j a (ha hk) b (hb (kind ▸ hk)) hab
    exact ⟨e, fun _ => hij⟩
  | false =>
    rw [h.fixed i a hk, h.fixed j b (kind ▸ hk)] at hab
    exact ⟨hab, nofun⟩

theorem eq_of_rename_eq (h : NamesCopies f ts old) {i j : Nat} {t u : Triple} (ht : t ∈ ts)
    (hu : u ∈ ts) (htu : t.rename (f i) = u.rename (f j)) :
    t = u ∧ (t.hasBlank = true → i = j) := by
  obtain ⟨hs, hp, ho⟩ := Triple.mk.inj htu
  obtain ⟨hs, his⟩ := h.eq_of_name_eq (Triple.mem_blankNodes_of_subject ht)
    (Triple.mem_blankNodes_of_subject hu) hs
  obtain ⟨ho, hio⟩ := h.eq_of_name_eq (Triple.mem_blankNodes_of_object ht)
    (Triple.mem_blankNodes_of_object hu) ho
  refine ⟨by cases t; cases u; simp_all, fun hb => ?_⟩
  simp only [Triple.hasBlank, Bool.or_eq_true] at hb
  exact hb.elim his hio

theorem nodup_copies (h : NamesCopies f ts old) (n : Nat) :
    (Triple.copies f (Triple.blankPart ts) n).Nodup := by
  refine List.nodup_flatMap.mpr ⟨fun i _ => ?_, List.nodup_range.imp ?_⟩
  · refine List.Nodup.map_on (fun t ht u hu htu => ?_) (nodup_eraseDups _)
    exact (h.eq_of_rename_eq (Triple.mem_blankPart.mp ht).1 (Triple.mem_blankPart.mp hu).1 htu).1
  · intro i j hij x hi hj
    obtain ⟨t, ht, rfl⟩ := List.mem_map.mp hi
    obtain ⟨u, hu, htu⟩ := List.mem_map.mp hj
    obtain ⟨ht, hb⟩ := Triple.mem_blankPart.mp ht
    exact hij ((h.eq_of_rename_eq ht (Triple.mem_blankPart.mp hu).1 htu.symm).2 hb)

theorem disjoint_copies (h : NamesCopies f ts old) (n : Nat) :
    (news old (Triple.groundPart ts)).Disjoint (Triple.copies f (Triple.blankPart ts) n) := by
  intro x hx hc
  obtain ⟨i, _, t, ht, rfl⟩ := Triple.mem_copies.mp hc
  obtain ⟨ht, hb⟩ := Triple.mem_blankPart.mp ht
  have ground := (Triple.mem_groundPart.mp (mem_news.mp hx).1).2
  rw [h.hasBlank_rename i ht, hb] at ground
  exact absurd ground (by decide)

/-- Copies add, up to the order, the new triples without blank nodes once and the triples with blank
nodes once for each copy. -/
theorem news_copies_perm (h : NamesCopies f ts old) {n : Nat} (hn : 0 < n) :
    (news old (Triple.copies f ts n)).Perm
      (news old (Triple.groundPart ts) ++ Triple.copies f (Triple.blankPart ts) n) := by
  -- Neither side has duplicates, so it is enough to compare their members.
  rw [List.perm_ext_iff_of_nodup (nodup_news _ _)
    ((nodup_news _ _).append (h.nodup_copies n) (h.disjoint_copies n))]
  intro x
  rw [mem_news, Triple.mem_copies, List.mem_append, mem_news, Triple.mem_groundPart, Triple.mem_copies]
  constructor
  · rintro ⟨⟨i, hi, t, ht, rfl⟩, hx⟩
    cases hb : t.hasBlank with
    | false => exact .inl ⟨by rw [h.rename_ground i hb]; exact ⟨ht, hb⟩, hx⟩
    | true => exact .inr ⟨i, hi, t, Triple.mem_blankPart.mpr ⟨ht, hb⟩, rfl⟩
  · rintro (⟨⟨ht, hb⟩, hx⟩ | ⟨i, hi, t, ht, rfl⟩)
    · exact ⟨⟨0, hn, x, ht, h.rename_ground 0 hb⟩, hx⟩
    · obtain ⟨ht, hb⟩ := Triple.mem_blankPart.mp ht
      exact ⟨⟨i, hi, t, ht, rfl⟩, h.rename_not_mem i ht hb⟩

end NamesCopies
end TripleStore
