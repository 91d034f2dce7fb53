import TripleStore.Proofs.Evaluation.Meaning

/-! # Names of variables and of placeholders

Variables and placeholders bind nodes under names of one namespace. The name of a placeholder begins with
`_:`, and the name of a variable is any text; so a variable that is written like a placeholder has the
name of one. The main statement says that in a pattern the two kinds constrain each other exactly if this
happens, and otherwise keep apart: in what is repeated, in what is accepted, and in what is bound. -/
namespace TripleStore

namespace Item

theorem dropMarker?_eq_some_iff {marker s r : String} :
    dropMarker? marker s = some r ↔ s = marker ++ r := by
  unfold dropMarker?
  split
  next h =>
    obtain ⟨cs, hs⟩ := List.isPrefixOf_iff_prefix.mp h
    have split : s = marker ++ String.ofList cs := by rw [← String.toList_inj]; simp [hs]
    rw [← hs, ← String.length_toList, List.drop_left, Option.some.injEq, split, String.append_right_inj]
  next h =>
    refine iff_of_false (by simp) fun e => h ?_
    rw [e, String.toList_append]
    exact List.isPrefixOf_iff_prefix.mpr (List.prefix_append _ _)

theorem ne_of_head? {s t : String} (h : s.toList.head? ≠ t.toList.head?) : s ≠ t :=
  fun e => h (congrArg (fun s => s.toList.head?) e)

/-- A variable with a name that begins with none of the markers is written as this name, with or without
a marker. -/
theorem named_eq_var_iff {s x : String} (hq : x.toList.head? ≠ some '?') (hd : x.toList.head? ≠ some '$') :
    named s = .var x ↔ s = x ∨ s = "?" ++ x ∨ s = "$" ++ x := by
  have question (r : String) : "?" ++ r ≠ x := ne_of_head? (by simpa using hq.symm)
  have dollar (r : String) : "$" ++ r ≠ x := ne_of_head? (by simpa using hd.symm)
  have differ (r : String) : "?" ++ r ≠ "$" ++ x := ne_of_head? (by simp)
  cases marked : dropMarker? "?" s with
  | some r =>
    obtain rfl := dropMarker?_eq_some_iff.mp marked
    simp [named, marked, question, differ]
  | none =>
    have noQuestion : s ≠ "?" ++ x := fun e => by simp [dropMarker?_eq_some_iff.mpr e] at marked
    cases marked' : dropMarker? "$" s with
    | some r =>
      obtain rfl := dropMarker?_eq_some_iff.mp marked'
      simp [named, marked, marked', dollar, noQuestion]
    | none =>
      have noDollar : s ≠ "$" ++ x := fun e => by simp [dropMarker?_eq_some_iff.mpr e] at marked'
      simp [named, marked, marked', noQuestion, noDollar]

theorem binding?_anonymous (l : String) :
    ∃ y, (anonymous l).binding? = some ("_:" ++ y) := ⟨_, rfl⟩

/-- A variable and a placeholder have one name exactly if the variable is written as the name of the
placeholder, with or without a marker. -/
theorem binding?_named_eq_iff {s l : String} : (named s).binding? = (anonymous l).binding? ↔
    ∃ x, (anonymous l).binding? = some x ∧ (s = x ∨ s = "?" ++ x ∨ s = "$" ++ x) := by
  obtain ⟨y, hy⟩ := binding?_anonymous l
  have name : (named s).binding? = some ("_:" ++ y) ↔ named s = .var ("_:" ++ y) := by
    simp [named, binding?]
  rw [hy, name, named_eq_var_iff (by simp) (by simp)]
  simp

/-- The items that callers make: a node to be matched, a variable and a placeholder by their texts. -/
inductive Made : Item → Prop
  | fixed (n : Node) : Made (.fixed n)
  | named (s : String) : Made (named s)
  | anonymous (l : String) : Made (anonymous l)

theorem Made.exists_of_placeholder {x : String} (h : Made (.placeholder x)) : ∃ y, x = "_:" ++ y := by
  generalize hi : Item.placeholder x = i at h
  cases h with
  | fixed n => simp at hi
  | named s => simp [Item.named] at hi
  | anonymous l => exact ⟨_, Item.placeholder.inj hi⟩

/-- Different items with one name are a variable and a placeholder. -/
theorem eq_or_mixed {i j : Item} {x : String} (hi : i.binding? = some x) (hj : j.binding? = some x) :
    i = j ∨ (i = .var x ∧ j = .placeholder x) ∨ (j = .var x ∧ i = .placeholder x) := by
  cases i <;> cases j <;> simp_all [binding?]

end Item

/-- Whether a position comes before another one. -/
def Position.Before (a b : Position) : Prop := all.idxOf a < all.idxOf b

namespace Pattern
variable {p : Pattern}

/-- The items of a pattern constrain each other only if they are of one kind and have one name. -/
structure KeepsApart (p : Pattern) : Prop where
  /-- A position repeats the item of an earlier one. -/
  repeated : ∀ pos, p.isRepeated pos = true → ∃ earlier, earlier.Before pos ∧ p.item earlier = p.item pos
  /-- A triple is accepted if it has the fixed nodes, if it has one node wherever the pattern has one item,
  and if its nodes are allowed. -/
  accepts : ∀ ctx t, p.accepts ctx t = true ↔
    (∀ pos n, p.item pos = .fixed n → t.nodeAt pos = n) ∧
    (∀ pos other, p.item pos = p.item other → t.nodeAt pos = t.nodeAt other) ∧
    ∀ pos x, (p.item pos).binding? = some x → allows ctx x (t.nodeAt pos) = true
  /-- The name of an item is bound to the node in the first position with this item. -/
  solution : ∀ t pos x, (p.item pos).binding? = some x → ∃ first, p.item first = p.item pos ∧
    (∀ other, p.item other = p.item pos → other = first ∨ first.Before other) ∧
    (p.solution t).get? x = some (t.nodeAt first)

/-- No variable of a pattern has the name of one of its placeholders. -/
def HasSeparateNames (p : Pattern) : Prop := ∀ x, .var x ∈ p.items → .placeholder x ∉ p.items

theorem HasSeparateNames.item_eq (h : p.HasSeparateNames) {pos other : Position} {x : String}
    (hp : (p.item pos).binding? = some x) (ho : (p.item other).binding? = some x) :
    p.item pos = p.item other := by
  rcases Item.eq_or_mixed hp ho with e | ⟨hv, hl⟩ | ⟨hv, hl⟩
  · exact e
  · exact absurd (mem_items_iff.mpr ⟨other, hl⟩) (h x (mem_items_iff.mpr ⟨pos, hv⟩))
  · exact absurd (mem_items_iff.mpr ⟨pos, hl⟩) (h x (mem_items_iff.mpr ⟨other, hv⟩))

/-- The first position of a name comes before all others that bind the name. -/
theorem before_of_firstPosition? {x : String} {first pos : Position} (hf : p.firstPosition? x = some first)
    (hb : (p.item pos).binding? = some x) (hne : pos ≠ first) : first.Before pos :=
  FirstOccurrences.idxOf_lt_of_find? hf (mem_all pos) (by simpa using hb) hne

theorem isRepeated_iff {pos : Position} {x : String} (hb : (p.item pos).binding? = some x) :
    p.isRepeated pos = true ↔ p.firstPosition? x ≠ some pos := by
  simp [isRepeated, hb]

/-- With separate names a triple fits if it has the fixed nodes and one node for each item. -/
theorem HasSeparateNames.fits_iff (h : p.HasSeparateNames) {t : Triple} : p.Fits t ↔
    (∀ pos n, p.item pos = .fixed n → t.nodeAt pos = n) ∧
      ∀ pos other, p.item pos = p.item other → t.nodeAt pos = t.nodeAt other := by
  rw [Pattern.fits_iff]
  constructor
  · intro fits
    refine ⟨fun pos n hn => ?_, fun pos other e => ?_⟩
    · have := fits pos
      rw [hn, Item.under?] at this
      exact (Option.some.inj this).symm
    · exact Option.some.inj ((fits pos).symm.trans (e ▸ fits other))
  · rintro ⟨fixed, same⟩ pos
    have named {x : String} (hb : (p.item pos).binding? = some x) :
        (p.item pos).under? (p.solution t) = some (t.nodeAt pos) := by
      obtain ⟨first, hf⟩ := exists_firstPosition? hb
      have one := same first pos (h.item_eq (binding?_of_firstPosition? hf) hb)
      rw [under?_of_binding? hb, get?_solution, hf, Option.map_some, one]
    cases hi : p.item pos with
    | fixed n => rw [Item.under?, fixed pos n hi]
    | var x => exact hi ▸ named (by rw [hi, Item.binding?])
    | placeholder x => exact hi ▸ named (by rw [hi, Item.binding?])

theorem HasSeparateNames.keepsApart (h : p.HasSeparateNames) : p.KeepsApart where
  repeated pos hr := by
    cases hb : (p.item pos).binding? with
    | none => simp [isRepeated, hb] at hr
    | some x =>
      obtain ⟨first, hf⟩ := exists_firstPosition? hb
      have hne : pos ≠ first := fun e => (isRepeated_iff hb).mp hr (e ▸ hf)
      exact ⟨first, before_of_firstPosition? hf hb hne, h.item_eq (binding?_of_firstPosition? hf) hb⟩
  accepts ctx t := by rw [accepts_iff, h.fits_iff, and_assoc]
  solution t pos x hb := by
    obtain ⟨first, hf⟩ := exists_firstPosition? hb
    refine ⟨first, h.item_eq (binding?_of_firstPosition? hf) hb, fun other e => ?_, ?_⟩
    · by_cases hne : other = first
      · exact .inl hne
      · exact .inr (before_of_firstPosition? hf (e ▸ hb) hne)
    · rw [get?_solution, hf, Option.map_some]

/-- If repeated positions repeat an item, then all items with one name are the same: the first position
with another item of the name would repeat none. -/
theorem KeepsApart.item_eq (h : p.KeepsApart) {x : String} {first : Position}
    (hf : p.firstPosition? x = some first) {pos : Position} (hb : (p.item pos).binding? = some x) :
    p.item pos = p.item first := by
  induction hn : Position.all.idxOf pos using Nat.strongRecOn generalizing pos with
  | _ n ih =>
    by_cases hp : pos = first
    · rw [hp]
    · have hr : p.isRepeated pos = true :=
        (isRepeated_iff hb).mpr fun e => hp (Option.some.inj (e.symm.trans hf))
      obtain ⟨earlier, before, same⟩ := h.repeated pos hr
      rw [← same]
      exact ih _ (hn ▸ before) (same ▸ hb) rfl

theorem keepsApart_iff : p.KeepsApart ↔ p.HasSeparateNames := by
  refine ⟨fun h x hv hp => ?_, HasSeparateNames.keepsApart⟩
  obtain ⟨a, ha⟩ := mem_items_iff.mp hv
  obtain ⟨b, hb⟩ := mem_items_iff.mp hp
  have bindsA : (p.item a).binding? = some x := by rw [ha, Item.binding?]
  have bindsB : (p.item b).binding? = some x := by rw [hb, Item.binding?]
  obtain ⟨first, hf⟩ := exists_firstPosition? bindsA
  have same := (h.item_eq hf bindsA).trans (h.item_eq hf bindsB).symm
  rw [ha, hb] at same
  cases same

theorem items_of_build {options : EvaluationOptions} {s q o : Item}
    (h : build options s q o = .ok p) : p.items = [s, q, o] := by
  cases q with
  | fixed n => cases h; rfl
  | var x => cases h; rfl
  | placeholder x => cases h

/-- A variable has the name of a placeholder exactly if it is written as this name, with or without a
marker. In a pattern the two kinds keep apart exactly if no variable has the name of a placeholder of the
pattern; for a caller's items it is enough that no variable has a name that begins with `_:`. -/
theorem build_keepsApart_iff {options : EvaluationOptions} {s q o : Item}
    (built : build options s q o = .ok p) :
    (∀ v l, (Item.named v).binding? = (Item.anonymous l).binding? ↔
      ∃ x, (Item.anonymous l).binding? = some x ∧ (v = x ∨ v = "?" ++ x ∨ v = "$" ++ x)) ∧
    (p.KeepsApart ↔ ∀ x, Item.var x ∈ [s, q, o] → Item.placeholder x ∉ [s, q, o]) ∧
    ((∀ i ∈ [s, q, o], i.Made) → (∀ x y, Item.var x ∈ [s, q, o] → x ≠ "_:" ++ y) → p.KeepsApart) := by
  have separate : p.KeepsApart ↔ ∀ x, Item.var x ∈ [s, q, o] → Item.placeholder x ∉ [s, q, o] := by
    rw [keepsApart_iff, HasSeparateNames, items_of_build built]
  refine ⟨fun v l => Item.binding?_named_eq_iff, separate, fun made plain => ?_⟩
  refine separate.mpr fun x hv hp => ?_
  obtain ⟨y, hy⟩ := (made _ hp).exists_of_placeholder
  exact plain x y hv hy

/-- A variable and a placeholder with the same label. -/
theorem build_keepsApart_sameLabel :
    let s := Item.named "?b"
    let o := Item.anonymous "_:b"
    let p : Pattern := ⟨.var "b", .fixed .rdfType, .placeholder "_:b", true, rfl⟩
    build {} s (.fixed .rdfType) o = .ok p ∧ p.KeepsApart := by
  intro s o p
  have built : build {} s (.fixed .rdfType) o = .ok p := by decide
  have made : ∀ i ∈ [s, .fixed .rdfType, o], i.Made := by
    simp only [List.mem_cons, List.not_mem_nil, or_false, forall_eq_or_imp, forall_eq]
    exact ⟨.named _, .fixed _, .anonymous _⟩
  have hs : s = .var "b" := by decide
  have ho : o = .placeholder "_:b" := by decide
  have plain : ∀ x y, Item.var x ∈ [s, .fixed .rdfType, o] → x ≠ "_:" ++ y := by
    intro x y hx
    obtain rfl : x = "b" := by simpa [hs, ho] using hx
    exact Item.ne_of_head? (by simp)
  exact ⟨built, (build_keepsApart_iff built).2.2 made plain⟩

/-- A variable that is written like a placeholder is taken for it: the placeholder counts as repeated, and
a triple with different nodes in the two positions is missed. -/
theorem named_meets_anonymous :
    let s := Item.named "_:b"
    let o := Item.anonymous "b"
    let p : Pattern := ⟨.var "_:b", .fixed .rdfType, .placeholder "_:b", true, rfl⟩
    let g := Graph.ofList [⟨.blank "a", .rdfType, .blank "c"⟩]
    s.binding? = o.binding? ∧ build {} s (.fixed .rdfType) o = .ok p ∧
      p.isRepeated .object = true ∧ (p.evaluate { graph := g }).rows = [] := by
  decide

end Pattern
end TripleStore
