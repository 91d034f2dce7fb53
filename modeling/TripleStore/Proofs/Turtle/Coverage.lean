import TripleStore.Proofs.Turtle.Blocks
import TripleStore.Turtle.Layout

/-! # Coverage

The blocks of subjects leave nothing: with the links of the collections, followed from the outermost
inwards, every collection is reached, and since its link is the only triple with a key as object, none
is reached twice and no key is named. -/
namespace TripleStore.Turtle

namespace IsLayout
variable {g : Graph} {r r' : Registry} {bs : List Block}

theorem mem_shown_of_unclaimed (h : IsLayout g r bs r') {t : Triple} (ht : t ∈ unclaimed g r.claims) :
    t ∈ bs.flatMap Block.shown := by
  obtain ⟨b, hb, ht⟩ := List.mem_flatMap.mp (h.direct_perm.mem_iff.mpr ht)
  exact List.mem_flatMap.mpr ⟨b, hb, List.mem_append_left _ ht⟩

theorem exists_block_of_unclaimed (h : IsLayout g r bs r') {t : Triple}
    (ht : t ∈ unclaimed g r.claims) : ∃ b ∈ bs, b.subject = t.subject := by
  have : t.subject ∈ bs.map Block.subject := by
    rw [h.subjects, List.mem_eraseDups]
    exact List.mem_map_of_mem ht
  exact List.mem_map.mp this

/-- The collection around a claimed link holds the key. -/
theorem holds_of_claimed_link (hs : Settled g r) {k : Node} {c : Collection} {l : Triple}
    (hk : r.get? k = some c) (hl : Inlinable g k c l) (hc : l ∈ r.claims) :
    ∃ k' c', r.get? k' = some c' ∧ l ∈ c'.triples ∧ l.object = k ∧ Holds r k' k := by
  obtain ⟨k', c', hk', hc'⟩ := Registry.mem_claims.mp hc
  obtain ⟨l', hl'⟩ := hs.inlinable k' c' hk'
  have hne : l.subject ≠ k := by
    rintro hsub
    have : k' = k := (hl'.subject_of_claim hc').symm.trans hsub
    subst this
    exact hl.unclaimed (Option.some.inj (hk'.symm.trans hk) ▸ hc')
  have ho : l.object = k := (hl.place.resolve_right fun h => hne h.2.1).1
  have hb : l.object.isBlank = true := ho ▸ hl.found.blank
  have item : k ∈ c'.items := ho ▸ hl'.mem_items_of_claim hc' hb
  have holds : Holds r k' k :=
    mem_children.mpr ⟨c', hk', item, Registry.contains_iff.mpr ⟨c, hk⟩⟩
  exact ⟨k', c', hk', hl'.mem_triples_of_claim hc' hb, ho, holds⟩

theorem not_unwritten (h : IsLayout g r bs r') (hs : Settled g r) {k : Node}
    (hk : r.contains k = true) : k ∉ r'.unwritten := by
  -- The induction goes inwards: a key is reached when every key that holds it has been.
  refine hs.acyclic.induction (P := fun k => k ∉ r'.unwritten) (fun k hk ih => ?_) hk
  obtain ⟨c, l, hk, hl⟩ := hs.exists_inlinable hk
  by_cases hc : l ∈ r.claims
  · obtain ⟨k', c', hk', hm, ho, holds⟩ := holds_of_claimed_link hs hk hl hc
    have left : k' ∈ r.unwritten := by
      obtain ⟨l', hl'⟩ := hs.inlinable k' c' hk'
      exact Registry.mem_unwritten.mpr ⟨c', hk', hl'.found.unwritten⟩
    -- The outer collection has been written, so its triples are shown.
    have written : k' ∈ (bs.flatMap Block.collections).map Prod.fst :=
      (List.mem_append.mp (h.laid.wrote.unwritten.mem_iff.mp left)).resolve_right (ih k' holds)
    obtain ⟨e, he, rfl⟩ := List.mem_map.mp written
    obtain ⟨d, hd, shows⟩ := h.laid.shows e he
    obtain rfl := Option.some.inj (hk'.symm.trans hd)
    exact ho ▸ h.object_not_unwritten (mem_shown_of_key he (shows.triples.mem_iff.mpr hm))
  · have hu : l ∈ unclaimed g r.claims := List.mem_filter.mpr ⟨hl.mem, by simpa using hc⟩
    rcases hl.place with ⟨ho, -⟩ | ⟨bare, hsub, -⟩
    · exact ho ▸ h.object_not_unwritten (h.mem_shown_of_unclaimed hu)
    · obtain ⟨b, hb, e⟩ := h.exists_block_of_unclaimed hu
      have hb' := h.bare b hb
      rw [e, hsub] at hb'
      exact hb' c hk bare

theorem unwritten_eq_nil (h : IsLayout g r bs r') (hs : Settled g r) : r'.unwritten = [] := by
  refine List.eq_nil_iff_forall_not_mem.mpr fun k hk => ?_
  have hr : k ∈ r.unwritten := h.laid.wrote.unwritten.mem_iff.mpr (List.mem_append_right _ hk)
  obtain ⟨c, hc, -⟩ := Registry.mem_unwritten.mp hr
  exact h.not_unwritten hs (Registry.contains_iff.mpr ⟨c, hc⟩) hk

theorem remaining_eq_nil (h : IsLayout g r bs r') (hs : Settled g r) : layRemaining r' = [] := by
  have := List.map_eq_nil_iff.mp (h.unwritten_eq_nil hs)
  rw [layRemaining, this]
  rfl

theorem unwritten_eq_keys (hs : Settled g r) : r.unwritten = r.keys := by
  have : (r.entries.filter fun e => !e.2.written) = r.entries := by
    refine List.filter_eq_self.mpr fun e he => ?_
    obtain ⟨l, hl⟩ := hs.inlinable e.1 e.2 (Registry.mem_entries.mp he)
    simp [hl.found.unwritten]
  rw [Registry.unwritten, this, Registry.keys]

/-- Every collection of the registry stands inline in the blocks, once. -/
theorem keys_perm (h : IsLayout g r bs r') (hs : Settled g r) :
    ((bs.flatMap Block.collections).map Prod.fst).Perm r.keys := by
  have := h.laid.wrote.unwritten
  rw [h.unwritten_eq_nil hs, List.append_nil, unwritten_eq_keys hs] at this
  exact this.symm

theorem claims_perm (h : IsLayout g r bs r') (hs : Settled g r) :
    ((bs.flatMap Block.collections).flatMap fun e => e.2.claims).Perm r.claims := by
  refine (List.perm_ext_iff_of_nodup (h.nodup_claims hs)
    (FirstOccurrences.nodup_eraseDups _)).mpr fun t => ⟨fun ht => ?_, fun ht => ?_⟩
  · obtain ⟨e, he, ht⟩ := List.mem_flatMap.mp ht
    exact h.mem_claims_of_shown he ht
  · obtain ⟨k, c, hk, ht⟩ := Registry.mem_claims.mp ht
    have : k ∈ r.keys := Registry.mem_keys.mpr (Registry.contains_iff.mpr ⟨c, hk⟩)
    obtain ⟨e, he, rfl⟩ := List.mem_map.mp ((h.keys_perm hs).mem_iff.mpr this)
    obtain ⟨d, hd, shows⟩ := h.laid.shows e he
    obtain rfl := Option.some.inj (hk.symm.trans hd)
    exact List.mem_flatMap.mpr ⟨e, he, shows.claims.mem_iff.mpr ht⟩

/-- The blocks hold every triple of the graph once. -/
theorem triples_perm_graph (h : IsLayout g r bs r') (hs : Settled g r) :
    (bs.flatMap Block.triples).Perm g.toList := by
  have claims : r.claims.Perm (g.toList.filter r.claims.contains) := by
    refine (List.perm_ext_iff_of_nodup (FirstOccurrences.nodup_eraseDups _)
      (g.nodup.filter _)).mpr fun t => ?_
    rw [List.mem_filter, List.contains_iff_mem]
    exact ⟨fun ht => ⟨mem_graph_of_claims hs ht, ht⟩, And.right⟩
  calc (bs.flatMap Block.triples).Perm _ := flatMap_triples_perm bs
    _ |>.Perm (unclaimed g r.claims ++ r.claims) := h.direct_perm.append (h.claims_perm hs)
    _ |>.Perm (r.claims ++ unclaimed g r.claims) := List.perm_append_comm
    _ |>.Perm g.toList := (claims.append_right _).trans (List.filter_append_perm _ _)

/-- A triple of the graph with a key as object is its link, and so is an unclaimed one with a key as
subject. -/
theorem eq_link_of_unclaimed_subject {k : Node} {c : Collection} {l : Triple} (hk : r.get? k = some c)
    (hl : Inlinable g k c l) {t : Triple} (ht : t ∈ unclaimed g r.claims) (hsub : t.subject = k) :
    t = l := by
  obtain ⟨hg, hc⟩ := List.mem_filter.mp ht
  have hc : t ∉ r.claims := by simpa using hc
  refine (hl.only t hg (by simp [Triple.mentions, hsub])).resolve_right fun h => hc ?_
  exact Registry.mem_claims.mpr ⟨k, c, hk, h⟩

theorem mem_graph_of_shown (h : IsLayout g r bs r') (hs : Settled g r) {t : Triple}
    (ht : t ∈ bs.flatMap Block.shown) : t ∈ g.toList :=
  h.mem_graph hs ((flatMap_shown_sublist bs).subset ht)

theorem exists_unclaimed_of_block (h : IsLayout g r bs r') {b : Block} (hb : b ∈ bs) :
    ∃ t ∈ unclaimed g r.claims, t.subject = b.subject := by
  have : b.subject ∈ ((unclaimed g r.claims).map Triple.subject).eraseDups :=
    h.subjects ▸ List.mem_map_of_mem hb
  exact List.mem_map.mp (List.mem_eraseDups.mp this)

theorem mem_of_unnamed {k : Node} (hk : k ∈ bs.flatMap Block.unnamed) :
    ∃ ps, Block.grouped (.anonymous k) ps ∈ bs := by
  obtain ⟨b, hb, hk⟩ := List.mem_flatMap.mp hk
  obtain ⟨ps, rfl⟩ := Block.of_unnamed hk
  exact ⟨ps, hb⟩

/-- The place of a key is that of its link: as the object, or as the subject of a block. -/
theorem not_object_of_block (h : IsLayout g r bs r') (hs : Settled g r) {k : Node} {c : Collection}
    {l : Triple} (hk : r.get? k = some c) (hl : Inlinable g k c l) {b : Block} (hb : b ∈ bs)
    (hsub : b.subject = k) : k ∉ (bs.flatMap Block.shown).map Triple.object := by
  intro ho
  obtain ⟨t, ht, hts⟩ := h.exists_unclaimed_of_block hb
  obtain ⟨t', ht', ho⟩ := List.mem_map.mp ho
  obtain rfl := eq_link_of_unclaimed_subject hk hl ht (hts.trans hsub)
  obtain rfl := hs.eq_link_of_object hk hl (h.mem_graph_of_shown hs ht') ho
  rcases hl.place with ⟨-, hne⟩ | ⟨-, -, hne⟩
  · exact hne (hts.trans hsub)
  · exact hne ho

theorem count_unnamed_le (h : IsLayout g r bs r') (k : Node) :
    (bs.flatMap Block.unnamed).count k ≤ 1 := by
  have sub : (bs.flatMap Block.unnamed).Sublist (bs.map Block.subject) := by
    rw [List.map_eq_flatMap]
    apply List.Sublist.flatMap_right
    intro b _
    cases b with
    | single t => exact List.nil_sublist _
    | grouped s ps =>
      cases s with
      | named n => exact List.nil_sublist _
      | anonymous n => exact List.Sublist.refl _
  exact List.nodup_iff_count_le_one.mp (h.nodup_subjects.sublist sub) k

theorem count_objects_le (h : IsLayout g r bs r') (hs : Settled g r) {k : Node} {c : Collection}
    {l : Triple} (hk : r.get? k = some c) (hl : Inlinable g k c l) :
    ((bs.flatMap Block.shown).map Triple.object).count k ≤ 1 := by
  have nodup := (h.nodup_triples hs).sublist (flatMap_shown_sublist bs)
  rw [List.count, List.countP_map, List.countP_eq_length_filter]
  have only : ∀ t ∈ (bs.flatMap Block.shown).filter ((· == k) ∘ Triple.object), t ∈ [l] := by
    intro t ht
    obtain ⟨hm, ho⟩ := List.mem_filter.mp ht
    rw [hs.eq_link_of_object hk hl (h.mem_graph_of_shown hs hm) (by simpa using ho)]
    exact List.mem_singleton_self l
  exact (List.subperm_of_subset (nodup.filter _) only).length_le

/-- No key is named as an object: it would stand in two places. -/
theorem not_objectName (h : IsLayout g r bs r') (hs : Settled g r) {k : Node}
    (hk : r.contains k = true) : k ∉ bs.flatMap Block.objectNames := by
  intro hn
  obtain ⟨c, l, hc, hl⟩ := hs.exists_inlinable hk
  have inline : k ∈ (bs.flatMap Block.collections).map Prod.fst :=
    (h.keys_perm hs).mem_iff.mpr (Registry.mem_keys.mpr hk)
  have places := (flatMap_objects_perm bs).count_eq k
  rw [List.count_append, List.count_append] at places
  have named := List.count_pos_iff.mpr hn
  have written := List.count_pos_iff.mpr inline
  have unnamed := h.count_unnamed_le k
  have objects := h.count_objects_le hs hc hl
  -- Two places on one side need two on the other, and these exclude each other.
  have hu : k ∈ bs.flatMap Block.unnamed := List.count_pos_iff.mp (by omega)
  have ho : k ∈ (bs.flatMap Block.shown).map Triple.object := List.count_pos_iff.mp (by omega)
  obtain ⟨ps, hb⟩ := mem_of_unnamed hu
  exact h.not_object_of_block hs hc hl hb rfl ho

theorem unnamed_of_key (h : IsLayout g r bs r') (hs : Settled g r) {b : Block} (hb : b ∈ bs)
    (hk : r.contains b.subject = true) : b.subject ∈ b.unnamed := by
  obtain ⟨c, l, hc, hl⟩ := hs.exists_inlinable hk
  have inline : b.subject ∈ (bs.flatMap Block.collections).map Prod.fst :=
    (h.keys_perm hs).mem_iff.mpr (Registry.mem_keys.mpr hk)
  have place := (flatMap_objects_perm bs).mem_iff.mpr (List.mem_append_right _ inline)
  have hu : b.subject ∈ bs.flatMap Block.unnamed :=
    (List.mem_append.mp place).resolve_right (h.not_object_of_block hs hc hl hb rfl)
  obtain ⟨ps, hb'⟩ := mem_of_unnamed hu
  have same : b = .grouped (.anonymous b.subject) ps :=
    List.inj_on_of_nodup_map h.nodup_subjects hb hb' rfl
  rw [same]
  exact List.mem_singleton_self _

theorem not_printed (h : IsLayout g r bs r') (hs : Settled g r) (legal : ∀ t ∈ g.toList, t.isLegal)
    {k : Node} (hk : r.contains k = true) {b : Block} (hb : b ∈ bs) : k ∉ b.printed := by
  obtain ⟨c, l, hc, hl⟩ := hs.exists_inlinable hk
  rw [Block.printed, List.mem_append, List.mem_append, not_or, not_or]
  refine ⟨⟨fun hn => ?_, fun hp => ?_⟩, fun hn => ?_⟩
  · obtain ⟨rfl, none⟩ := Block.of_subjectNames hn
    have := h.unnamed_of_key hs hb hk
    rw [none] at this
    exact List.not_mem_nil this
  · obtain ⟨t, ht, hp⟩ := List.mem_map.mp hp
    have hg := h.mem_graph_of_shown hs (List.mem_flatMap.mpr ⟨b, hb, ht⟩)
    obtain ⟨-, iri, -⟩ := Triple.of_isLegal (legal t hg)
    have blank : t.predicate.isBlank = true := hp ▸ hl.found.blank
    cases e : t.predicate with
    | iri v => simp [e, Node.isBlank] at blank
    | blank v => simp [e, Node.isIri] at iri
    | literal v => simp [e, Node.isIri] at iri
    | var v => simp [e, Node.isIri] at iri
  · exact h.not_objectName hs hk (List.mem_flatMap.mpr ⟨b, hb, hn⟩)

end IsLayout
end TripleStore.Turtle
