import Mathlib.Data.List.Flatten
import TripleStore.Proofs.Turtle.Placement

/-! # The blocks of subjects

The blocks of the subjects of unclaimed triples hold these triples once, and of each collection that
stands inline in them the claims. So they hold no triple twice, and none that is not in the graph. -/
namespace TripleStore.Turtle

theorem forall_thread {α β σ : Type} {f : α → σ → β × σ} {I : σ → Prop} {P : β → Prop} {as : List α}
    (step : ∀ a ∈ as, ∀ s, I s → P (f a s).1 ∧ I (f a s).2) {s : σ} (hs : I s) :
    ∀ b ∈ (thread f as s).1, P b := by
  induction as generalizing s with
  | nil => exact fun b hb => absurd hb List.not_mem_nil
  | cons a as ih =>
    intro b hb
    obtain ⟨ha, hi⟩ := step a List.mem_cons_self s hs
    rcases List.mem_cons.mp hb with rfl | hb
    · exact ha
    · exact ih (fun a h => step a (List.mem_cons_of_mem _ h)) hi b hb

theorem not_unwritten_of_subject {n : Node} {r : Registry} {c : Collection} (hk : r.get? n = some c)
    (hc : IsBare c) : n ∉ (laySubject n r).2.unwritten := by
  rw [laySubject, hk]
  dsimp only
  split
  next h => simp [Registry.mem_unwritten, Registry.get?_markWritten hk]
  next h =>
    have : c.written = true := by simpa [hc.1, Collection.isEmpty, hc.2] using h
    simp [Registry.mem_unwritten, hk, this]

/-- What the block of a subject says. -/
structure IsBlockOf (g : Graph) (claimed : List Triple) (n : Node) (b : Block) : Prop where
  subject : b.subject = n
  direct : b.direct.Perm ((unclaimed g claimed).filter fun t => t.subject = n)

theorem layBlock_spec (g : Graph) (claimed : List Triple) (n : Node) {r : Registry} (hr : IsProper r) :
    IsBlockOf g claimed n (layBlock g claimed n r).1 ∧
      Laid r (layBlock g claimed n r).1.collections (layBlock g claimed n r).1.objectNames
        (layBlock g claimed n r).2 ∧
      ∀ c, r.get? n = some c → IsBare c → n ∉ (layBlock g claimed n r).2.unwritten := by
  have own : (g.withSubject n).filter (!claimed.contains ·) =
      (unclaimed g claimed).filter fun t => t.subject = n := by
    rw [g.withSubject_eq, unclaimed, List.filter_filter, List.filter_filter]
    simp only [Bool.and_comm]
  have about : ∀ t ∈ (unclaimed g claimed).filter fun t => t.subject = n, t.subject = n :=
    fun t ht => by simpa using (List.mem_filter.mp ht).2
  have props {r' : Registry} (hr' : IsProper r') :=
    (places_layObject r'.size).properties about hr' r'.length_unwritten_le
  have named (h : laySubject n r = (.named n, r)) : IsBlockOf g claimed n (layBlock g claimed n r).1 ∧
      Laid r (layBlock g claimed n r).1.collections (layBlock g claimed n r).1.objectNames
        (layBlock g claimed n r).2 ∧
      ∀ c, r.get? n = some c → IsBare c → n ∉ (layBlock g claimed n r).2.unwritten := by
    have hn {c : Collection} (hk : r.get? n = some c) (hc : IsBare c) :=
      not_unwritten_of_subject hk hc
    rw [h] at hn
    simp only [layBlock, h, own]
    obtain ⟨direct, laid⟩ := props hr
    exact ⟨⟨rfl, direct⟩, laid, fun c hk hc => laid.wrote.not_unwritten (hn hk hc)⟩
  cases hk : r.get? n with
  | none => exact hk ▸ named (by simp [laySubject, hk])
  | some c =>
    cases hc : c.form = .brackets && c.isEmpty && !c.written with
    | false => exact hk ▸ named (by simp [laySubject, hk, hc])
    | true =>
      have h : laySubject n r = (.anonymous n, (r.markWritten n).2) := by simp [laySubject, hk, hc]
      simp only [Bool.and_eq_true, decide_eq_true_eq, Bool.not_eq_true'] at hc
      obtain ⟨⟨hform, hempty⟩, hwritten⟩ := hc
      have empty : c.triples = [] := List.isEmpty_iff.mp hempty
      have wrote := wrote_markWritten hk hwritten
      obtain ⟨direct, laid⟩ := props (wrote.isProper hr)
      have shows : Shows c (.brackets []) :=
        .of_triples hform.symm (by rw [empty]; rfl) fun _ => by rw [empty]; rfl
      simp only [layBlock, h, own]
      refine ⟨⟨rfl, direct⟩, laid.cons hk hwritten shows, fun c' hk' _ => ?_⟩
      exact laid.wrote.not_unwritten (wrote.written List.mem_cons_self)

theorem laid_blocks (g : Graph) (claimed : List Triple) (ns : List Node) {r : Registry}
    (hr : IsProper r) :
    (thread (layBlock g claimed) ns r).1.map Block.subject = ns ∧
      Laid r ((thread (layBlock g claimed) ns r).1.flatMap Block.collections)
        ((thread (layBlock g claimed) ns r).1.flatMap Block.objectNames)
        (thread (layBlock g claimed) ns r).2 := by
  have step : ∀ n ∈ ns, ∀ r', IsProper r' → r'.unwritten.length ≤ r.unwritten.length →
      (layBlock g claimed n r').1.subject = id n ∧ Laid r' (layBlock g claimed n r').1.collections
        (layBlock g claimed n r').1.objectNames (layBlock g claimed n r').2 := by
    intro n _ r' hr' _
    obtain ⟨h, laid, -⟩ := layBlock_spec g claimed n hr'
    exact ⟨h.subject, laid⟩
  have := laid_thread step hr le_rfl
  rwa [List.map_id] at this

/-- A subject whose collection is bare is written in its block, unless it has been written before. -/
theorem not_unwritten_of_bare {g : Graph} {claimed : List Triple} {ns : List Node} {n : Node}
    (hn : n ∈ ns) {r : Registry} (hr : IsProper r) {c : Collection} (hk : r.get? n = some c)
    (hc : IsBare c) : n ∉ (thread (layBlock g claimed) ns r).2.unwritten := by
  induction ns generalizing r c with
  | nil => exact absurd hn List.not_mem_nil
  | cons m ns ih =>
    obtain ⟨-, laid, bare⟩ := layBlock_spec g claimed m hr
    have hr' := laid.wrote.isProper hr
    rcases List.mem_cons.mp hn with rfl | hn
    · exact (laid_blocks g claimed ns hr').2.wrote.not_unwritten (bare c hk hc)
    · obtain ⟨c', hk', form, triples⟩ := laid.wrote.get?_left hk
      exact ih hn hr' hk' ⟨form.trans hc.1, triples.trans hc.2⟩

/-- What the blocks of all subjects say, and what they leave. -/
structure IsLayout (g : Graph) (r : Registry) (bs : List Block) (r' : Registry) : Prop where
  subjects : bs.map Block.subject = ((unclaimed g r.claims).map Triple.subject).eraseDups
  block : ∀ b ∈ bs, b.direct.Perm ((unclaimed g r.claims).filter fun t => t.subject = b.subject)
  laid : Laid r (bs.flatMap Block.collections) (bs.flatMap Block.objectNames) r'
  bare : ∀ b ∈ bs, ∀ c, r.get? b.subject = some c → IsBare c → b.subject ∉ r'.unwritten

theorem isLayout_laySubjects {g : Graph} {r : Registry} (hr : IsProper r) :
    IsLayout g r (laySubjects g r).1 (laySubjects g r).2 := by
  obtain ⟨subjects, laid⟩ :=
    laid_blocks g r.claims ((unclaimed g r.claims).map Triple.subject).eraseDups hr
  refine ⟨subjects, ?_, laid, fun b hb c hk hc => ?_⟩
  · refine forall_thread (I := IsProper) (fun n _ r' hr' => ?_) hr
    obtain ⟨h, laid, -⟩ := layBlock_spec g r.claims n hr'
    exact ⟨h.subject.symm ▸ h.direct, laid.wrote.isProper hr'⟩
  · exact not_unwritten_of_bare (subjects ▸ List.mem_map_of_mem hb) hr hk hc

namespace IsLayout
variable {g : Graph} {r r' : Registry} {bs : List Block}

theorem direct_perm (h : IsLayout g r bs r') :
    (bs.flatMap Block.direct).Perm (unclaimed g r.claims) := by
  refine (List.Perm.flatMap_left bs h.block).trans ?_
  have := FirstOccurrences.groupBy_perm Triple.subject (unclaimed g r.claims)
  rwa [← h.subjects, List.flatMap_map] at this

theorem nodup_subjects (h : IsLayout g r bs r') : (bs.map Block.subject).Nodup :=
  h.subjects ▸ FirstOccurrences.nodup_eraseDups _

theorem nodup_keys (h : IsLayout g r bs r') :
    ((bs.flatMap Block.collections).map Prod.fst).Nodup :=
  (List.nodup_append.mp (h.laid.wrote.unwritten.nodup_iff.mp r.nodup_unwritten)).1

theorem mem_claims_of_shown (h : IsLayout g r bs r') {e : Node × Collection}
    (he : e ∈ bs.flatMap Block.collections) {t : Triple} (ht : t ∈ e.2.claims) : t ∈ r.claims := by
  obtain ⟨c, hk, shows⟩ := h.laid.shows e he
  exact Registry.mem_claims.mpr ⟨e.1, c, hk, shows.claims.mem_iff.mp ht⟩

theorem nodup_claims (h : IsLayout g r bs r') (hs : Settled g r) :
    ((bs.flatMap Block.collections).flatMap fun e => e.2.claims).Nodup := by
  refine List.nodup_flatMap.mpr ⟨fun e he => ?_, ?_⟩
  · obtain ⟨c, hk, shows⟩ := h.laid.shows e he
    obtain ⟨l, hl⟩ := hs.inlinable e.1 c hk
    exact shows.claims.nodup_iff.mpr hl.nodup_claims
  · refine (List.pairwise_map.mp h.nodup_keys).imp_of_mem fun {e e'} he he' hne t ht ht' => ?_
    obtain ⟨c, hk, shows⟩ := h.laid.shows e he
    obtain ⟨c', hk', shows'⟩ := h.laid.shows e' he'
    exact hne (hs.eq_of_claim hk hk' (shows.claims.mem_iff.mp ht) (shows'.claims.mem_iff.mp ht'))

theorem nodup_triples (h : IsLayout g r bs r') (hs : Settled g r) :
    (bs.flatMap Block.triples).Nodup := by
  refine (flatMap_triples_perm bs).nodup_iff.mpr (List.nodup_append.mpr ⟨?_, h.nodup_claims hs, ?_⟩)
  · exact h.direct_perm.nodup_iff.mpr (g.nodup.filter _)
  · rintro t ht t' ht' rfl
    obtain ⟨e, he, ht'⟩ := List.mem_flatMap.mp ht'
    have : t ∉ r.claims := by simpa using (List.mem_filter.mp (h.direct_perm.mem_iff.mp ht)).2
    exact this (h.mem_claims_of_shown he ht')

theorem mem_graph_of_claims (hs : Settled g r) {t : Triple} (ht : t ∈ r.claims) : t ∈ g.toList := by
  obtain ⟨k, c, hk, ht⟩ := Registry.mem_claims.mp ht
  obtain ⟨l, hl⟩ := hs.inlinable k c hk
  exact hl.found.claims_mem t ht

theorem mem_graph (h : IsLayout g r bs r') (hs : Settled g r) {t : Triple}
    (ht : t ∈ bs.flatMap Block.triples) : t ∈ g.toList := by
  rcases List.mem_append.mp ((flatMap_triples_perm bs).mem_iff.mp ht) with ht | ht
  · exact (List.mem_filter.mp (h.direct_perm.mem_iff.mp ht)).1
  · obtain ⟨e, he, ht⟩ := List.mem_flatMap.mp ht
    exact mem_graph_of_claims hs (h.mem_claims_of_shown he ht)

theorem object_not_unwritten (h : IsLayout g r bs r') {t : Triple} (ht : t ∈ bs.flatMap Block.shown) :
    t.object ∉ r'.unwritten := by
  have : t.object ∈ bs.flatMap Block.objectNames ++ (bs.flatMap Block.collections).map Prod.fst :=
    (flatMap_objects_perm bs).mem_iff.mp (List.mem_append_right _ (List.mem_map_of_mem ht))
  rcases List.mem_append.mp this with hn | hk
  · exact h.laid.named _ hn
  · exact h.laid.wrote.written hk

theorem mem_shown_of_key {k : Node} {d : Collection} (he : (k, d) ∈ bs.flatMap Block.collections)
    {t : Triple} (ht : t ∈ d.triples) : t ∈ bs.flatMap Block.shown := by
  obtain ⟨b, hb, he⟩ := List.mem_flatMap.mp he
  exact List.mem_flatMap.mpr
    ⟨b, hb, List.mem_append_right _ (List.mem_flatMap.mpr ⟨(k, d), he, ht⟩)⟩

end IsLayout
end TripleStore.Turtle
