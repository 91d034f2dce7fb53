import TripleStore.Proofs.FirstOccurrences
import TripleStore.Proofs.Turtle.TreeNodes

/-! # The forest of settled collections

The analysis may leave collections that share triples, whose keys are mentioned in several places, or that
contain each other. Those that are settled hang in the graph like the trees of a forest. -/
namespace TripleStore.Turtle

/-- A collection can be written as the object of a triple, and bare brackets also as the subject. -/
structure IsPlace (k : Node) (c : Collection) (l : Triple) : Prop where
  bare : IsBare c → Xor (l.subject = k) (l.object = k)
  other : ¬ IsBare c → l.object = k ∧ l.subject ≠ k

/-- The collections of a registry hang in a graph by a single triple each, have no triple in common and
none is nested in itself. -/
structure IsForest (g : Graph) (r : Registry) : Prop where
  link : ∀ k c, r.get? k = some c →
    ∃ l, (∀ t, (t ∈ g.toList ∧ t.mentions k = true) ∧ t ∉ c.claims ↔ t = l) ∧ IsPlace k c l
  disjoint : ∀ k c k' c', r.get? k = some c → r.get? k' = some c' → k ≠ k' →
    c.claims.Disjoint c'.claims
  mem_graph : ∀ k c, r.get? k = some c → c.claims ⊆ g.toList
  /-- The claims of all collections, one after the other, are the claimed triples, each once. -/
  claims : (r.entries.flatMap fun e => e.2.claims).Perm r.claims
  acyclic : Acyclic r

theorem Inlinable.isPlace {g : Graph} {k : Node} {c : Collection} {l : Triple} (h : Inlinable g k c l) :
    IsPlace k c l where
  bare _ := h.place.elim (fun p => .inr p) fun p => .inl p.2
  other proper := h.place.resolve_right fun p => proper p.1

theorem Inlinable.link_iff {g : Graph} {k : Node} {c : Collection} {l : Triple} (h : Inlinable g k c l)
    (t : Triple) : (t ∈ g.toList ∧ t.mentions k = true) ∧ t ∉ c.claims ↔ t = l := by
  constructor
  · rintro ⟨⟨ht, mentioned⟩, unclaimed⟩
    exact (h.only t ht mentioned).resolve_right unclaimed
  · rintro rfl
    refine ⟨⟨h.mem, ?_⟩, h.unclaimed⟩
    rcases h.place with ⟨ho, -⟩ | ⟨-, hs, -⟩
    · simp [Triple.mentions, ho]
    · simp [Triple.mentions, hs]

namespace Settled
variable {g : Graph} {r : Registry}

theorem disjoint_claims (h : Settled g r) {k k' : Node} {c c' : Collection} (hk : r.get? k = some c)
    (hk' : r.get? k' = some c') (distinct : k ≠ k') : c.claims.Disjoint c'.claims :=
  fun _ ht ht' => distinct (h.eq_of_claim hk hk' ht ht')

theorem nodup_flatMap_claims (h : Settled g r) : (r.entries.flatMap fun e => e.2.claims).Nodup := by
  refine List.nodup_flatMap.mpr ⟨fun e he => ?_, ?_⟩
  · obtain ⟨l, hl⟩ := h.inlinable e.1 e.2 (Registry.mem_entries.mp he)
    exact hl.nodup_claims
  · refine (List.pairwise_map.mp r.nodup).imp_of_mem fun {e e'} he he' distinct => ?_
    exact h.disjoint_claims (Registry.mem_entries.mp he) (Registry.mem_entries.mp he') distinct

theorem isForest (h : Settled g r) : IsForest g r where
  link k c hk := by
    obtain ⟨l, hl⟩ := h.inlinable k c hk
    exact ⟨l, hl.link_iff, hl.isPlace⟩
  disjoint _ _ _ _ hk hk' distinct := h.disjoint_claims hk hk' distinct
  mem_graph k c hk t ht := by
    obtain ⟨l, hl⟩ := h.inlinable k c hk
    exact hl.found.claims_mem t ht
  claims := by
    refine (List.perm_ext_iff_of_nodup h.nodup_flatMap_claims
      (FirstOccurrences.nodup_eraseDups _)).mpr fun t => ?_
    exact List.mem_eraseDups.symm
  acyclic := h.acyclic

end Settled

/-- Whatever collections an analysis leaves, the settled ones are a forest. -/
theorem isForest_settle {g : Graph} {mode : SearchMode} {a : Analysis} (h : g.collections mode = .ok a) :
    IsForest g (settle g a.registry) :=
  (settled_settle h).isForest

/-- Three trees of a forest, nested in each other. -/
theorem isForest_settle_nested : ∃ a, nested.collections .all = .ok a ∧
    (∀ n ∈ nested.blankNodes, (settle nested a.registry).contains n = true) ∧
    IsForest nested (settle nested a.registry) := by
  obtain ⟨a, found⟩ := collections_nested
  refine ⟨a, found, fun n hn => ?_, isForest_settle found⟩
  exact contains_settle_of_treeNode (by decide) found (Graph.mem_blankNodes.mp hn).1
    (isTreeNode_nested n hn)

end TripleStore.Turtle
