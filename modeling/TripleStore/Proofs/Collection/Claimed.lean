import TripleStore.Proofs.Collection.Lists

/-! # Claimed triples

The claims are made once and made anew whenever brackets are revoked, so that in the end they are those
of the collections that are left. -/
namespace TripleStore

namespace Analysis

/-- The claimed triples are the claims of the registered collections. -/
def IsCurrent (a : Analysis) : Prop := a.claimed = a.registry.claims

theorem claims_of_isEmpty {r : Registry} (h : r.isEmpty = true) : r.claims = [] := by
  rw [Registry.claims, List.isEmpty_iff.mp h]
  rfl

/-- Without collections the claims that were made before are kept, so there must be none. -/
theorem isCurrent_claim {a : Analysis} (h : a.registry.isEmpty = true → a.claimed = []) :
    a.claim.IsCurrent := by
  unfold claim
  split
  next empty => rw [IsCurrent, h empty, claims_of_isEmpty empty]
  next => rfl

theorem isCurrent_revoke (g : Graph) {a : Analysis} (h : a.IsCurrent) : (revoke g a).IsCurrent := by
  unfold revoke
  split
  · rfl
  · exact h

theorem HasCandidates.isCurrent {g : Graph} {mode : SearchMode} {b : Analysis}
    (h : HasCandidates g mode b) : (revoke g (claim (cleared g b))).IsCurrent :=
  isCurrent_revoke g (isCurrent_claim fun _ => h.claimed)

end Analysis

/-- A key is found in the graph: a list begins with a triple of its key, and brackets are put around blank
nodes of the graph. -/
theorem Graph.collections_key {g : Graph} {mode : SearchMode} {a : Analysis}
    (h : g.collections mode = .ok a) {k : Node} {c : Collection} (hk : a.registry.get? k = some c) :
    k ∈ g.blankNodes := by
  refine (Graph.collections_induction (P := fun k _ => k ∈ g.blankNodes) ?_ (fun _ hn => hn) h hk).1
  intro tail ht first firsts hw
  have part := walkList_isListPart ht hw
  have hg : first ∈ g.toList := part.claims_mem first (by rw [listClaims_cons]; exact List.mem_cons_self)
  exact Graph.mem_blankNodes.mpr ⟨part.blank first List.mem_cons_self, first, hg, .inl rfl⟩

/-- After an analysis the keys are blank nodes that are subjects or objects of the graph, the claimed
triples are those that the collections left in the registry claim, each once, and all of them, also the
`rdf:rest` triples of lists, belong to the graph. -/
theorem Graph.collections_claimed {g : Graph} {mode : SearchMode} {a : Analysis}
    (h : g.collections mode = .ok a) :
    (∀ k ∈ a.registry.keys, k.isBlank = true ∧ ∃ t ∈ g.toList, t.subject = k ∨ t.object = k) ∧
      a.claimed.Nodup ∧
      (∀ t, t ∈ a.claimed ↔ ∃ k c, a.registry.get? k = some c ∧ t ∈ c.claims) ∧
      ∀ t ∈ a.claimed, t ∈ g.toList := by
  have current : a.claimed = a.registry.claims := by
    obtain ⟨b, hb, rfl⟩ := Analysis.exists_candidates h
    exact hb.isCurrent
  refine ⟨fun k hk => ?_, ?_, fun t => ?_, fun t ht => ?_⟩
  · obtain ⟨c, hc⟩ := Registry.contains_iff.mp (Registry.mem_keys.mp hk)
    exact Graph.mem_blankNodes.mp (Graph.collections_key h hc)
  · rw [current]
    exact FirstOccurrences.nodup_eraseDups _
  · rw [current, Registry.mem_claims]
  · rw [current] at ht
    obtain ⟨k, c, hk, ht⟩ := Registry.mem_claims.mp ht
    exact (Graph.collections_found h hk).1.claims_mem t ht

/-- A list of two cells is kept, and the triple that links them is claimed. -/
theorem Graph.collections_claimed_link :
    ∃ a, crowdedList.collections .listsOnly = .ok a ∧
      (⟨.blank "k", .rdfRest, .blank "m"⟩ : Triple) ∈ a.claimed ∧ a.claimed ⊆ crowdedList.toList := by
  obtain ⟨a, found, kept⟩ := collections_crowdedList
  obtain ⟨-, -, claimed, graph⟩ := Graph.collections_claimed found
  exact ⟨a, found, (claimed _).mpr ⟨_, _, kept, by decide⟩, graph⟩

end TripleStore
