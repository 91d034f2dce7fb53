import TripleStore.Proofs.Collection.Compressible
import TripleStore.Proofs.Graph.Paths

/-! # Dependencies

The lists of dependencies hold nothing but what a key depends on, directly or through others, also after
they have been extended. Dependencies follow paths of the graph. So only keys on a cycle of the graph are
dropped as cyclic. -/
namespace TripleStore

/-- The `rdf:rest` triples that a list claims lead from its first cell to every other. -/
theorem path_to_cell {g : Graph} {ts : List Triple}
    (claims : ∀ t ∈ Collection.listClaims ts, t ∈ g.toList) :
    ∀ t ∈ ts, Relation.ReflTransGen g.Edge (listHead ts) t.subject := by
  induction ts with
  | nil => exact fun t ht => absurd ht List.not_mem_nil
  | cons u us ih =>
    rw [listClaims_cons] at claims
    have link : (⟨u.subject, .rdfRest, listHead us⟩ : Triple) ∈ g.toList :=
      claims _ (List.mem_cons_of_mem _ List.mem_cons_self)
    intro t ht
    rcases List.mem_cons.mp ht with rfl | ht
    · exact .refl
    · have rest := ih (fun v hv => claims v (List.mem_cons_of_mem _ (List.mem_cons_of_mem _ hv))) t ht
      have edge : g.Edge u.subject (listHead us) := Graph.edge_of_mem link
      exact .head edge rest

namespace Analysis

/-- A collection of the first key has the second one among its dependencies. -/
def DependsOn (r : Registry) (k d : Node) : Prop := ∃ c, r.get? k = some c ∧ d ∈ dependencies r k c

theorem mem_dependencies {r : Registry} {k d : Node} {c : Collection} :
    d ∈ dependencies r k c ↔ d ∈ c.items ∧ d.isBlank = true ∧ d ≠ k ∧ r.contains d = true := by
  simp only [dependencies, List.mem_filter, Bool.and_eq_true, decide_eq_true_eq, and_assoc]

/-- The members of each list are reached from the key of the list. -/
def AreReached (r : Registry) (es : List (Node × List Node)) : Prop :=
  ∀ e ∈ es, ∀ d ∈ e.2, Relation.TransGen (DependsOn r) e.1 d

section
variable {r : Registry}

theorem areReached_dependencyLists : AreReached r (dependencyLists r) := by
  intro e he d hd
  obtain ⟨f, hf, rfl⟩ := List.mem_map.mp (List.mem_filter.mp he).1
  have hr : r.get? f.1 = some f.2 := Registry.mem_entries.mp (List.mem_mergeSort.mp hf)
  exact .single ⟨f.2, hr, hd⟩

theorem areReached_extendLists {done rest : List (Node × List Node)}
    (h : AreReached r (done ++ rest)) : AreReached r (extendLists done rest) := by
  induction rest generalizing done with
  | nil => simpa [extendLists] using h
  | cons e rest ih =>
    obtain ⟨k, ds⟩ := e
    have direct : ∀ d ∈ ds, Relation.TransGen (DependsOn r) k d :=
      h (k, ds) (List.mem_append_right _ List.mem_cons_self)
    -- What is added is reached from a member, which is reached from the key.
    have added : ∀ d ∈ ds.flatMap fun d => (List.lookup d (done ++ (k, ds) :: rest)).getD [],
        Relation.TransGen (DependsOn r) k d := by
      intro d hd
      obtain ⟨m, hm, hd⟩ := List.mem_flatMap.mp hd
      cases hl : List.lookup m (done ++ (k, ds) :: rest) with
      | none => simp [hl] at hd
      | some ms =>
        rw [hl, Option.getD_some] at hd
        exact (direct m hm).trans (h (m, ms) (Association.mem_of_lookup_eq_some hl) d hd)
    rw [extendLists]
    refine ih fun e he => ?_
    rw [List.append_assoc, List.singleton_append] at he
    rcases List.mem_append.mp he with he | he
    · exact h e (List.mem_append_left _ he)
    · rcases List.mem_cons.mp he with rfl | he
      · exact fun d hd => (List.mem_append.mp hd).elim (direct d) (added d)
      · exact h e (List.mem_append_right _ (List.mem_cons_of_mem _ he))

theorem transGen_of_mem_cyclicKeys {k : Node} (h : k ∈ cyclicKeys r) :
    Relation.TransGen (DependsOn r) k k := by
  obtain ⟨e, he, rfl⟩ := List.mem_map.mp h
  obtain ⟨he, own⟩ := List.mem_filter.mp he
  have reached : AreReached r (extendLists [] (dependencyLists r)) :=
    @areReached_extendLists r [] _ areReached_dependencyLists
  exact reached e he e.1 (by simpa using own)

end

section
variable {g : Graph} {mode : SearchMode} {b : Analysis} {k : Node}

/-- A path of the graph leads from the key of a candidate to each of its items, its own key apart. -/
theorem HasCandidates.path_to_item (legal : ∀ t ∈ g.toList, t.isLegal = true)
    (h : HasCandidates g mode b) {c : Collection} (hk : b.registry.get? k = some c) {t : Triple}
    (ht : t ∈ c.triples) (ho : t.object ≠ k) : Relation.TransGen g.Edge k t.object := by
  refine h.eachHas (P := fun k c => ∀ t ∈ c.triples, t.object ≠ k →
    Relation.TransGen g.Edge k t.object) ?_ ?_ k c hk t ht ho
  · intro tail htail first firsts hw t ht _
    have part := walkList_isListPart htail hw
    have hg : t ∈ g.toList := part.claims_mem t ((triples_sublist_claims (.list _)).subset ht)
    exact .tail' (path_to_cell part.claims_mem t ht) (Graph.edge_of_mem hg)
  · intro n hn t ht ho
    have plain := (bracketTriples_sublist g n).subset ht
    have blank := (Graph.mem_blankNodes.mp hn).1
    obtain rfl := subject_of_plainMention legal blank plain ho
    exact .single (Graph.edge_of_mem (Graph.mem_plainMentions plain).1)

theorem HasCandidates.onCycle (legal : ∀ t ∈ g.toList, t.isLegal = true)
    (h : HasCandidates g mode b) (hk : k ∈ cyclicKeys (dropIneligible g b).registry) :
    g.OnCycle k := by
  have path {x y : Node} : DependsOn (dropIneligible g b).registry x y →
      Relation.TransGen g.Edge x y := by
    rintro ⟨c, hc, hd⟩
    obtain ⟨item, -, other, -⟩ := mem_dependencies.mp hd
    obtain ⟨t, ht, rfl⟩ := List.mem_map.mp item
    exact h.path_to_item legal (Registry.get?_filter_eq_some.mp hc).1 ht other
  exact Relation.TransGen.closed (fun _ _ => path) k k (transGen_of_mem_cyclicKeys hk)

end
end Analysis
end TripleStore
