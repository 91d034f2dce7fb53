import TripleStore.Collection.Analysis
import TripleStore.Proofs.Collection.Claims
import TripleStore.Proofs.Graph.Matching

/-! # Found collections

What every collection of an analysis has in common, whichever phases have dropped others: its key is a
blank node, its claims are triples of the graph, and lists and brackets never claim the same triple. -/
namespace TripleStore

theorem exists_of_map_eq_ok {ε α β : Type} {f : α → β} {x : Except ε α} {b : β}
    (h : x.map f = .ok b) : ∃ a, x = .ok a ∧ f a = b := by
  cases x with
  | error e => simp [Except.map] at h
  | ok a => exact ⟨a, rfl, Except.ok.inj h⟩

theorem map_congr_of_ok {ε α β : Type} {f f' : α → β} {x : Except ε α}
    (h : ∀ a, x = .ok a → f a = f' a) : x.map f = x.map f' := by
  cases x with
  | error e => rfl
  | ok a => exact congrArg Except.ok (h a rfl)

/-- A collection of a key as the first phases register it. -/
structure Found (g : Graph) (k : Node) (c : Collection) : Prop where
  blank : k.isBlank = true
  unwritten : c.written = false
  claims_mem : ∀ t ∈ c.claims, t ∈ g.toList
  brackets : c.form = .brackets → c.triples.Nodup ∧
    ∀ t ∈ c.triples, t.predicate ≠ .rdfFirst ∧ t.predicate ≠ .rdfRest
  list : c.form = .list → ∃ first firsts, c.triples = first :: firsts ∧ first.subject = k ∧
    ∀ t ∈ c.triples, t.predicate = .rdfFirst

/-- Some `rdf:first` triples of blank cells with the `rdf:rest` triples between them and behind them. -/
structure IsListPart (g : Graph) (ts : List Triple) : Prop where
  claims_mem : ∀ t ∈ Collection.listClaims ts, t ∈ g.toList
  predicate : ∀ t ∈ ts, t.predicate = .rdfFirst
  blank : ∀ t ∈ ts, t.subject.isBlank = true

theorem IsListPart.cons {g : Graph} {ts : List Triple} (h : IsListPart g ts) {first : Triple}
    (hg : first ∈ g.toList) (hp : first.predicate = .rdfFirst) (hb : first.subject.isBlank = true)
    (hl : (⟨first.subject, .rdfRest, listHead ts⟩ : Triple) ∈ g.toList) :
    IsListPart g (first :: ts) := by
  refine ⟨fun t ht => ?_, fun t ht => ?_, fun t ht => ?_⟩
  · rw [listClaims_cons] at ht
    rcases List.mem_cons.mp ht with rfl | ht
    · exact hg
    · rcases List.mem_cons.mp ht with rfl | ht
      · exact hl
      · exact h.claims_mem t ht
  · rcases List.mem_cons.mp ht with rfl | ht
    · exact hp
    · exact h.predicate t ht
  · rcases List.mem_cons.mp ht with rfl | ht
    · exact hb
    · exact h.blank t ht

theorem of_withSubjectPredicate_eq {g : Graph} {s p : Node} {t : Triple}
    (h : g.withSubjectPredicate s p = [t]) : t ∈ g.toList ∧ t.subject = s ∧ t.predicate = p := by
  have : t ∈ g.withSubjectPredicate s p := h ▸ List.mem_singleton_self t
  simpa [g.withSubjectPredicate_eq] using this

theorem of_withPredicateObject_eq {g : Graph} {p o : Node} {t : Triple}
    (h : g.withPredicateObject p o = [t]) : t ∈ g.toList ∧ t.predicate = p ∧ t.object = o := by
  have : t ∈ g.withPredicateObject p o := h ▸ List.mem_singleton_self t
  simpa [g.withPredicateObject_eq] using this

/-- A walk that has found a part of a list and stands at the cell before it finds a list. -/
theorem walkFrom_isListPart {g : Graph} {left : List Node} {cell : Node} {found firsts : List Triple}
    (hf : IsListPart g found)
    (hl : (⟨cell, .rdfRest, listHead found⟩ : Triple) ∈ g.toList)
    (h : walkFrom g left cell found = .ok (some firsts)) : IsListPart g firsts := by
  fun_induction walkFrom g left cell found with
  | case1 left cell found hc hn => simp at h
  | case2 left cell found hc a b rest hn => simp at h
  | case3 left cell found hc first hfirst hb hn =>
    obtain ⟨hg, hs⟩ := of_withSubjectPredicate_eq hfirst
    obtain rfl : first :: found = firsts := by simpa using h
    exact hf.cons hg hs.2 (hs.1 ▸ hb) (hs.1 ▸ hl)
  | case4 left cell found hc first hfirst hb previous hp ih =>
    obtain ⟨hg, hs⟩ := of_withSubjectPredicate_eq hfirst
    obtain ⟨hg', hp', ho'⟩ := of_withPredicateObject_eq hp
    refine ih (hf.cons hg hs.2 (hs.1 ▸ hb) (hs.1 ▸ hl)) ?_ h
    rw [listHead, hs.1, ← hp', ← ho']
    exact hg'
  | case5 => simp at h
  | case6 => simp at h
  | case7 => simp at h

theorem walkList_isListPart {g : Graph} {tail : Node} {firsts : List Triple}
    (ht : tail ∈ Analysis.tails g) (h : walkList g tail = .ok (some firsts)) :
    IsListPart g firsts := by
  obtain ⟨t, hm, rfl⟩ := List.mem_map.mp ht
  obtain ⟨hg, hp, ho⟩ : t ∈ g.toList ∧ t.predicate = .rdfRest ∧ t.object = .rdfNil := by
    simpa [g.withPredicateObject_eq] using hm
  unfold walkList at h
  split at h
  · refine walkFrom_isListPart ⟨by simp [Collection.listClaims], by simp, by simp⟩ ?_ h
    rw [listHead, ← hp, ← ho]
    exact hg
  · simp at h

theorem found_list {g : Graph} {first : Triple} {firsts : List Triple}
    (h : IsListPart g (first :: firsts)) : Found g first.subject (.list (first :: firsts)) where
  blank := h.blank first List.mem_cons_self
  unwritten := rfl
  claims_mem := h.claims_mem
  brackets := by simp [Collection.list]
  list _ := ⟨first, firsts, rfl, rfl, h.predicate⟩

namespace Analysis

/-- All collections of a registry have a property. -/
def EachHas (P : Node → Collection → Prop) (r : Registry) : Prop := ∀ k c, r.get? k = some c → P k c

section
variable {P : Node → Collection → Prop} {g : Graph} {r : Registry}

theorem EachHas.insert (h : EachHas P r) {k : Node} {c : Collection} (hc : P k c) :
    EachHas P (r.insert k c).2 := by
  intro k' c' hk
  rw [Registry.get?_insert] at hk
  split at hk
  next e => exact e ▸ Option.some.inj hk ▸ hc
  next => exact h k' c' hk

theorem eachHas_addLists {tails : List Node} {r' : Registry} (h : EachHas P r)
    (list : ∀ tail ∈ tails, ∀ first firsts, walkList g tail = .ok (some (first :: firsts)) →
      P first.subject (.list (first :: firsts)))
    (hr : addLists g r tails = .ok r') : EachHas P r' := by
  induction tails generalizing r with
  | nil =>
    obtain rfl : r = r' := by simpa [addLists] using hr
    exact h
  | cons tail tails ih =>
    have rest := fun t hm => list t (List.mem_cons_of_mem _ hm)
    unfold addLists at hr
    split at hr
    · simp at hr
    · exact ih h rest hr
    next firsts hw =>
      refine ih ?_ rest hr
      cases firsts with
      | nil => exact h
      | cons first firsts =>
        rw [addList]
        split
        · exact h
        · exact h.insert (list tail List.mem_cons_self first firsts hw)

/-- The keys are the first cells of the lists that are walked to. -/
theorem contains_addLists {tails : List Node} {r' : Registry} (hr : addLists g r tails = .ok r')
    (k : Node) : r'.contains k = true ↔ r.contains k = true ∨ ∃ tail ∈ tails, ∃ first firsts,
      walkList g tail = .ok (some (first :: firsts)) ∧ first.subject = k := by
  induction tails generalizing r with
  | nil =>
    obtain rfl : r = r' := by simpa [addLists] using hr
    simp
  | cons tail tails ih =>
    unfold addLists at hr
    split at hr
    · simp at hr
    next hw => simp [ih hr, hw]
    next firsts hw =>
      rw [ih hr]
      cases firsts with
      | nil => simp [addList, hw]
      | cons first firsts =>
        have added : (addList r (first :: firsts)).contains k = true ↔
            r.contains k = true ∨ first.subject = k := by
          rw [addList]
          split
          next old => exact ⟨.inl, fun h => h.elim id fun e => e ▸ old⟩
          next =>
            rw [Registry.contains, Registry.get?_insert]
            split
            next e => simp [e]
            next ne => simp [Registry.contains, Ne.symm ne]
        simp [added, hw, or_assoc]

/-- Every blank node that is not registered gets brackets; what is registered stays. -/
theorem get?_findBrackets (g : Graph) (a : Analysis) (k : Node) :
    (findBrackets g a).registry.get? k =
      (a.registry.get? k).or
        (if k ∈ g.blankNodes then some (.brackets (bracketTriples g k)) else none) := by
  have step (ns : List Node) (r : Registry) : (ns.foldl (fun r n =>
      if r.contains n then r else (r.insert n (.brackets (bracketTriples g n))).2) r).get? k =
      (r.get? k).or (if k ∈ ns then some (.brackets (bracketTriples g k)) else none) := by
    induction ns generalizing r with
    | nil => simp
    | cons n ns ih =>
      rw [List.foldl_cons, ih]
      by_cases hn : r.contains n = true
      · rw [if_pos hn]
        rcases eq_or_ne k n with rfl | hne
        · obtain ⟨c, hc⟩ := Registry.contains_iff.mp hn
          simp [hc]
        · simp [hne]
      · have none : r.get? n = none := by simpa [Registry.contains] using hn
        rw [if_neg hn, Registry.get?_insert]
        rcases eq_or_ne k n with rfl | hne
        · simp [none]
        · simp [hne]
  exact step g.blankNodes a.registry

theorem eachHas_findBrackets {a : Analysis} (h : EachHas P a.registry)
    (brackets : ∀ n ∈ g.blankNodes, P n (.brackets (bracketTriples g n))) :
    EachHas P (findBrackets g a).registry := by
  intro k c hk
  rw [get?_findBrackets] at hk
  rcases Option.or_eq_some_iff.mp hk with hk | ⟨-, hk⟩
  · exact h k c hk
  · split at hk
    next hb => exact Option.some.inj hk ▸ brackets k hb
    next => simp at hk

end

theorem found_brackets {g : Graph} {n : Node} (hn : n.isBlank = true) :
    Found g n (.brackets (bracketTriples g n)) := by
  have sub : ∀ t ∈ bracketTriples g n, t ∈ (g.mentioning n).filter fun t =>
      t.predicate ≠ .rdfFirst && t.predicate ≠ .rdfRest := by
    intro t ht
    dsimp only [bracketTriples] at ht
    split at ht
    · simp at ht
    · split at ht
      · exact (List.mem_filter.mp ht).1
      · exact ht
  have nodup : (bracketTriples g n).Nodup := by
    dsimp only [bracketTriples]
    split
    · exact .nil
    · split
      · exact ((g.nodup_mentioning n).filter _).filter _
      · exact (g.nodup_mentioning n).filter _
  refine ⟨hn, rfl, fun t ht => ?_, fun _ => ⟨nodup, fun t ht => ?_⟩, by simp [Collection.brackets]⟩
  · exact (Graph.mem_mentioning.mp (List.mem_filter.mp (sub t ht)).1).1
  · simpa using (List.mem_filter.mp (sub t ht)).2

theorem run_eq (g : Graph) (mode : SearchMode) (a : Analysis) :
    run g mode a = (if mode.includesLists then findLists g a else .ok a).map fun b =>
      revoke g (claim (dropCyclic (dropIneligible g
        (if mode.includesBrackets then findBrackets g b else b)))) := by
  unfold run
  cases mode.includesLists with
  | true => cases findLists g a <;> rfl
  | false => rfl

theorem claim_registry (a : Analysis) : a.claim.registry = a.registry := by
  unfold claim
  split <;> rfl

theorem get?_revoke {g : Graph} {a : Analysis} {k : Node} {c : Collection} :
    (revoke g a).registry.get? k = some c ↔
      a.registry.get? k = some c ∧ isOverused g a.claimed k c = false := by
  unfold revoke
  split
  · rw [Registry.get?_filter_eq_some, Bool.not_eq_true']
  next none =>
    refine ⟨fun hk => ⟨hk, ?_⟩, And.left⟩
    rw [List.any_eq_true] at none
    by_contra overused
    exact none ⟨(k, c), Registry.mem_entries.mpr hk, by simpa using overused⟩

/-- The candidates that are eligible and are not found to depend on themselves. -/
def cleared (g : Graph) (a : Analysis) : Analysis := dropCyclic (dropIneligible g a)

theorem get?_cleared {g : Graph} {a : Analysis} {k : Node} {c : Collection} :
    (cleared g a).registry.get? k = some c ↔
      (a.registry.get? k = some c ∧ isEligible g k c = true) ∧
        k ∉ cyclicKeys (dropIneligible g a).registry := by
  rw [cleared, dropCyclic, Registry.get?_without, dropIneligible, Registry.get?_filter_eq_some]

/-- What the first phases register, before anything is dropped. -/
structure HasCandidates (g : Graph) (mode : SearchMode) (b : Analysis) : Prop where
  claimed : b.claimed = []
  found : ∃ l, (if mode.includesLists then findLists g start else .ok start) = .ok l ∧
    b = if mode.includesBrackets then findBrackets g l else l

/-- A property of all lists that are walked to and of all brackets that are put around a blank node is a
property of all candidates. -/
theorem HasCandidates.eachHas {P : Node → Collection → Prop} {g : Graph} {mode : SearchMode}
    {b : Analysis} (h : HasCandidates g mode b)
    (list : ∀ tail ∈ tails g, ∀ first firsts, walkList g tail = .ok (some (first :: firsts)) →
      P first.subject (.list (first :: firsts)))
    (brackets : ∀ n ∈ g.blankNodes, P n (.brackets (bracketTriples g n))) : EachHas P b.registry := by
  obtain ⟨l, hl, rfl⟩ := h.found
  have none : EachHas P start.registry := fun k c hk => by simp [start] at hk
  have lists : EachHas P l.registry := by
    split at hl
    · obtain ⟨r, hr, rfl⟩ := exists_of_map_eq_ok hl
      exact eachHas_addLists none list hr
    · exact Except.ok.inj hl ▸ none
  split
  · exact eachHas_findBrackets lists brackets
  · exact lists

/-- With lists and brackets, the candidates are the lists, and brackets for all other blank nodes. -/
theorem HasCandidates.get?_all {g : Graph} {b : Analysis} (h : HasCandidates g .all b) :
    ∃ l, addLists g .empty (tails g) = .ok l ∧ ∀ k, b.registry.get? k =
      (l.get? k).or (if k ∈ g.blankNodes then some (.brackets (bracketTriples g k)) else none) := by
  obtain ⟨l, hl, rfl⟩ := h.found
  obtain ⟨r, hr, rfl⟩ := exists_of_map_eq_ok hl
  exact ⟨r, hr, get?_findBrackets g _⟩

/-- An analysis finds candidates, clears them, lets them claim their triples and revokes some. -/
theorem exists_candidates {g : Graph} {mode : SearchMode} {a : Analysis}
    (h : g.collections mode = .ok a) :
    ∃ b, HasCandidates g mode b ∧ a = revoke g (claim (cleared g b)) := by
  rw [Graph.collections, run_eq] at h
  obtain ⟨l, hl, rfl⟩ := exists_of_map_eq_ok h
  refine ⟨_, ⟨?_, l, hl, rfl⟩, rfl⟩
  have claimed : l.claimed = [] := by
    split at hl
    · obtain ⟨r, -, rfl⟩ := exists_of_map_eq_ok hl
      rfl
    · exact Except.ok.inj hl ▸ rfl
  split
  · exact claimed
  · exact claimed

end Analysis

open Analysis in
/-- What all candidates have in common, all collections of an analysis have. Each of these is eligible. -/
theorem Graph.collections_induction {P : Node → Collection → Prop} {g : Graph}
    (list : ∀ tail ∈ tails g, ∀ first firsts, walkList g tail = .ok (some (first :: firsts)) →
      P first.subject (.list (first :: firsts)))
    (brackets : ∀ n ∈ g.blankNodes, P n (.brackets (bracketTriples g n)))
    {mode : SearchMode} {a : Analysis} (h : g.collections mode = .ok a) {k : Node} {c : Collection}
    (hk : a.registry.get? k = some c) : P k c ∧ isEligible g k c = true := by
  obtain ⟨b, hb, rfl⟩ := exists_candidates h
  rw [get?_revoke, claim_registry, get?_cleared] at hk
  exact ⟨hb.eachHas list brackets k c hk.1.1.1, hk.1.1.2⟩

/-- Every collection of an analysis has been found, and is eligible. -/
theorem Graph.collections_found {g : Graph} {mode : SearchMode} {a : Analysis}
    (h : g.collections mode = .ok a) {k : Node} {c : Collection} (hk : a.registry.get? k = some c) :
    Found g k c ∧ Analysis.isEligible g k c = true :=
  Graph.collections_induction
    (fun _ ht _ _ hw => found_list (walkList_isListPart ht hw))
    (fun _ hn => Analysis.found_brackets (Graph.mem_blankNodes.mp hn).1) h hk

end TripleStore
