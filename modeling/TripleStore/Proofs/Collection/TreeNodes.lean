import TripleStore.Proofs.Collection.Lists

/-! # Tree nodes

Blank nodes that hang in a graph as in a tree: mentioned once, or with properties and a single reference,
or as the only cell of a list with a single reference. The first phases of an analysis register empty
brackets, brackets around the properties, or a list of one item for them. -/
namespace TripleStore

/-- The triples with a node as their subject. -/
def Graph.own (g : Graph) (n : Node) : List Triple := g.toList.filter (·.subject = n)

theorem Graph.mem_own {g : Graph} {n : Node} {t : Triple} :
    t ∈ g.own n ↔ t ∈ g.toList ∧ t.subject = n := by
  simp [own]

/-- A single triple mentions the node, and only as its subject or only as its object. -/
structure IsSingleUse (g : Graph) (n : Node) (t : Triple) : Prop where
  mentions : ∀ u, u ∈ g.toList ∧ u.mentions n = true ↔ u = t
  place : Xor (t.subject = n) (t.object = n)

/-- The node has properties, is no cell, and a single triple refers to it. If this triple belongs to a
list, there are several properties. -/
structure IsOwner (g : Graph) (n : Node) (link : Triple) : Prop where
  acyclic : ¬ g.OnCycle n
  reference : ∀ u, u ∈ g.toList ∧ u.object = n ↔ u = link
  nonempty : g.own n ≠ []
  plain : ∀ t ∈ g.own n, t.predicate ≠ .rdfFirst ∧ t.predicate ≠ .rdfRest
  several : (link.predicate ≠ .rdfFirst ∧ link.predicate ≠ .rdfRest) ∨ 2 ≤ (g.own n).length

/-- The node is the only cell of a list. Besides the two triples of the cell a single triple mentions it,
as its object. -/
structure IsOnlyCell (g : Graph) (n item : Node) (link : Triple) : Prop where
  acyclic : ¬ g.OnCycle n
  mentions : ∀ u, u ∈ g.toList ∧ u.mentions n = true ↔
    u = ⟨n, .rdfFirst, item⟩ ∨ u = ⟨n, .rdfRest, .rdfNil⟩ ∨ u = link
  reference : link.object = n
  other : link.predicate ≠ .rdfRest

inductive IsTreeNode (g : Graph) (n : Node) : Prop
  | singleUse (t : Triple) (h : IsSingleUse g n t)
  | owner (link : Triple) (h : IsOwner g n link)
  | onlyCell (item : Node) (link : Triple) (h : IsOnlyCell g n item link)

theorem IsSingleUse.not_onCycle {g : Graph} {n : Node} {t : Triple} (h : IsSingleUse g n t) :
    ¬ g.OnCycle n := by
  intro cycle
  obtain ⟨u, hu, ho⟩ := Graph.exists_object_of_onCycle cycle
  obtain ⟨v, hv, hs⟩ := Graph.exists_subject_of_onCycle cycle
  obtain rfl := (h.mentions u).mp ⟨hu, by simp [Triple.mentions, ho]⟩
  obtain rfl := (h.mentions v).mp ⟨hv, by simp [Triple.mentions, hs]⟩
  exact h.place.elim (fun p => p.2 ho) fun p => p.2 hs

theorem IsTreeNode.not_onCycle {g : Graph} {n : Node} (h : IsTreeNode g n) : ¬ g.OnCycle n := by
  cases h with
  | singleUse t h => exact h.not_onCycle
  | owner link h => exact h.acyclic
  | onlyCell item link h => exact h.acyclic

open Analysis

section
variable {g : Graph} {b : Analysis} {n : Node}

/-- The first cell of a list is the subject of an `rdf:first` triple and of an `rdf:rest` triple. -/
theorem mem_of_walkList {tail : Node} (ht : tail ∈ tails g) {first : Triple} {firsts : List Triple}
    (hw : walkList g tail = .ok (some (first :: firsts))) :
    first ∈ g.toList ∧ first.predicate = .rdfFirst ∧
      (⟨first.subject, .rdfRest, listHead firsts⟩ : Triple) ∈ g.toList := by
  have part := walkList_isListPart ht hw
  have claims := part.claims_mem
  rw [listClaims_cons] at claims
  exact ⟨claims _ List.mem_cons_self, part.predicate first List.mem_cons_self,
    claims _ (List.mem_cons_of_mem _ List.mem_cons_self)⟩

/-! ### Nodes that are mentioned once -/

theorem IsSingleUse.candidate {t : Triple} (h : IsSingleUse g n t)
    (legal : ∀ t ∈ g.toList, t.isLegal = true) (blank : n.isBlank = true)
    (candidates : HasCandidates g .all b) : b.registry.get? n = some (.brackets []) := by
  obtain ⟨hg, hm⟩ := (h.mentions t).mpr rfl
  have node : n ∈ g.blankNodes := Graph.mem_blankNodes.mpr
    ⟨blank, t, hg, (Triple.mentions_iff_of_isLegal (legal t hg) blank).mp hm⟩
  have all : g.mentioning n = [t] := eq_singleton_of_nodup (g.nodup_mentioning n) fun u =>
    Graph.mem_mentioning.trans (h.mentions u)
  have nil : bracketTriples g n = [] := by
    have once : (g.mentioning n).length ≤ 1 := by simp [all]
    have few : (g.plainMentions n).length ≤ 1 := Nat.le_trans (List.length_filter_le _ _) once
    rw [bracketTriples_eq, if_pos few]
  rw [← nil]
  -- A first cell would be mentioned by two triples.
  refine candidates.get?_brackets node fun tail ht first firsts hw head => ?_
  obtain ⟨hf, item, hr⟩ := mem_of_walkList ht hw
  have first_eq : first = t := (h.mentions _).mp ⟨hf, by simp [Triple.mentions, head]⟩
  have rest_eq : _ = t := (h.mentions _).mp ⟨hr, by simp [Triple.mentions, head]⟩
  exact rdfRest_ne_rdfFirst ((congrArg Triple.predicate (rest_eq.trans first_eq.symm)).trans item)

/-! ### Nodes with properties -/

namespace IsOwner
variable {link : Triple} (h : IsOwner g n link)
include h

theorem object_ne {t : Triple} (ht : t ∈ g.own n) : t.object ≠ n := by
  obtain ⟨hg, hs⟩ := Graph.mem_own.mp ht
  exact Graph.ne_of_not_onCycle h.acyclic ⟨t, hg, hs, rfl⟩

theorem link_not_mem : link ∉ g.own n := fun hl => h.object_ne hl ((h.reference link).mpr rfl).2

theorem own_subset : g.own n ⊆ g.plainMentions n := by
  intro t ht
  obtain ⟨hg, hs⟩ := Graph.mem_own.mp ht
  have hm : t ∈ g.mentioning n := Graph.mem_mentioning.mpr ⟨hg, by simp [Triple.mentions, hs]⟩
  exact List.mem_filter.mpr ⟨hm, by simpa using h.plain t ht⟩

/-- Either the link counts beside the properties, or these are several. -/
theorem two_le_plainMentions : 2 ≤ (g.plainMentions n).length := by
  have nodup : (g.own n).Nodup := g.nodup.filter _
  rcases h.several with hp | several
  · obtain ⟨hg, ho⟩ := (h.reference link).mpr rfl
    have hm : link ∈ g.mentioning n := Graph.mem_mentioning.mpr ⟨hg, by simp [Triple.mentions, ho]⟩
    have hl : link ∈ g.plainMentions n := List.mem_filter.mpr ⟨hm, by simpa using hp⟩
    have counted := (List.subperm_of_subset (List.nodup_cons.mpr ⟨h.link_not_mem, nodup⟩)
      (List.cons_subset.mpr ⟨hl, h.own_subset⟩)).length_le
    have pos := List.length_pos_iff.mpr h.nonempty
    rw [List.length_cons] at counted
    omega
  · exact Nat.le_trans several (List.subperm_of_subset nodup h.own_subset).length_le

theorem mem_bracketTriples (legal : ∀ t ∈ g.toList, t.isLegal = true) (blank : n.isBlank = true)
    {t : Triple} : t ∈ bracketTriples g n ↔ t ∈ g.own n := by
  have single : g.withObject n = [link] := by
    rw [g.withObject_eq]
    exact eq_singleton_of_nodup (g.nodup.filter _) fun u => by simpa using h.reference u
  have several := h.two_le_plainMentions
  rw [bracketTriples_eq, if_neg (by omega), if_pos (by rw [single]; rfl), List.mem_filter]
  constructor
  · rintro ⟨hp, ho⟩
    have ho : t.object ≠ n := by simpa using ho
    exact Graph.mem_own.mpr
      ⟨(Graph.mem_plainMentions hp).1, subject_of_plainMention legal blank hp ho⟩
  · exact fun ht => ⟨h.own_subset ht, by simpa using h.object_ne ht⟩

theorem candidate (blank : n.isBlank = true) (candidates : HasCandidates g .all b) :
    b.registry.get? n = some (.brackets (bracketTriples g n)) := by
  obtain ⟨hg, ho⟩ := (h.reference link).mpr rfl
  have node : n ∈ g.blankNodes := Graph.mem_blankNodes.mpr ⟨blank, link, hg, .inr ho⟩
  refine candidates.get?_brackets node fun tail ht first firsts hw head => ?_
  obtain ⟨hf, item, -⟩ := mem_of_walkList ht hw
  exact (h.plain first (Graph.mem_own.mpr ⟨hf, head⟩)).1 item

end IsOwner

/-! ### Only cells -/

namespace IsOnlyCell
variable {item : Node} {link : Triple} (h : IsOnlyCell g n item link)
include h

theorem link_mem : link ∈ g.toList := ((h.mentions link).mpr (.inr (.inr rfl))).1

theorem subject_ne : link.subject ≠ n := fun hs =>
  Graph.ne_of_not_onCycle h.acyclic ⟨link, h.link_mem, hs, rfl⟩ h.reference

theorem withSubjectPredicate_eq : g.withSubjectPredicate n .rdfFirst = [⟨n, .rdfFirst, item⟩] := by
  rw [g.withSubjectPredicate_eq]
  refine eq_singleton_of_nodup (g.nodup.filter _) fun u => ?_
  simp only [List.mem_filter, Bool.and_eq_true, decide_eq_true_eq]
  constructor
  · rintro ⟨hu, hs, hp⟩
    rcases (h.mentions u).mp ⟨hu, by simp [Triple.mentions, hs]⟩ with rfl | rfl | rfl
    · rfl
    · exact absurd hp rdfRest_ne_rdfFirst
    · exact absurd hs h.subject_ne
  · rintro rfl
    exact ⟨((h.mentions _).mpr (.inl rfl)).1, rfl, rfl⟩

theorem withPredicateObject_eq (blank : n.isBlank = true) :
    g.withPredicateObject .rdfRest n = [] := by
  rw [g.withPredicateObject_eq, List.filter_eq_nil_iff]
  intro u hu linked
  obtain ⟨hp, ho⟩ : u.predicate = .rdfRest ∧ u.object = n := by simpa using linked
  rcases (h.mentions u).mp ⟨hu, by simp [Triple.mentions, ho]⟩ with rfl | rfl | rfl
  · exact absurd hp.symm rdfRest_ne_rdfFirst
  · exact ne_of_isBlank rfl blank ho
  · exact h.other hp

theorem walkList_eq (blank : n.isBlank = true) :
    walkList g n = .ok (some [⟨n, .rdfFirst, item⟩]) := by
  have cell : n ∈ ((g.withPredicate .rdfFirst).map Triple.subject).eraseDups := by
    rw [List.mem_eraseDups, g.withPredicate_eq]
    refine List.mem_map.mpr ⟨⟨n, .rdfFirst, item⟩, List.mem_filter.mpr ⟨?_, by simp⟩, rfl⟩
    exact ((h.mentions _).mpr (.inl rfl)).1
  rw [walkList, if_pos blank]
  exact walkFrom_head [] cell h.withSubjectPredicate_eq blank (h.withPredicateObject_eq blank)

theorem mem_tails : n ∈ tails g := by
  have rest := ((h.mentions _).mpr (.inr (.inl rfl))).1
  refine List.mem_map.mpr ⟨⟨n, .rdfRest, .rdfNil⟩, ?_, rfl⟩
  simpa [g.withPredicateObject_eq] using rest

/-- A further cell would be the object of a second `rdf:rest` triple. -/
theorem size_eq_one {c : Collection} (walked : IsWalked g n c) : c.size = 1 := by
  obtain ⟨first, firsts, hts, rfl⟩ := walked.head
  have part := walked.part
  rw [hts] at part
  cases firsts with
  | nil => rw [Collection.size, hts]; rfl
  | cons next firsts =>
    have linked : (⟨first.subject, .rdfRest, next.subject⟩ : Triple) ∈ g.toList :=
      part.claims_mem _ (List.mem_cons_of_mem _ List.mem_cons_self)
    have blank := part.blank next (List.mem_cons_of_mem _ List.mem_cons_self)
    rcases (h.mentions _).mp ⟨linked, by simp [Triple.mentions]⟩ with e | e | e
    · exact absurd (congrArg Triple.predicate e) rdfRest_ne_rdfFirst
    · exact absurd (congrArg Triple.object e).symm (ne_of_isBlank rfl blank)
    · exact absurd (congrArg Triple.predicate e).symm h.other

theorem countMentions_eq : g.countMentions n = 3 := by
  have other : link ≠ ⟨n, .rdfFirst, item⟩ ∧ link ≠ ⟨n, .rdfRest, .rdfNil⟩ :=
    ⟨fun e => h.subject_ne (e ▸ rfl), fun e => h.subject_ne (e ▸ rfl)⟩
  have nodup : [⟨n, .rdfFirst, item⟩, ⟨n, .rdfRest, .rdfNil⟩, link].Nodup := by
    simp [rdfRest_ne_rdfFirst.symm, other.1.symm, other.2.symm]
  refine ((List.perm_ext_iff_of_nodup (g.nodup_mentioning n) nodup).mpr fun u => ?_).length_eq
  rw [Graph.mem_mentioning, h.mentions u]
  simp

theorem candidate (blank : n.isBlank = true) (candidates : HasCandidates g .all b) :
    ∃ c, b.registry.get? n = some c ∧ c.form = .list ∧ IsWalked g n c :=
  candidates.exists_list h.mem_tails (h.walkList_eq blank)

end IsOnlyCell

end
end TripleStore
