import Mathlib.Data.List.Perm.Subperm
import TripleStore.Proofs.Collection.Found

/-! # Compressible brackets

Brackets are compressible when they hold properties of their node only and one further triple mentions
the node, so that they can be written once in its place. The analysis leaves the triples of lists out of
brackets but does not ask whether they mention the node; the main statement says exactly which of the
brackets that it finds are compressible. -/
namespace TripleStore

/-- The triples of a collection are properties of its node, and besides them a single triple of the graph
mentions the node. -/
structure Compressible (g : Graph) (k : Node) (c : Collection) : Prop where
  properties : ∀ t ∈ c.triples, t.subject = k ∧ t.object ≠ k
  reference : ∃! t, t ∈ g.toList ∧ t ∉ c.triples ∧ t.mentions k = true

/-- A legal triple mentions a blank node as its subject or its object. -/
theorem Triple.mentions_iff_of_isLegal {t : Triple} {k : Node} (legal : t.isLegal = true)
    (blank : k.isBlank = true) : t.mentions k = true ↔ t.subject = k ∨ t.object = k := by
  have predicate : t.predicate ≠ k := by
    rintro rfl
    have iri := (Triple.of_isLegal legal).2.1
    cases h : t.predicate <;> simp_all [Node.isIri, Node.isBlank]
  simp [mentions, predicate]

namespace Graph

/-- The triples by which a node is a cell or an item of a list. -/
def listMentions (g : Graph) (n : Node) : List Triple :=
  (g.mentioning n).filter fun t => !(t.predicate ≠ .rdfFirst && t.predicate ≠ .rdfRest)

/-- The other triples that mention a node. -/
def plainMentions (g : Graph) (n : Node) : List Triple :=
  (g.mentioning n).filter fun t => t.predicate ≠ .rdfFirst && t.predicate ≠ .rdfRest

/-- No list mentions a node. Or a list does so once, and of the other triples that mention the node, which
are none or several, none has it as its object. -/
def Bracketable (g : Graph) (n : Node) : Prop :=
  (g.listMentions n).length = 0 ∨
    (g.listMentions n).length = 1 ∧ (g.plainMentions n).length ≠ 1 ∧
      ∀ t ∈ g.plainMentions n, t.object ≠ n

theorem length_mentions (g : Graph) (n : Node) :
    (g.listMentions n).length + (g.plainMentions n).length = g.countMentions n := by
  rw [Nat.add_comm]
  exact ((g.mentioning n).length_eq_length_filter_add _).symm

theorem mem_listMentions_or_plainMentions {g : Graph} {n : Node} {t : Triple}
    (h : t ∈ g.mentioning n) : t ∈ g.listMentions n ∨ t ∈ g.plainMentions n := by
  simp only [listMentions, plainMentions, List.mem_filter]
  cases (t.predicate ≠ .rdfFirst && t.predicate ≠ .rdfRest : Bool)
  · exact .inl ⟨h, rfl⟩
  · exact .inr ⟨h, rfl⟩

theorem mem_plainMentions {g : Graph} {n : Node} {t : Triple} (h : t ∈ g.plainMentions n) :
    t ∈ g.toList ∧ t.mentions n = true :=
  mem_mentioning.mp (List.mem_filter.mp h).1

theorem nodup_plainMentions (g : Graph) (n : Node) : (g.plainMentions n).Nodup :=
  (g.nodup_mentioning n).filter _

theorem countMentions_pos {g : Graph} {n : Node} (h : n ∈ g.blankNodes) : 0 < g.countMentions n := by
  obtain ⟨-, t, ht, at_n⟩ := mem_blankNodes.mp h
  have : t ∈ g.mentioning n := mem_mentioning.mpr ⟨ht, by rcases at_n with h | h <;> simp [Triple.mentions, h]⟩
  exact List.length_pos_of_mem this

/-- Of the triples that mention a node, all but one are given if and only if their number says so. -/
theorem existsUnique_mention_iff {g : Graph} {n : Node} {ts : List Triple} (nodup : ts.Nodup)
    (sub : ∀ t ∈ ts, t ∈ g.mentioning n) :
    (∃! t, t ∈ g.toList ∧ t ∉ ts ∧ t.mentions n = true) ↔ ts.length + 1 = g.countMentions n := by
  have given : ((g.mentioning n).filter fun t => decide (t ∈ ts)).Perm ts := by
    refine (List.perm_ext_iff_of_nodup ((g.nodup_mentioning n).filter _) nodup).mpr fun t => ?_
    simp only [List.mem_filter, decide_eq_true_eq]
    exact ⟨And.right, fun h => ⟨sub t h, h⟩⟩
  have counted := (g.mentioning n).length_eq_length_filter_add fun t => decide (t ∈ ts)
  have others (t : Triple) : t ∈ (g.mentioning n).filter (fun t => !decide (t ∈ ts)) ↔
      t ∈ g.toList ∧ t ∉ ts ∧ t.mentions n = true := by
    simp only [List.mem_filter, mem_mentioning, Bool.not_eq_true', decide_eq_false_iff_not]
    exact ⟨fun ⟨⟨hg, hm⟩, ht⟩ => ⟨hg, ht, hm⟩, fun ⟨hg, ht, hm⟩ => ⟨⟨hg, hm⟩, ht⟩⟩
  have single : (∃! t, t ∈ g.toList ∧ t ∉ ts ∧ t.mentions n = true) ↔
      ((g.mentioning n).filter fun t => !decide (t ∈ ts)).length = 1 := by
    rw [← existsUnique_mem_iff_length ((g.nodup_mentioning n).filter _)]
    simp only [others]
  rw [single, countMentions, ← given.length_eq]
  omega

end Graph

namespace Analysis
variable {g : Graph} {k : Node}

theorem isEligible_brackets {ts : List Triple} : isEligible g k (.brackets ts) = true ↔
    ts = [] ∨ ts.length ≠ g.countMentions k := by
  rw [isEligible, Collection.brackets, Bool.or_eq_true, decide_eq_true_eq, Collection.isEmpty,
    List.isEmpty_iff]
  rfl

theorem bracketTriples_eq (g : Graph) (n : Node) : bracketTriples g n =
    if (g.plainMentions n).length ≤ 1 then []
    else if (g.withObject n).length = 1 then (g.plainMentions n).filter (·.object ≠ n)
    else g.plainMentions n := rfl

theorem bracketTriples_sublist (g : Graph) (n : Node) :
    (bracketTriples g n).Sublist (g.plainMentions n) := by
  rw [bracketTriples_eq]
  split
  · exact List.nil_sublist _
  · split
    · exact List.filter_sublist
    · exact List.Sublist.refl _

/-- Whether brackets are compressible is a matter of their number, apart from the place of their node. -/
theorem compressible_iff_length : Compressible g k (.brackets (bracketTriples g k)) ↔
    (∀ t ∈ bracketTriples g k, t.subject = k ∧ t.object ≠ k) ∧
      (bracketTriples g k).length + 1 = (g.listMentions k).length + (g.plainMentions k).length := by
  have sub := bracketTriples_sublist g k
  rw [g.length_mentions, ← Graph.existsUnique_mention_iff (sub.nodup (g.nodup_plainMentions k))
    fun t ht => (List.mem_filter.mp (sub.subset ht)).1]
  exact ⟨fun ⟨hp, hr⟩ => ⟨hp, hr⟩, fun ⟨hp, hr⟩ => ⟨hp, hr⟩⟩

/-- If a node is the object of one triple, this triple is plain or belongs to a list. -/
theorem length_references (h : (g.withObject k).length = 1) :
    ((g.plainMentions k).filter (·.object = k)).length ≤ 1 ∧
      (g.listMentions k = [] → 0 < ((g.plainMentions k).filter (·.object = k)).length) := by
  have object {t : Triple} : t ∈ g.withObject k ↔ t ∈ g.toList ∧ t.object = k := by
    simp [g.withObject_eq]
  refine ⟨?_, fun lists => ?_⟩
  · rw [← h]
    refine (List.subperm_of_subset ((g.nodup_plainMentions k).filter _) fun t ht => ?_).length_le
    obtain ⟨hp, ho⟩ := List.mem_filter.mp ht
    exact object.mpr ⟨(Graph.mem_plainMentions hp).1, by simpa using ho⟩
  · obtain ⟨t, ht⟩ := List.length_eq_one_iff.mp h
    obtain ⟨hg, ho⟩ := object.mp (ht ▸ List.mem_singleton_self t)
    have hm : t ∈ g.mentioning k := Graph.mem_mentioning.mpr ⟨hg, by simp [Triple.mentions, ho]⟩
    have plain : t ∈ g.plainMentions k :=
      (Graph.mem_listMentions_or_plainMentions hm).resolve_left (lists ▸ List.not_mem_nil)
    exact List.length_pos_of_mem (List.mem_filter.mpr ⟨plain, by simpa using ho⟩)

theorem subject_of_plainMention (legal : ∀ t ∈ g.toList, t.isLegal = true) (blank : k.isBlank = true)
    {t : Triple} (ht : t ∈ g.plainMentions k) (ho : t.object ≠ k) : t.subject = k := by
  obtain ⟨hg, hm⟩ := Graph.mem_plainMentions ht
  exact ((Triple.mentions_iff_of_isLegal (legal t hg) blank).mp hm).resolve_right ho

/-- Nothing stands between the brackets, so they are compressible when the node has one mention in all. -/
theorem compressible_iff_of_few (hk : k ∈ g.blankNodes) (few : (g.plainMentions k).length ≤ 1) :
    Compressible g k (.brackets (bracketTriples g k)) ↔ g.Bracketable k := by
  have pos := Graph.countMentions_pos hk
  rw [← g.length_mentions] at pos
  have none (h : (g.plainMentions k).length = 0) : ∀ t ∈ g.plainMentions k, t.object ≠ k := by
    rw [List.length_eq_zero_iff.mp h]
    exact fun t ht => absurd ht List.not_mem_nil
  have nil : bracketTriples g k = [] := by rw [bracketTriples_eq, if_pos few]
  rw [compressible_iff_length, nil]
  constructor
  · rintro ⟨-, count⟩
    rw [List.length_nil] at count
    by_cases h : (g.plainMentions k).length = 0
    · exact .inr ⟨by omega, by omega, none h⟩
    · exact .inl (by omega)
  · intro h
    refine ⟨fun t ht => absurd ht List.not_mem_nil, ?_⟩
    rw [List.length_nil]
    rcases h with lists | ⟨lists, other, -⟩ <;> omega

/-- The triple of which the node is the object is left out of the brackets if it is plain, and a triple of
a list is left out in any case. -/
theorem compressible_iff_of_single (legal : ∀ t ∈ g.toList, t.isLegal = true) (blank : k.isBlank = true)
    (several : ¬ (g.plainMentions k).length ≤ 1) (single : (g.withObject k).length = 1) :
    Compressible g k (.brackets (bracketTriples g k)) ↔ g.Bracketable k := by
  have rest : bracketTriples g k = (g.plainMentions k).filter (·.object ≠ k) := by
    rw [bracketTriples_eq, if_neg several, if_pos single]
  have properties : ∀ t ∈ bracketTriples g k, t.subject = k ∧ t.object ≠ k := by
    intro t ht
    rw [rest, List.mem_filter] at ht
    have ho : t.object ≠ k := by simpa using ht.2
    exact ⟨subject_of_plainMention legal blank ht.1 ho, ho⟩
  have parts : (bracketTriples g k).length +
      ((g.plainMentions k).filter (·.object = k)).length = (g.plainMentions k).length := by
    rw [rest, Nat.add_comm, (g.plainMentions k).length_eq_length_filter_add (·.object = k)]
    simp
  obtain ⟨atMost, atLeast⟩ := length_references single
  have none : ((g.plainMentions k).filter (·.object = k)).length = 0 ↔
      ∀ t ∈ g.plainMentions k, t.object ≠ k := by
    simp
  rw [compressible_iff_length]
  constructor
  · rintro ⟨-, count⟩
    by_cases lists : (g.listMentions k).length = 0
    · exact .inl lists
    · exact .inr ⟨by omega, by omega, none.mp (by omega)⟩
  · refine fun h => ⟨properties, ?_⟩
    rcases h with lists | ⟨lists, -, objects⟩
    · have := atLeast (List.length_eq_zero_iff.mp lists)
      omega
    · have := none.mpr objects
      omega

/-- All plain mentions of the node stand between the brackets. They cannot be all mentions of it, or else
the brackets would not be eligible. -/
theorem compressible_iff_of_not_single (legal : ∀ t ∈ g.toList, t.isLegal = true)
    (blank : k.isBlank = true) (several : ¬ (g.plainMentions k).length ≤ 1)
    (single : (g.withObject k).length ≠ 1)
    (eligible : isEligible g k (.brackets (bracketTriples g k)) = true) :
    Compressible g k (.brackets (bracketTriples g k)) ↔ g.Bracketable k := by
  have all : bracketTriples g k = g.plainMentions k := by
    rw [bracketTriples_eq, if_neg several, if_neg single]
  have outside : (g.listMentions k).length ≠ 0 := by
    intro lists
    have count := g.length_mentions k
    rw [lists, Nat.zero_add] at count
    rw [all] at eligible
    rcases isEligible_brackets.mp eligible with empty | ne
    · exact several (by simp [empty])
    · exact ne count
  rw [compressible_iff_length, all]
  constructor
  · rintro ⟨properties, count⟩
    exact .inr ⟨by omega, by omega, fun t ht => (properties t ht).2⟩
  · rintro (lists | ⟨lists, -, objects⟩)
    · exact absurd lists outside
    · exact ⟨fun t ht => ⟨subject_of_plainMention legal blank ht (objects t ht), objects t ht⟩, by omega⟩

theorem compressible_iff (legal : ∀ t ∈ g.toList, t.isLegal = true) (hk : k ∈ g.blankNodes)
    (eligible : isEligible g k (.brackets (bracketTriples g k)) = true) :
    Compressible g k (.brackets (bracketTriples g k)) ↔ g.Bracketable k := by
  have blank := (Graph.mem_blankNodes.mp hk).1
  by_cases few : (g.plainMentions k).length ≤ 1
  · exact compressible_iff_of_few hk few
  · by_cases single : (g.withObject k).length = 1
    · exact compressible_iff_of_single legal blank few single
    · exact compressible_iff_of_not_single legal blank few single eligible

/-- Eligible brackets do not hold all mentions of their node. -/
theorem exists_mention_outside (hk : k ∈ g.blankNodes)
    (eligible : isEligible g k (.brackets (bracketTriples g k)) = true) :
    ∃ t ∈ g.toList, t ∉ bracketTriples g k ∧ t.mentions k = true := by
  have sub := bracketTriples_sublist g k
  have nodup := sub.nodup (g.nodup_plainMentions k)
  have fewer : (bracketTriples g k).length < g.countMentions k := by
    have pos := Graph.countMentions_pos hk
    have le : (bracketTriples g k).length ≤ g.countMentions k :=
      Nat.le_trans sub.length_le (List.length_filter_le _ _)
    rcases isEligible_brackets.mp eligible with empty | ne
    · rwa [empty, List.length_nil]
    · omega
  by_contra none
  have all : g.mentioning k ⊆ bracketTriples g k := fun t ht => by
    obtain ⟨hg, hm⟩ := Graph.mem_mentioning.mp ht
    by_contra hb
    exact none ⟨t, hg, hb, hm⟩
  have := (List.subperm_of_subset (g.nodup_mentioning k) all).length_le
  rw [Graph.countMentions] at fewer
  omega

end Analysis

open Analysis in
/-- The brackets that an analysis of a graph of legal triples finds hold plain mentions of their node and
not all mentions of it. They are compressible if and only if their node is bracketable. -/
theorem Graph.collections_compressible_iff {g : Graph} {mode : SearchMode} {a : Analysis}
    (legal : ∀ t ∈ g.toList, t.isLegal = true) (h : g.collections mode = .ok a) {k : Node}
    {c : Collection} (hk : a.registry.get? k = some c) (hc : c.form = .brackets) :
    c.triples.Sublist (g.plainMentions k) ∧ (∃ t ∈ g.toList, t ∉ c.triples ∧ t.mentions k = true) ∧
      (Compressible g k c ↔ g.Bracketable k) := by
  obtain ⟨found, eligible⟩ := Graph.collections_induction
    (P := fun k c => c.form = .brackets → k ∈ g.blankNodes ∧ c = .brackets (bracketTriples g k))
    (fun _ _ _ _ _ hf => by simp [Collection.list] at hf) (fun n hn _ => ⟨hn, rfl⟩) h hk
  obtain ⟨blank, rfl⟩ := found hc
  exact ⟨bracketTriples_sublist g k, exists_mention_outside blank eligible,
    compressible_iff legal blank eligible⟩

open Analysis in
/-- A node with two properties and one reference is compressible. -/
theorem Graph.collections_compressible_node :
    let k := Node.blank "k"
    let s := Node.iri "http://example.com/s"
    let g := Graph.ofList [⟨s, s, k⟩, ⟨k, s, s⟩, ⟨k, .rdfType, s⟩]
    (∀ t ∈ g.toList, t.isLegal = true) ∧ ∃ a c, g.collections .all = .ok a ∧
      a.registry.get? k = some c ∧ c.form = .brackets ∧ Compressible g k c := by
  intro k s g
  have legal : ∀ t ∈ g.toList, t.isLegal = true := by decide
  let b : Analysis := dropIneligible g (findBrackets g start)
  have entries : b.registry.entries = [(k, .brackets [⟨k, s, s⟩, ⟨k, .rdfType, s⟩])] := by decide
  have acyclic : cyclicKeys b.registry = [] := by
    rw [cyclicKeys, dependencyLists, entries, List.mergeSort_singleton]
    decide
  have found : g.collections .all = .ok (revoke g (claim (dropCyclic b))) := by
    have none : tails g = [] := by decide
    rw [Graph.collections, run_eq, findLists, none]
    rfl
  have kept : (revoke g (claim (dropCyclic b))).registry.get? k =
      some (.brackets [⟨k, s, s⟩, ⟨k, .rdfType, s⟩]) := by
    rw [dropCyclic, acyclic]
    decide
  exact ⟨legal, _, _, found, kept, rfl,
    (collections_compressible_iff legal found kept rfl).2.2.mpr (.inl (by decide))⟩

open Analysis in
/-- The item of a list, which has one property, is found as empty brackets, although two triples mention
it. -/
theorem Graph.collections_incompressible_item :
    ¬ ∀ (g : Graph) (mode : SearchMode) (a : Analysis), (∀ t ∈ g.toList, t.isLegal = true) →
      g.collections mode = .ok a → ∀ k c, a.registry.get? k = some c → c.form = .brackets →
        Compressible g k c := by
  intro compressible
  let k := Node.blank "k"
  let s := Node.iri "http://example.com/s"
  let first : Triple := ⟨.blank "l", .rdfFirst, k⟩
  let property : Triple := ⟨k, s, s⟩
  let g := Graph.ofList [⟨s, s, .blank "l"⟩, first, ⟨.blank "l", .rdfRest, .rdfNil⟩, property]
  have list : walkList g (.blank "l") = .ok (some [first]) := by
    have firsts : g.withPredicate .rdfFirst = [first] := by decide
    have cell : g.withSubjectPredicate (.blank "l") .rdfFirst = [first] := by decide
    have before : g.withPredicateObject .rdfRest (.blank "l") = [] := by decide
    rw [walkList, walkFrom, firsts, cell, before]
    rfl
  let b : Analysis := dropIneligible g (findBrackets g { start with registry := addList .empty [first] })
  have acyclic : cyclicKeys b.registry = [] := by
    have sorted : (b.registry.entries.mergeSort fun c d => d.2.size ≤ c.2.size) = b.registry.entries :=
      List.mergeSort_of_pairwise (by decide)
    rw [cyclicKeys, dependencyLists, sorted]
    decide
  have found : g.collections .all = .ok (revoke g (claim (dropCyclic b))) := by
    have one : tails g = [.blank "l"] := by decide
    rw [Graph.collections, run_eq, findLists, one, addLists, list]
    rfl
  have kept : (revoke g (claim (dropCyclic b))).registry.get? k = some (.brackets []) := by
    rw [dropCyclic, acyclic]
    decide
  obtain ⟨t, -, only⟩ := (compressible g .all _ (by decide) found k _ kept rfl).reference
  have same : first = property :=
    (only first ⟨by decide, List.not_mem_nil, rfl⟩).trans (only property ⟨by decide, List.not_mem_nil, rfl⟩).symm
  exact absurd same (by decide)

end TripleStore
