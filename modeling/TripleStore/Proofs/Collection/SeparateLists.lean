import Mathlib.Logic.Relation
import TripleStore.Proofs.Collection.Walks

/-! # Separate lists

A cell of a list is linked to by one node only, so that its list can be followed back to one head. Lists
with a common cell have therefore the same head, and of these only the first one is registered. It does
not matter that a cell may be linked to several others, through which several last cells lead back to the
same head. -/
namespace TripleStore

/-- The cells of a list. -/
def Collection.cells (c : Collection) : List Node := c.triples.map Triple.subject

theorem mem_cells_of_claim {c : Collection} (hc : c.form = .list) {t : Triple} (ht : t ∈ c.claims) :
    t.subject ∈ c.cells := by
  simp only [Collection.claims, hc] at ht
  exact subject_mem_of_listClaims ht

namespace Graph
variable {g : Graph}

def Unlinked (g : Graph) (n : Node) : Prop := ∀ u ∈ g.toList, u.predicate = .rdfRest → u.object ≠ n

theorem OnlyLink.eq {m m' n : Node} (h : g.OnlyLink m n) (h' : g.OnlyLink m' n) : m = m' := by
  have link := (h' ⟨m, .rdfRest, n⟩).mp ((h _).mpr rfl)
  exact congrArg Triple.subject link

theorem Unlinked.not_onlyLink {m n : Node} (h : g.Unlinked n) : ¬ g.OnlyLink m n := by
  intro link
  obtain ⟨mem, -, -⟩ := (link ⟨m, .rdfRest, n⟩).mpr rfl
  exact h _ mem rfl rfl

/-- Following the links back from a node ends at one node only. -/
theorem Unlinked.eq_of_reached {b b' n : Node} (hb : g.Unlinked b) (hb' : g.Unlinked b')
    (h : Relation.ReflTransGen g.OnlyLink b n) (h' : Relation.ReflTransGen g.OnlyLink b' n) :
    b = b' := by
  induction h with
  | refl =>
    rcases h'.cases_tail with same | ⟨m, -, link⟩
    · exact same
    · exact absurd link hb.not_onlyLink
  | tail _ link ih =>
    rcases h'.cases_tail with rfl | ⟨m, before, link'⟩
    · exact absurd link hb'.not_onlyLink
    · exact ih (link'.eq link ▸ before)

theorem LeadsTo.reached {bs : List Node} {b t : Node} (h : g.LeadsTo (b :: bs) t) :
    ∀ n ∈ b :: bs, Relation.ReflTransGen g.OnlyLink b n := by
  induction bs generalizing b with
  | nil =>
    intro n hn
    rw [List.mem_singleton.mp hn]
  | cons c bs ih =>
    intro n hn
    rcases List.mem_cons.mp hn with rfl | hn
    · exact .refl
    · exact (ih h.tail n hn).head h.link

theorem IsRun.subjects {bs : List Node} {ts : List Triple} (h : g.IsRun bs ts) :
    ts.map Triple.subject = bs := by
  induction bs generalizing ts with
  | nil => rw [List.forall₂_nil_left_iff.mp h.items, List.map_nil]
  | cons b bs ih =>
    obtain ⟨t, us, rfl, -, -, item, run⟩ := h.uncons
    rw [List.map_cons, ih run, ((item t).mpr rfl).2.1]

/-- A list of distinct cells, all of which can be followed back to its key. -/
structure IsHeaded (g : Graph) (k : Node) (c : Collection) : Prop where
  form : c.form = .list
  head : (c.triples.head?).map Triple.subject = some k
  nodup : c.cells.Nodup
  unlinked : g.Unlinked k
  reached : ∀ n ∈ c.cells, Relation.ReflTransGen g.OnlyLink k n

theorem EndsList.isHeaded {t k : Node} {ts : List Triple} (h : g.EndsList t ts)
    (head : ts.head?.map Triple.subject = some k) : g.IsHeaded k (.list ts) := by
  obtain ⟨b, bs, run, leads, unlinked⟩ := h
  have cells : (Collection.list ts).cells = b :: bs := run.subjects
  obtain rfl : b = k := by
    rw [← List.head?_map, run.subjects] at head
    exact Option.some.inj head
  exact ⟨rfl, head, cells ▸ run.distinct, unlinked, cells ▸ leads.reached⟩

theorem IsHeaded.disjoint_cells {k k' : Node} {c c' : Collection} (h : g.IsHeaded k c)
    (h' : g.IsHeaded k' c') (distinct : k ≠ k') : c.cells.Disjoint c'.cells :=
  fun n hn hn' => distinct (h.unlinked.eq_of_reached h'.unlinked (h.reached n hn) (h'.reached n hn'))

theorem IsHeaded.disjoint_claims {k k' : Node} {c c' : Collection} (h : g.IsHeaded k c)
    (h' : g.IsHeaded k' c') (distinct : k ≠ k') : c.claims.Disjoint c'.claims :=
  fun _ ht ht' => h.disjoint_cells h' distinct (mem_cells_of_claim h.form ht) (mem_cells_of_claim h'.form ht')

end Graph

namespace Analysis
variable {g : Graph}

/-- The list with a given head that is found from a last cell. -/
def listFrom (g : Graph) (k tail : Node) : Option Collection :=
  match walkList g tail with
  | .ok (some firsts) =>
    if firsts.head?.map Triple.subject = some k then some (.list firsts) else none
  | _ => none

theorem isHeaded_listFrom {k tail : Node} {c : Collection} (h : listFrom g k tail = some c) :
    g.IsHeaded k c := by
  unfold listFrom at h
  split at h
  next firsts walk =>
    obtain ⟨head, found⟩ := Option.ite_none_right_eq_some.mp h
    exact Option.some.inj found ▸ (((walkList_iff g tail).1 firsts).mp walk).isHeaded head
  next => exact absurd h (Option.some_ne_none c).symm

theorem get?_addList (r : Registry) (firsts : List Triple) (k : Node) :
    (addList r firsts).get? k = (r.get? k).or
      (if firsts.head?.map Triple.subject = some k then some (.list firsts) else none) := by
  cases firsts with
  | nil => simp [addList]
  | cons first firsts =>
    simp only [addList, List.head?_cons, Option.map_some, Option.some_inj]
    by_cases old : r.contains first.subject = true
    · rw [if_pos old]
      by_cases same : first.subject = k
      · obtain ⟨c, hc⟩ := Registry.contains_iff.mp (same ▸ old)
        rw [hc, Option.some_or]
      · rw [if_neg same, Option.or_none]
    · rw [if_neg old, Registry.get?_insert]
      by_cases same : first.subject = k
      · have none : r.get? k = none := by simpa [Registry.contains, same] using old
        rw [none, if_pos same, if_pos same.symm, Option.none_or]
      · rw [if_neg same, if_neg (Ne.symm same), Option.or_none]

/-- Of the lists with one head the first one is registered. -/
theorem get?_addLists {r r' : Registry} {tails : List Node} (h : addLists g r tails = .ok r') (k : Node) :
    r'.get? k = (r.get? k).or (tails.findSome? (listFrom g k)) := by
  induction tails generalizing r with
  | nil =>
    obtain rfl : r = r' := by simpa [addLists] using h
    rw [List.findSome?_nil, Option.or_none]
  | cons tail tails ih =>
    unfold addLists at h
    rw [List.findSome?_cons]
    split at h
    · exact absurd h (by simp)
    next walk =>
      have none : listFrom g k tail = none := by rw [listFrom, walk]
      rw [ih h, none]
    next firsts walk =>
      rw [ih h, get?_addList, Option.or_assoc]
      simp only [listFrom, walk]
      split <;> rfl

end Analysis

open Analysis in
/-- Registered lists have no cell in common and claim no common triple. Each has distinct cells, and the
first one of these is its key. Under every node that list is registered that is found first with the node
as head. -/
theorem Graph.findLists_separate {g : Graph} {a : Analysis} (h : findLists g .start = .ok a) :
    (∀ k c, a.registry.get? k = some c → c.form = .list ∧
      (c.triples.head?).map Triple.subject = some k ∧ c.cells.Nodup) ∧
    (∀ k c k' c', a.registry.get? k = some c → a.registry.get? k' = some c' → k ≠ k' →
      c.cells.Disjoint c'.cells ∧ c.claims.Disjoint c'.claims) ∧
    ∀ k, a.registry.get? k = (tails g).findSome? (listFrom g k) := by
  obtain ⟨r, lists, rfl⟩ := exists_of_map_eq_ok h
  have found (k : Node) : r.get? k = (tails g).findSome? (listFrom g k) := by
    rw [get?_addLists lists k]
    exact Option.none_or
  have headed {k : Node} {c : Collection} (hk : r.get? k = some c) : g.IsHeaded k c := by
    rw [found] at hk
    obtain ⟨tail, -, from_tail⟩ := List.exists_of_findSome?_eq_some hk
    exact isHeaded_listFrom from_tail
  refine ⟨fun k c hk => ?_, fun k c k' c' hk hk' distinct => ?_, found⟩
  · exact ⟨(headed hk).form, (headed hk).head, (headed hk).nodup⟩
  · exact ⟨(headed hk).disjoint_cells (headed hk') distinct,
      (headed hk).disjoint_claims (headed hk') distinct⟩

/-- One head is linked to two last cells, and a third cell is a list of its own. -/
def Graph.forkedList : Graph :=
  let k := Node.blank "k"
  let m := Node.blank "m"
  let n := Node.blank "n"
  let j := Node.blank "j"
  let s := Node.iri "http://example.com/s"
  .ofList [⟨k, .rdfFirst, s⟩, ⟨k, .rdfRest, m⟩, ⟨k, .rdfRest, n⟩, ⟨m, .rdfFirst, s⟩,
    ⟨m, .rdfRest, .rdfNil⟩, ⟨n, .rdfFirst, s⟩, ⟨n, .rdfRest, .rdfNil⟩, ⟨j, .rdfFirst, s⟩,
    ⟨j, .rdfRest, .rdfNil⟩]

open Analysis in
/-- The list to the second last cell is not registered, as it shares the head of the first one. -/
theorem Graph.findLists_separate_forked : ∃ a c c', findLists forkedList .start = .ok a ∧
    a.registry.get? (.blank "k") = some c ∧ a.registry.get? (.blank "j") = some c' ∧
    c.cells = [.blank "k", .blank "m"] ∧ a.registry.keys = [.blank "k", .blank "j"] ∧
    c.cells.Disjoint c'.cells ∧ c.claims.Disjoint c'.claims := by
  let s := Node.iri "http://example.com/s"
  have tails : tails forkedList = [.blank "m", .blank "n", .blank "j"] := by decide
  have item : forkedList.withSubjectPredicate (.blank "k") .rdfFirst = [⟨.blank "k", .rdfFirst, s⟩] := by
    decide
  have unlinked : forkedList.withPredicateObject .rdfRest (.blank "k") = [] := by decide
  have walk {t : String} (left : Node.blank t ∈ unvisited forkedList [])
      (last : forkedList.withSubjectPredicate (.blank t) .rdfFirst = [⟨.blank t, .rdfFirst, s⟩])
      (link : forkedList.withPredicateObject .rdfRest (.blank t) = [⟨.blank "k", .rdfRest, .blank t⟩])
      (head : Node.blank "k" ∈ unvisited forkedList [.blank t]) :
      walkList forkedList (.blank t) =
        .ok (some [⟨.blank "k", .rdfFirst, s⟩, ⟨.blank t, .rdfFirst, s⟩]) :=
    (walkFrom_cell [] left last rfl link).trans (walkFrom_head _ head item rfl unlinked)
  have first := walk (t := "m") (by decide) (by decide) (by decide) (by decide)
  have second := walk (t := "n") (by decide) (by decide) (by decide) (by decide)
  have third : walkList forkedList (.blank "j") = .ok (some [⟨.blank "j", .rdfFirst, s⟩]) :=
    walkFrom_head [] (by decide) (by decide) rfl (by decide)
  obtain ⟨a, c, c', found, hk, hj, cells, keys⟩ : ∃ a c c', findLists forkedList .start = .ok a ∧
      a.registry.get? (.blank "k") = some c ∧ a.registry.get? (.blank "j") = some c' ∧
      c.cells = [.blank "k", .blank "m"] ∧ a.registry.keys = [.blank "k", .blank "j"] := by
    rw [findLists, tails]
    simp only [addLists, first, second, third]
    exact ⟨_, _, _, rfl, rfl, rfl, rfl, rfl⟩
  exact ⟨a, c, c', found, hk, hj, cells, keys,
    (Graph.findLists_separate found).2.1 _ _ _ _ hk hj (by decide)⟩

end TripleStore
