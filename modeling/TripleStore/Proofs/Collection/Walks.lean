import Mathlib.Data.List.Forall2
import TripleStore.Proofs.Collection.Lists

/-! # Walks along lists

What a walk from the last cell of a list finds, said of the triples of the graph alone. A walk passes
through distinct blank cells with one item each, against `rdf:rest` triples that are the only ones with
their object. It finds a list if nothing leads to the cell at which it stands, and an error if that cell
has several items. -/
namespace TripleStore

namespace Graph
variable (g : Graph)

/-- A triple gives a node its item, and no other triple does. -/
def IsOnlyItem (n : Node) (t : Triple) : Prop :=
  ∀ u, (u ∈ g.toList ∧ u.subject = n ∧ u.predicate = .rdfFirst) ↔ u = t

def HasSeveralItems (n : Node) : Prop :=
  ∃ t ∈ g.toList, ∃ u ∈ g.toList, t ≠ u ∧ (t.subject = n ∧ t.predicate = .rdfFirst) ∧
    u.subject = n ∧ u.predicate = .rdfFirst

/-- A node is linked to another one, and no other node is. -/
def OnlyLink (m n : Node) : Prop :=
  ∀ u, (u ∈ g.toList ∧ u.predicate = .rdfRest ∧ u.object = n) ↔ u = ⟨m, .rdfRest, n⟩

/-- Distinct blank nodes with their only items. -/
structure IsRun (bs : List Node) (ts : List Triple) : Prop where
  distinct : bs.Nodup
  blank : ∀ b ∈ bs, b.isBlank = true
  items : List.Forall₂ g.IsOnlyItem bs ts

/-- Nodes that are linked one to the next, with a given last one. -/
structure LeadsTo (bs : List Node) (t : Node) : Prop where
  links : bs.IsChain g.OnlyLink
  last : bs.getLast? = some t

/-- A list ends with a node: nothing is linked to its first cell. -/
def EndsList (t : Node) (ts : List Triple) : Prop :=
  ∃ b bs, g.IsRun (b :: bs) ts ∧ g.LeadsTo (b :: bs) t ∧
    ∀ u ∈ g.toList, u.predicate = .rdfRest → u.object ≠ b

/-- Walking back from a node leads through distinct cells with one item each to a node with several
items, which has not been passed. -/
def MeetsItems (t v : Node) : Prop :=
  ∃ bs ts, g.IsRun bs ts ∧ g.LeadsTo (v :: bs) t ∧ v ∉ bs ∧ g.HasSeveralItems v

end Graph

section
variable {g : Graph}

theorem isOnlyItem_iff {n : Node} {t : Triple} :
    g.IsOnlyItem n t ↔ g.withSubjectPredicate n .rdfFirst = [t] := by
  rw [g.withSubjectPredicate_eq, filter_eq_singleton_iff g.nodup]
  simp [Graph.IsOnlyItem]

theorem hasSeveralItems_iff {n : Node} :
    g.HasSeveralItems n ↔ ∃ t u rest, g.withSubjectPredicate n .rdfFirst = t :: u :: rest := by
  have nodup : (g.withSubjectPredicate n .rdfFirst).Nodup := by
    rw [g.withSubjectPredicate_eq]
    exact g.nodup.filter _
  rw [two_le_length_iff nodup, g.withSubjectPredicate_eq]
  simp only [List.mem_filter, Bool.and_eq_true, decide_eq_true_eq]
  constructor
  · rintro ⟨t, ht, u, hu, ne, item, item'⟩
    exact ⟨t, ⟨ht, item⟩, u, ⟨hu, item'⟩, ne⟩
  · rintro ⟨t, ⟨ht, item⟩, u, ⟨hu, item'⟩, ne⟩
    exact ⟨t, ht, u, hu, ne, item, item'⟩

theorem onlyLink_iff {m n : Node} :
    g.OnlyLink m n ↔ g.withPredicateObject .rdfRest n = [⟨m, .rdfRest, n⟩] := by
  rw [g.withPredicateObject_eq, filter_eq_singleton_iff g.nodup]
  simp [Graph.OnlyLink]

theorem unlinked_iff {n : Node} : g.withPredicateObject .rdfRest n = [] ↔
    ∀ u ∈ g.toList, u.predicate = .rdfRest → u.object ≠ n := by
  rw [g.withPredicateObject_eq, List.filter_eq_nil_iff]
  simp

/-- The nodes that a walk may still visit after it has passed some cells. -/
def unvisited (g : Graph) : List Node → List Node
  | [] => ((g.withPredicate .rdfFirst).map Triple.subject).eraseDups
  | b :: bs => (unvisited g bs).erase b

theorem nodup_unvisited (g : Graph) (bs : List Node) : (unvisited g bs).Nodup := by
  induction bs with
  | nil => exact FirstOccurrences.nodup_eraseDups _
  | cons b bs ih => exact ih.erase b

theorem mem_unvisited {bs : List Node} {n : Node} :
    n ∈ unvisited g bs ↔ (∃ t ∈ g.toList, t.predicate = .rdfFirst ∧ t.subject = n) ∧ n ∉ bs := by
  induction bs with
  | nil => simp [unvisited, List.mem_eraseDups, g.withPredicate_eq, and_assoc]
  | cons b bs ih =>
    rw [unvisited, (nodup_unvisited g bs).mem_erase_iff, ih, List.mem_cons, not_or, and_left_comm]

namespace Graph

/-- A walk from a node stands at another one and has passed some cells. -/
structure Arrives (g : Graph) (t v : Node) (bs : List Node) (ts : List Triple) : Prop where
  run : g.IsRun bs ts
  leads : g.LeadsTo (v :: bs) t

theorem arrives_start (g : Graph) (t : Node) : g.Arrives t t [] [] :=
  ⟨⟨.nil, by simp, .nil⟩, ⟨.singleton t, rfl⟩⟩

theorem IsRun.cons {bs : List Node} {ts : List Triple} (h : g.IsRun bs ts) {b : Node} {t : Triple}
    (fresh : b ∉ bs) (blank : b.isBlank = true) (item : g.IsOnlyItem b t) :
    g.IsRun (b :: bs) (t :: ts) where
  distinct := List.nodup_cons.mpr ⟨fresh, h.distinct⟩
  blank := List.forall_mem_cons.mpr ⟨blank, h.blank⟩
  items := .cons item h.items

theorem LeadsTo.cons {bs : List Node} {t b v : Node} (h : g.LeadsTo (b :: bs) t)
    (link : g.OnlyLink v b) : g.LeadsTo (v :: b :: bs) t where
  links := .cons_cons link h.links
  last := by rw [List.getLast?_cons_cons, h.last]

theorem LeadsTo.tail {bs : List Node} {t b v : Node} (h : g.LeadsTo (v :: b :: bs) t) :
    g.LeadsTo (b :: bs) t where
  links := (List.isChain_cons_cons.mp h.links).2
  last := by rw [← List.getLast?_cons_cons, h.last]

theorem IsRun.uncons {bs : List Node} {ts : List Triple} {b : Node} (h : g.IsRun (b :: bs) ts) :
    ∃ t us, ts = t :: us ∧ b ∉ bs ∧ b.isBlank = true ∧ g.IsOnlyItem b t ∧ g.IsRun bs us := by
  obtain ⟨distinct, blank, items⟩ := h
  obtain ⟨fresh, distinct⟩ := List.nodup_cons.mp distinct
  obtain ⟨first, blank⟩ := List.forall_mem_cons.mp blank
  cases items with
  | cons item items => exact ⟨_, _, rfl, fresh, first, item, distinct, blank, items⟩

theorem LeadsTo.link {bs : List Node} {t b v : Node} (h : g.LeadsTo (v :: b :: bs) t) :
    g.OnlyLink v b :=
  (List.isChain_cons_cons.mp h.links).1

end Graph

/-- What a walk finds is what the triples say. -/
def Reports (g : Graph) (t : Node) : WalkResult → Prop
  | .ok (some ts) => g.EndsList t ts
  | .ok none => True
  | .error (.multipleFirsts v) => g.MeetsItems t v

theorem reports_walkFrom {left : List Node} {cell t : Node} {found : List Triple} {bs : List Node}
    (h : g.Arrives t cell bs found) (hl : left = unvisited g bs) :
    Reports g t (walkFrom g left cell found) := by
  fun_induction walkFrom g left cell found generalizing bs with
  | case1 => trivial
  | case2 left cell found hc first second rest items =>
    have fresh := (mem_unvisited.mp (hl ▸ hc)).2
    exact ⟨bs, found, h.run, h.leads, fresh, hasSeveralItems_iff.mpr ⟨_, _, _, items⟩⟩
  | case3 left cell found hc first item blank unlinked =>
    have fresh := (mem_unvisited.mp (hl ▸ hc)).2
    exact ⟨cell, bs, h.run.cons fresh blank (isOnlyItem_iff.mpr item), h.leads, unlinked_iff.mp unlinked⟩
  | case4 left cell found hc first item blank previous link ih =>
    have fresh := (mem_unvisited.mp (hl ▸ hc)).2
    obtain ⟨-, hp, ho⟩ := of_withPredicateObject_eq link
    have only : g.OnlyLink previous.subject cell := by
      rw [onlyLink_iff, link, ← hp, ← ho]
    refine ih ⟨h.run.cons fresh blank (isOnlyItem_iff.mpr item), h.leads.cons only⟩ ?_
    rw [hl, unvisited]
  | case5 => trivial
  | case6 => trivial
  | case7 => trivial

theorem mem_unvisited_of_item {bs : List Node} {b : Node} {t : Triple} (fresh : b ∉ bs)
    (item : g.IsOnlyItem b t) : b ∈ unvisited g bs := by
  obtain ⟨ht, hs, hp⟩ := (item t).mpr rfl
  exact mem_unvisited.mpr ⟨⟨t, ht, hp, hs⟩, fresh⟩

/-- A walk comes to every node to which cells lead back. -/
theorem walkList_eq_walkFrom {t v : Node} {bs : List Node} {ts : List Triple}
    (blank : t.isBlank = true) (h : g.Arrives t v bs ts) :
    walkList g t = walkFrom g (unvisited g bs) v ts := by
  induction bs generalizing v ts with
  | nil =>
    obtain rfl : v = t := Option.some.inj h.leads.last
    obtain rfl : ts = [] := List.forall₂_nil_left_iff.mp h.run.items
    rw [walkList, if_pos blank]
    rfl
  | cons b bs ih =>
    obtain ⟨t, us, rfl, fresh, cell, item, run⟩ := h.run.uncons
    rw [ih ⟨run, h.leads.tail⟩, walkFrom_cell us (mem_unvisited_of_item fresh item)
      (isOnlyItem_iff.mp item) cell (onlyLink_iff.mp h.leads.link)]
    rfl

theorem isBlank_of_run {t b : Node} {bs : List Node} {ts : List Triple} (run : g.IsRun (b :: bs) ts)
    (leads : g.LeadsTo (b :: bs) t) : t.isBlank = true :=
  run.blank t (List.mem_of_getLast? leads.last)

theorem walkList_of_endsList {t : Node} {ts : List Triple} (h : g.EndsList t ts) :
    walkList g t = .ok (some ts) := by
  obtain ⟨b, bs, run, leads, unlinked⟩ := h
  have blank := isBlank_of_run run leads
  obtain ⟨first, found, rfl, fresh, cell, item, run⟩ := run.uncons
  rw [walkList_eq_walkFrom blank ⟨run, leads⟩]
  exact walkFrom_head found (mem_unvisited_of_item fresh item) (isOnlyItem_iff.mp item) cell
    (unlinked_iff.mpr unlinked)

theorem walkList_of_meetsItems {t v : Node} (blank : t.isBlank = true) (h : g.MeetsItems t v) :
    walkList g t = .error (.multipleFirsts v) := by
  obtain ⟨bs, ts, run, leads, fresh, several⟩ := h
  obtain ⟨first, second, rest, items⟩ := hasSeveralItems_iff.mp several
  have left : v ∈ unvisited g bs := by
    obtain ⟨u, hu, -, -, -, ⟨hs, hp⟩, -⟩ := several
    exact mem_unvisited.mpr ⟨⟨u, hu, hp, hs⟩, fresh⟩
  rw [walkList_eq_walkFrom blank ⟨run, leads⟩, walkFrom, dif_pos left, items]

theorem reports_walkList {t : Node} (blank : t.isBlank = true) : Reports g t (walkList g t) := by
  rw [walkList_eq_walkFrom blank (g.arrives_start t)]
  exact reports_walkFrom (g.arrives_start t) rfl

theorem walkList_of_not_blank {t : Node} (named : ¬ t.isBlank = true) : walkList g t = .ok none :=
  if_neg named

theorem Graph.IsRun.exists_item {bs : List Node} {ts : List Triple} (h : g.IsRun bs ts) :
    ∀ b ∈ bs, ∃ t, g.IsOnlyItem b t := by
  induction bs generalizing ts with
  | nil => exact fun b hb => absurd hb List.not_mem_nil
  | cons b bs ih =>
    obtain ⟨t, us, -, -, -, item, run⟩ := h.uncons
    exact List.forall_mem_cons.mpr ⟨⟨t, item⟩, ih run⟩

/-- Every cell that is passed has an item of its own, so walks are bounded. -/
theorem Graph.IsRun.length_le {bs : List Node} {ts : List Triple} (h : g.IsRun bs ts) :
    bs.length ≤ (g.withPredicate .rdfFirst).length := by
  have cells : bs ⊆ (g.withPredicate .rdfFirst).map Triple.subject := by
    intro b hb
    obtain ⟨t, item⟩ := h.exists_item b hb
    obtain ⟨ht, hs, hp⟩ := (item t).mpr rfl
    exact List.mem_map.mpr ⟨t, by simp [g.withPredicate_eq, ht, hp], hs⟩
  rw [← List.length_map (f := Triple.subject)]
  exact (List.subperm_of_subset h.distinct cells).length_le

/-- A walk finds a list if and only if the triples say that the list ends with the node. It reports a node
with several items if and only if cells lead back to that node from a blank node, and else it finds
nothing. It always comes to an end, since it passes no more cells than there are items in the graph. -/
theorem walkList_iff (g : Graph) (t : Node) :
    (∀ ts, walkList g t = .ok (some ts) ↔ g.EndsList t ts) ∧
    (∀ v, walkList g t = .error (.multipleFirsts v) ↔ t.isBlank = true ∧ g.MeetsItems t v) ∧
    (walkList g t = .ok none ↔
      (∀ ts, ¬ g.EndsList t ts) ∧ ¬ (t.isBlank = true ∧ ∃ v, g.MeetsItems t v)) ∧
    ∀ v bs ts, g.Arrives t v bs ts → bs.length ≤ (g.withPredicate .rdfFirst).length := by
  have lists (ts : List Triple) : walkList g t = .ok (some ts) ↔ g.EndsList t ts := by
    refine ⟨fun h => ?_, walkList_of_endsList⟩
    by_cases blank : t.isBlank = true
    · have reports := reports_walkList (g := g) blank
      rwa [h] at reports
    · simp [walkList_of_not_blank blank] at h
  have errors (v : Node) :
      walkList g t = .error (.multipleFirsts v) ↔ t.isBlank = true ∧ g.MeetsItems t v := by
    refine ⟨fun h => ?_, fun h => walkList_of_meetsItems h.1 h.2⟩
    by_cases blank : t.isBlank = true
    · have reports := reports_walkList (g := g) blank
      rw [h] at reports
      exact ⟨blank, reports⟩
    · simp [walkList_of_not_blank blank] at h
  refine ⟨lists, errors, ?_, fun v bs ts h => h.run.length_le⟩
  simp only [← lists, ← exists_and_left, ← errors]
  cases walkList g t with
  | error e => cases e; simp
  | ok found => cases found <;> simp

end
end TripleStore
