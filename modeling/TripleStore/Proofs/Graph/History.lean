import TripleStore.Proofs.FirstOccurrences
import TripleStore.Proofs.Graph.Matching

/-! # Histories of graphs

A history changes a graph step by step and may put a copy of it aside. Run on duplicate-free lists the
same steps give the same replies and, for every look-up, the same answer; whether pair indexes are
kept makes no difference. -/
namespace TripleStore
open FirstOccurrences

/-- A change of the current graph, or of the copy that is put aside. -/
inductive GraphStep
  | insert (t : Triple)
  | erase (t : Triple)
  | extend (ts : List Triple)
  | clear
  | ofList (ts : List Triple)
  | save
  | restore

inductive StepReply
  | done
  | truth (b : Bool)
  | count (n : Nat)
  deriving DecidableEq

/-- The current value and the copy that is put aside. -/
structure Bench (γ : Type) where
  current : γ
  saved : γ

namespace GraphStep

def apply (b : Bench Graph) : GraphStep → StepReply × Bench Graph
  | .insert t => (.truth (b.current.insert t).1, { b with current := (b.current.insert t).2 })
  | .erase t => (.truth (b.current.erase t).1, { b with current := (b.current.erase t).2 })
  | .extend ts => (.count (b.current.extend ts).1, { b with current := (b.current.extend ts).2 })
  | .clear => (.done, { b with current := b.current.clear })
  | .ofList ts => (.done, { b with current := Graph.ofList ts })
  | .save => (.done, { b with saved := b.current })
  | .restore => (.done, { b with current := b.saved })

/-- The elements of `ts` that are new to `l`, each once. -/
def news (l ts : List Triple) : List Triple := (ts.filter fun t => decide (t ∉ l)).eraseDups

theorem mem_news {l ts : List Triple} {t : Triple} : t ∈ news l ts ↔ t ∈ ts ∧ t ∉ l := by
  simp [news, List.mem_eraseDups, List.mem_filter]

theorem nodup_news (l ts : List Triple) : (news l ts).Nodup := nodup_eraseDups _

/-- What comes later is new if it is new to what has been there and to what has been added. -/
theorem news_append (l as bs : List Triple) :
    news l (as ++ bs) = news l as ++ news (l ++ news l as) bs := by
  rw [news, List.filter_append, List.eraseDups_append]
  congr 2
  rw [List.removeAll, List.filter_filter]
  refine List.filter_congr fun t _ => ?_
  by_cases hl : t ∈ l <;> simp [hl, mem_news]

/-- The same step on duplicate-free lists. -/
def applyList (b : Bench (List Triple)) : GraphStep → StepReply × Bench (List Triple)
  | .insert t =>
    (.truth (decide (t ∉ b.current)),
      { b with current := if t ∈ b.current then b.current else b.current ++ [t] })
  | .erase t => (.truth (decide (t ∈ b.current)), { b with current := b.current.erase t })
  | .extend ts =>
    (.count (news b.current ts).length, { b with current := b.current ++ news b.current ts })
  | .clear => (.done, { b with current := [] })
  | .ofList ts => (.done, { b with current := ts.eraseDups })
  | .save => (.done, { b with saved := b.current })
  | .restore => (.done, { b with current := b.saved })

def run {γ : Type} (step : Bench γ → GraphStep → StepReply × Bench γ) (b : Bench γ) :
    List GraphStep → List StepReply × Bench γ
  | [] => ([], b)
  | s :: ss => ((step b s).1 :: (run step (step b s).2 ss).1, (run step (step b s).2 ss).2)

end GraphStep

/-- The answers of a graph to all questions about it. -/
structure Lookups where
  size : Nat
  isEmpty : Bool
  contains : Triple → Bool
  all : List Triple
  withSubject : Node → List Triple
  withPredicate : Node → List Triple
  withObject : Node → List Triple
  withSubjectPredicate : Node → Node → List Triple
  withSubjectObject : Node → Node → List Triple
  withPredicateObject : Node → Node → List Triple
  matching : Option Node → Option Node → Option Node → List Triple
  blankNodes : List Node

def Graph.lookups (g : Graph) : Lookups where
  size := g.size
  isEmpty := g.isEmpty
  contains := g.contains
  all := g.toList
  withSubject := g.withSubject
  withPredicate := g.withPredicate
  withObject := g.withObject
  withSubjectPredicate := g.withSubjectPredicate
  withSubjectObject := g.withSubjectObject
  withPredicateObject := g.withPredicateObject
  matching := g.matching
  blankNodes := g.blankNodes

/-- The answers that searching a list gives. -/
def Lookups.ofList (l : List Triple) : Lookups where
  size := l.length
  isEmpty := l = []
  contains t := t ∈ l
  all := l
  withSubject s := l.filter fun t => t.subject = s
  withPredicate p := l.filter fun t => t.predicate = p
  withObject o := l.filter fun t => t.object = o
  withSubjectPredicate s p := l.filter fun t => t.subject = s ∧ t.predicate = p
  withSubjectObject s o := l.filter fun t => t.subject = s ∧ t.object = o
  withPredicateObject p o := l.filter fun t => t.predicate = p ∧ t.object = o
  matching s p o := l.filter fun t =>
    (∀ n ∈ s, t.subject = n) ∧ (∀ n ∈ p, t.predicate = n) ∧ ∀ n ∈ o, t.object = n
  blankNodes := ((l.flatMap fun t => [t.subject, t.object]).filter Node.isBlank).eraseDups

namespace Graph

/-- Every look-up is a search of the list, with or without pair indexes. -/
theorem lookups_eq (g : Graph) : g.lookups = Lookups.ofList g.toList := by
  unfold lookups Lookups.ofList
  congr 1
  · rw [isEmpty, Bool.eq_iff_iff, List.isEmpty_iff, decide_eq_true_eq]
  · funext t; exact g.contains_eq_decide t
  · funext s; exact g.withSubject_eq s
  · funext p; exact g.withPredicate_eq p
  · funext o; exact g.withObject_eq o
  · funext s p; simpa using g.withSubjectPredicate_eq s p
  · funext s o; simpa using g.withSubjectObject_eq s o
  · funext p o; simpa using g.withPredicateObject_eq p o
  · funext s p o; exact g.matching_eq s p o

theorem extend_spec (g : Graph) (ts : List Triple) :
    (g.extend ts).1 = (GraphStep.news g.toList ts).length ∧
      (g.extend ts).2.toList = g.toList ++ GraphStep.news g.toList ts := by
  induction ts generalizing g with
  | nil => simp [extend, GraphStep.news]
  | cons t ts ih =>
    obtain ⟨hn, hl⟩ := ih (g.insert t).2
    simp only [extend, fst_insert, hn, hl, toList_insert]
    by_cases ht : t ∈ g.toList
    · simp [ht, contains_iff.mpr ht, GraphStep.news]
    · have rest : GraphStep.news (g.toList ++ [t]) ts =
          ((ts.filter fun u => decide (u ∉ g.toList)).filter fun u => !u == t).eraseDups := by
        rw [GraphStep.news, List.filter_filter]
        congr 1
        apply List.filter_congr
        intro u _
        by_cases hu : u = t <;> simp [hu]
      have all : GraphStep.news g.toList (t :: ts) = t :: GraphStep.news (g.toList ++ [t]) ts := by
        rw [rest, GraphStep.news, List.filter_cons_of_pos (by simpa using ht), List.eraseDups_cons]
      simp [ht, contains_eq_decide, all]

theorem toList_ofList (ts : List Triple) : (ofList ts).toList = ts.eraseDups := by
  rw [ofList, (extend_spec _ ts).2]
  simp [GraphStep.news]

end Graph

namespace GraphStep

def lists (b : Bench Graph) : Bench (List Triple) := ⟨b.current.toList, b.saved.toList⟩

theorem apply_refines (b : Bench Graph) (s : GraphStep) :
    ((s.apply b).1, lists (s.apply b).2) = s.applyList (lists b) := by
  change _ = s.applyList ⟨b.current.toList, b.saved.toList⟩
  cases s with
  | insert t => simp [apply, applyList, lists, Graph.contains_eq_decide]
  | erase t =>
    have : b.current.toList.erase t = b.current.toList.filter (· ≠ t) := by
      rw [b.current.nodup.erase_eq_filter]
      apply List.filter_congr
      intro a _
      by_cases h : a = t <;> simp [h]
    simp [apply, applyList, lists, Graph.contains_eq_decide, this]
  | extend ts =>
    obtain ⟨hn, hl⟩ := b.current.extend_spec ts
    simp [apply, applyList, lists, hn, hl]
  | clear => simp [apply, applyList, lists]
  | ofList ts => simp [apply, applyList, lists, Graph.toList_ofList]
  | save => rfl
  | restore => rfl

theorem run_refines_lists (b : Bench Graph) (ss : List GraphStep) :
    (run (fun b s => s.apply b) b ss).1 = (run (fun b s => s.applyList b) (lists b) ss).1 ∧
      lists (run (fun b s => s.apply b) b ss).2 = (run (fun b s => s.applyList b) (lists b) ss).2 := by
  induction ss generalizing b with
  | nil => exact ⟨rfl, rfl⟩
  | cons s ss ih =>
    have hs := apply_refines b s
    obtain ⟨hr, hb⟩ := ih (s.apply b).2
    simp only [run, ← hs]
    exact ⟨congrArg _ hr, hb⟩

/-- The replies and the graphs of a history from an empty graph, with or without pair indexes. The copy
put aside at the beginning is an empty graph, too. -/
def history (pairs : Bool) (ss : List GraphStep) : List StepReply × Bench Graph :=
  run (fun b s => s.apply b) ⟨.empty pairs, .empty true⟩ ss

/-- The replies and the lists of the same history. -/
def listHistory (ss : List GraphStep) : List StepReply × Bench (List Triple) :=
  run (fun b s => s.applyList b) ⟨[], []⟩ ss

theorem history_eq (pairs : Bool) (ss : List GraphStep) :
    (history pairs ss).1 = (listHistory ss).1 ∧
      (history pairs ss).2.current.toList = (listHistory ss).2.current := by
  obtain ⟨hr, hb⟩ := run_refines_lists ⟨.empty pairs, .empty true⟩ ss
  exact ⟨hr, congrArg Bench.current hb⟩

/-- Every history gives the replies of the history of lists and leads to a graph that answers like its
list, which has no duplicates. The answers do not depend on the pair indexes, and the blank nodes are
listed in the order of their first occurrence as subject or object. -/
theorem history_refines (pairs : Bool) (ss : List GraphStep) :
    let g := (history pairs ss).2.current
    let l := (listHistory ss).2.current
    let occurrences := l.flatMap fun t => [t.subject, t.object]
    (history pairs ss).1 = (listHistory ss).1 ∧ l.Nodup ∧ g.lookups = Lookups.ofList l ∧
      (∀ pairs', (history pairs' ss).2.current.lookups = g.lookups) ∧
      g.blankNodes.Nodup ∧ (∀ n, n ∈ g.blankNodes ↔ n.isBlank ∧ n ∈ occurrences) ∧
      g.blankNodes.Pairwise fun a b => occurrences.idxOf a < occurrences.idxOf b := by
  intro g l occurrences
  obtain ⟨hr, hl⟩ := history_eq pairs ss
  have hg : g.lookups = Lookups.ofList l := by rw [g.lookups_eq, hl]
  have hb : g.blankNodes = (occurrences.filter Node.isBlank).eraseDups := congrArg Lookups.blankNodes hg
  have hn : l.Nodup := by
    have := g.nodup
    rwa [hl] at this
  refine ⟨hr, hn, hg, fun pairs' => ?_, ?_, fun n => ?_, ?_⟩
  · rw [hg, Graph.lookups_eq, (history_eq pairs' ss).2]
  · exact hb ▸ nodup_eraseDups _
  · rw [hb, List.mem_eraseDups, List.mem_filter, and_comm]
  · rw [hb]
    refine (pairwise_idxOf_eraseDups _).imp_of_mem fun {a b} ha hb h => ?_
    have blank {n : Node} (hn : n ∈ (occurrences.filter Node.isBlank).eraseDups) : n.isBlank = true :=
      (List.mem_filter.mp (List.mem_eraseDups.mp hn)).2
    exact idxOf_lt_of_filter (blank ha) (blank hb) h

end GraphStep
end TripleStore
