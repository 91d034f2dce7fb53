import TripleStore.Proofs.Turtle.Words
import TripleStore.Triple

/-! # Canonical texts and the order of nodes

The canonical text of a node determines the node, whatever characters stand in its value, its label or
its datatype: the first character tells the kind, and a quoted value can be read back up to its closing
quote. So the order of nodes, which compares canonical texts within a kind, is a total order that agrees
with equality, and the order of triples is one, too. -/
namespace TripleStore

/-- A quoted text and whatever follows it can be told apart. -/
theorem Quoted.enclosed_inj {v w s t : String} :
    "\"" ++ encode v ++ "\"" ++ s = "\"" ++ encode w ++ "\"" ++ t ↔ v = w ∧ s = t := by
  refine ⟨fun h => ?_, fun ⟨hv, hs⟩ => by rw [hv, hs]⟩
  have chars : v.toList.flatMap escape ++ '"' :: s.toList = w.toList.flatMap escape ++ '"' :: t.toList := by
    simpa using congrArg String.toList h
  have read := congrArg (Turtle.scanShort '"') chars
  rw [Turtle.scanShort_encode, Turtle.scanShort_encode, Option.some.injEq, Prod.mk.injEq] at read
  exact ⟨String.toList_inj.mp read.1, String.toList_inj.mp read.2⟩

namespace Literal

theorem tag_ne_datatype (s d : String) : "@" ++ s ≠ "^^<" ++ d ++ ">" := by
  intro h
  simpa using congrArg (fun s => s.toList.head?) h

/-- The value and what follows the closing quote determine a literal. -/
theorem eq_of_suffix_eq {l m : Literal} (value : l.lexical = m.lexical) (suffix : l.suffix = m.suffix) :
    l = m := by
  obtain v | ⟨v, s, hs⟩ | ⟨v, d, hd⟩ := l <;> obtain w | ⟨w, t, ht⟩ | ⟨w, e, he⟩ := m <;>
    simp_all [lexical, Literal.suffix, tag_ne_datatype, (tag_ne_datatype _ _).symm]

theorem canonical_inj {l m : Literal} : l.canonical = m.canonical ↔ l = m := by
  refine ⟨fun h => ?_, congrArg canonical⟩
  obtain ⟨value, suffix⟩ := Quoted.enclosed_inj.mp h
  exact eq_of_suffix_eq value suffix

end Literal

namespace Node

/-- The character with which the canonical texts of a kind of nodes begin. -/
def sign : Node → Char
  | iri _ => '<'
  | blank _ => '_'
  | literal _ => '"'
  | var _ => '?'

theorem head?_canonical (n : Node) : n.canonical.toList.head? = some n.sign := by
  cases n <;> simp [canonical, Literal.canonical, sign]

theorem sign_eq_of_canonical_eq {a b : Node} (h : a.canonical = b.canonical) : a.sign = b.sign := by
  have first := congrArg (fun s => s.toList.head?) h
  simpa only [head?_canonical, Option.some.injEq] using first

/-- Nodes with one canonical text are the same. -/
theorem canonical_inj {a b : Node} : a.canonical = b.canonical ↔ a = b := by
  refine ⟨fun h => ?_, congrArg canonical⟩
  have kind := sign_eq_of_canonical_eq h
  cases a with
  | iri v =>
    cases b with
    | iri w => simpa [canonical] using h
    | _ => simp [sign] at kind
  | blank v =>
    cases b with
    | blank w => simpa [canonical] using h
    | _ => simp [sign] at kind
  | literal v =>
    cases b with
    | literal w => exact congrArg literal (Literal.canonical_inj.mp h)
    | _ => simp [sign] at kind
  | var v =>
    cases b with
    | var w => simpa [canonical] using h
    | _ => simp [sign] at kind

theorem compare_eq_iff {a b : Node} : compare a b = .eq ↔ a = b := by
  refine ⟨fun h => ?_, fun h => ?_⟩
  · exact canonical_inj.mp (Std.LawfulEqOrd.eq_of_compare (Ordering.then_eq_eq.mp h).2)
  · rw [h, compare, Std.ReflOrd.compare_self, Std.ReflOrd.compare_self]
    rfl

instance : Std.TransOrd Node :=
  inferInstanceAs (Std.TransCmp (compareLex (compareOn rank) (compareOn canonical)))

instance : Std.LawfulEqOrd Node where
  compare_self := compare_eq_iff.mpr rfl
  eq_of_compare := compare_eq_iff.mp

/-- Kinds are compared before canonical texts. -/
theorem compare_of_rank_lt {a b : Node} (h : a.rank < b.rank) : compare a b = .lt := by
  rw [compare, Nat.compare_eq_lt.mpr h]
  rfl

end Node

namespace Triple

theorem compare_eq_iff {a b : Triple} : compare a b = .eq ↔ a = b := by
  cases a
  cases b
  simp only [compare, Ordering.then_eq_eq, Std.LawfulEqOrd.compare_eq_iff_eq, mk.injEq]

instance : Std.TransOrd Triple :=
  inferInstanceAs (Std.TransCmp
    (compareLex (compareOn subject) (compareLex (compareOn predicate) (compareOn object))))

instance : Std.LawfulEqOrd Triple where
  compare_self := compare_eq_iff.mpr rfl
  eq_of_compare := compare_eq_iff.mp

end Triple

/-- Nodes are the same if their canonical texts are, and just then they compare as equal and pass the test
for the same hash and the same value. So the order of nodes is total, and so is the order of triples; all
blank nodes come before all IRIs, these before all literals, and these before all variables. -/
theorem Node.canonical_order :
    (∀ a b : Node, (a = b ↔ a.canonical = b.canonical) ∧
      (a.canonical = b.canonical ↔ Ord.compare a b = .eq) ∧
      (a.canonical = b.canonical ↔ hash a = hash b ∧ a = b)) ∧
    Std.TransOrd Node ∧ Std.LawfulEqOrd Node ∧
    (∀ (b v : String) (l : Literal) (x : String), Ord.compare (Node.blank b) (.iri v) = .lt ∧
      Ord.compare (Node.iri v) (.literal l) = .lt ∧ Ord.compare (Node.literal l) (.var x) = .lt) ∧
    Std.TransOrd Triple ∧ Std.LawfulEqOrd Triple := by
  refine ⟨fun a b => ⟨canonical_inj.symm, ?_, ?_⟩, inferInstance, inferInstance, ?_, inferInstance,
    inferInstance⟩
  · exact canonical_inj.trans compare_eq_iff.symm
  · exact canonical_inj.trans ⟨fun h => ⟨congrArg hash h, h⟩, And.right⟩
  · intro b v l x
    exact ⟨compare_of_rank_lt Nat.zero_lt_one, compare_of_rank_lt Nat.one_lt_two,
      compare_of_rank_lt (Nat.lt_succ_self 2)⟩

end TripleStore
