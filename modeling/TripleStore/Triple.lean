import TripleStore.Node

/-! # Triples

A triple has a node in each of three positions. Triples with any nodes serve as probes; the legal
ones, which graphs are meant to hold, are built by `Triple.checked`. -/
namespace TripleStore

inductive Position
  | subject
  | predicate
  | object
  deriving DecidableEq

def Position.all : List Position := [.subject, .predicate, .object]

structure Triple where
  subject : Node
  predicate : Node
  object : Node
  deriving DecidableEq

inductive TripleError
  | invalidSubject (node : Node)
  | invalidPredicate (node : Node)
  | invalidObject (node : Node)
  deriving DecidableEq

def TripleError.message : TripleError → String
  | invalidSubject n => n.canonical ++ " can not be used as the subject of a triple"
  | invalidPredicate n => n.canonical ++ " can not be used as the predicate of a triple"
  | invalidObject n => n.canonical ++ " can not be used as the object of a triple"

namespace Triple

def nodeAt (t : Triple) : Position → Node
  | .subject => t.subject
  | .predicate => t.predicate
  | .object => t.object

/-- Accepts an IRI or a blank node as subject, an IRI as predicate and anything but a variable as
object. The first offending position is reported. -/
def checked (s p o : Node) : Except TripleError Triple :=
  if !(s.isIri || s.isBlank) then .error (.invalidSubject s)
  else if !p.isIri then .error (.invalidPredicate p)
  else if o.isVar then .error (.invalidObject o)
  else .ok ⟨s, p, o⟩

/-- Whether every node is allowed in its position. -/
def isLegal (t : Triple) : Bool :=
  (t.subject.isIri || t.subject.isBlank) && t.predicate.isIri && !t.object.isVar

theorem of_isLegal {t : Triple} (h : t.isLegal = true) :
    (t.subject.isIri || t.subject.isBlank) = true ∧ t.predicate.isIri = true ∧
      t.object.isVar = false := by
  simp only [isLegal, Bool.and_eq_true, Bool.not_eq_true'] at h
  exact ⟨h.1.1, h.1.2, h.2⟩

theorem checked_eq_ok_iff {s p o : Node} {t : Triple} :
    checked s p o = .ok t ↔ t = ⟨s, p, o⟩ ∧ t.isLegal = true := by
  have flip : (t = ⟨s, p, o⟩ ∧ t.isLegal = true) ↔ (⟨s, p, o⟩ : Triple).isLegal = true ∧ ⟨s, p, o⟩ = t :=
    ⟨fun ⟨h, hl⟩ => ⟨h ▸ hl, h.symm⟩, fun ⟨hl, h⟩ => ⟨h.symm, h ▸ hl⟩⟩
  rw [flip]
  cases hs : (s.isIri || s.isBlank) <;> cases hp : p.isIri <;> cases ho : o.isVar <;>
    simp [checked, isLegal, hs, hp, ho]

def mentions (t : Triple) (n : Node) : Bool := t.subject = n || t.predicate = n || t.object = n

/-- The blank nodes among the subjects and objects of triples, each once, by first occurrence. -/
def blankNodes (ts : List Triple) : List Node :=
  ((ts.flatMap fun t => [t.subject, t.object]).filter Node.isBlank).eraseDups

theorem mem_blankNodes {ts : List Triple} {n : Node} :
    n ∈ blankNodes ts ↔ n.isBlank = true ∧ ∃ t ∈ ts, t.subject = n ∨ t.object = n := by
  simp only [blankNodes, List.mem_eraseDups, List.mem_filter, List.mem_flatMap, List.mem_cons,
    List.not_mem_nil, or_false, eq_comm (a := n), and_comm]

def rename (f : Node → Node) (t : Triple) : Triple := ⟨f t.subject, t.predicate, f t.object⟩

def spaced (t : Triple) : String :=
  t.subject.canonical ++ " " ++ t.predicate.canonical ++ " " ++ t.object.canonical

def canonical (t : Triple) : String := t.spaced ++ " ."

instance : ToString Triple := ⟨canonical⟩

/-- Triples are ordered by subject, then by predicate, then by object. -/
def compare (a b : Triple) : Ordering :=
  (Ord.compare a.subject b.subject).then
    ((Ord.compare a.predicate b.predicate).then (Ord.compare a.object b.object))

instance : Ord Triple := ⟨compare⟩

end Triple
end TripleStore
