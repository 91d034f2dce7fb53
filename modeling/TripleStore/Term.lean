import TripleStore.Triple

/-! # RDF terms

The nodes that may stand in an RDF graph, and RDF statements, in which only allowed terms can stand.
They are the nodes without variables and the legal triples. -/
namespace TripleStore

/-- An IRI, a blank node or a literal. -/
inductive Term
  | iri (value : String)
  | blank (label : String)
  | literal (value : Literal)
  deriving DecidableEq

def Term.toNode : Term → Node
  | iri v => .iri v
  | blank l => .blank l
  | literal l => .literal l

/-- The term of a node; variables have none. -/
def Node.toTerm? : Node → Option Term
  | iri v => some (.iri v)
  | blank l => some (.blank l)
  | literal l => some (.literal l)
  | var _ => none

theorem Node.toTerm?_eq_some_iff {n : Node} {t : Term} : n.toTerm? = some t ↔ n = t.toNode := by
  cases n <;> cases t <;> simp [toTerm?, Term.toNode, eq_comm]

/-- The subject of a statement. -/
inductive Resource
  | iri (value : String)
  | blank (label : String)
  deriving DecidableEq

def Resource.toNode : Resource → Node
  | iri v => .iri v
  | blank l => .blank l

structure Statement where
  subject : Resource
  predicate : String
  object : Term
  deriving DecidableEq

def Statement.toTriple (s : Statement) : Triple := ⟨s.subject.toNode, .iri s.predicate, s.object.toNode⟩

/-- The statement of a triple; the first position with a node that is not allowed there is
reported. -/
def Triple.toStatement (t : Triple) : Except TripleError Statement :=
  let subject := match t.subject with
    | .iri v => some (Resource.iri v)
    | .blank l => some (.blank l)
    | _ => none
  match subject, t.predicate, t.object.toTerm? with
  | none, _, _ => .error (.invalidSubject t.subject)
  | some s, .iri p, some o => .ok ⟨s, p, o⟩
  | some _, .iri _, none => .error (.invalidObject t.object)
  | some _, p, _ => .error (.invalidPredicate p)

end TripleStore
