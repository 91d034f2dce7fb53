import TripleStore.Graph

/-! # Look-ups

The triples of a graph with given nodes in given positions, and the triples that mention a node. A
pair of positions is looked up in its own index, or, in a graph without pair indexes, in the index of
one of the positions. Either way the answer is the matching triples in the order of the graph. -/
namespace TripleStore.Graph

def withSubject (g : Graph) (s : Node) : List Triple := g.bySubject.get s
def withPredicate (g : Graph) (p : Node) : List Triple := g.byPredicate.get p
def withObject (g : Graph) (o : Node) : List Triple := g.byObject.get o

def withSubjectPredicate (g : Graph) (s p : Node) : List Triple :=
  match g.pairs with
  | some ps => ps.subjectPredicate.get (s, p)
  | none => (g.bySubject.get s).filter (·.predicate = p)

def withSubjectObject (g : Graph) (s o : Node) : List Triple :=
  match g.pairs with
  | some ps => ps.subjectObject.get (s, o)
  | none => (g.bySubject.get s).filter (·.object = o)

def withPredicateObject (g : Graph) (p o : Node) : List Triple :=
  match g.pairs with
  | some ps => ps.predicateObject.get (p, o)
  | none => (g.byObject.get o).filter (·.predicate = p)

/-- The triples with the given nodes; a position without a node matches any. -/
def matching (g : Graph) : Option Node → Option Node → Option Node → List Triple
  | some s, some p, some o => if g.contains ⟨s, p, o⟩ then [⟨s, p, o⟩] else []
  | some s, some p, none => g.withSubjectPredicate s p
  | some s, none, some o => g.withSubjectObject s o
  | none, some p, some o => g.withPredicateObject p o
  | some s, none, none => g.withSubject s
  | none, some p, none => g.withPredicate p
  | none, none, some o => g.withObject o
  | none, none, none => g.toList

/-- The triples that mention a node in some position, each of them once: those with the node as
subject, then the others with it as predicate, then the others with it as object. -/
def mentioning (g : Graph) (n : Node) : List Triple :=
  g.withSubject n ++ (g.withPredicate n).filter (·.subject ≠ n) ++
    (g.withObject n).filter (fun t => t.subject ≠ n && t.predicate ≠ n)

def countMentions (g : Graph) (n : Node) : Nat := (g.mentioning n).length

/-- The blank nodes among subjects and objects in the order of their first occurrence. -/
def blankNodes (g : Graph) : List Node := Triple.blankNodes g.toList

theorem withSubject_eq (g : Graph) (s : Node) : g.withSubject s = g.toList.filter (·.subject = s) :=
  g.bySubject_groups s

theorem withPredicate_eq (g : Graph) (p : Node) :
    g.withPredicate p = g.toList.filter (·.predicate = p) :=
  g.byPredicate_groups p

theorem withObject_eq (g : Graph) (o : Node) : g.withObject o = g.toList.filter (·.object = o) :=
  g.byObject_groups o

theorem withSubjectPredicate_eq (g : Graph) (s p : Node) :
    g.withSubjectPredicate s p = g.toList.filter fun t => t.subject = s && t.predicate = p := by
  unfold withSubjectPredicate
  split
  next ps h => rw [(g.pairs_groups ps h).subjectPredicate]; simp
  next => rw [g.bySubject_groups, List.filter_filter]; simp [Bool.and_comm]

theorem withSubjectObject_eq (g : Graph) (s o : Node) :
    g.withSubjectObject s o = g.toList.filter fun t => t.subject = s && t.object = o := by
  unfold withSubjectObject
  split
  next ps h => rw [(g.pairs_groups ps h).subjectObject]; simp
  next => rw [g.bySubject_groups, List.filter_filter]; simp [Bool.and_comm]

theorem withPredicateObject_eq (g : Graph) (p o : Node) :
    g.withPredicateObject p o = g.toList.filter fun t => t.predicate = p && t.object = o := by
  unfold withPredicateObject
  split
  next ps h => rw [(g.pairs_groups ps h).predicateObject]; simp
  next => rw [g.byObject_groups, List.filter_filter]

end TripleStore.Graph
