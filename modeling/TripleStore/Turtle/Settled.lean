import TripleStore.Collection.Analysis

/-! # Settled collections

Of the collections that the analysis finds, the ones that can be written without losing a triple: the
key must be mentioned by a single triple outside the collection, in the place where the collection is
then written, and no collection may contain itself through others. -/
namespace TripleStore.Turtle

/-- The triples outside a collection that mention its key. -/
def links (g : Graph) (k : Node) (c : Collection) : List Triple :=
  (g.mentioning k).filter fun t => !c.claims.contains t

/-- Whether writing a collection at the place of its only link accounts for every triple that mentions
one of its blank nodes. -/
def canBeInlined (g : Graph) (k : Node) (c : Collection) : Bool :=
  match links g k c with
  | [link] =>
    match c.form with
    | .brackets =>
      if c.isEmpty then decide (link.subject = k) != decide (link.object = k)
      else link.object = k && link.subject ≠ k &&
        c.triples.all fun t => t.subject = k && t.object ≠ k
    | .list =>
      link.object = k && link.subject ≠ k &&
        (c.triples.drop 1).all fun first => (g.mentioning first.subject).all c.claims.contains
  | _ => false

/-- The keys among the items of the collection of a key. -/
def children (r : Registry) (k : Node) : List Node :=
  match r.get? k with
  | none => []
  | some c => c.items.filter r.contains

/-- The keys that are reached from the keys `next` by steps from a key to its children, each of them
once. `left` holds the keys that have not been reached. -/
def reached (r : Registry) (left next : List Node) : List Node :=
  match next with
  | [] => []
  | k :: ks =>
    if _ : k ∈ left then k :: reached r (left.erase k) (children r k ++ ks) else reached r left ks
termination_by (left.length, next.length)
decreasing_by
  · have h : k ∈ left := by assumption
    have := List.length_pos_of_mem h
    simp only [List.length_erase_of_mem h]
    exact Prod.Lex.left _ _ (by omega)
  · exact Prod.Lex.right _ (by simp)

def isCyclic (r : Registry) (k : Node) : Bool := (reached r r.keys (children r k)).contains k

/-- The collections that are written inline. -/
def settle (g : Graph) (r : Registry) : Registry :=
  let kept := r.filter (canBeInlined g)
  kept.filter fun k _ => !isCyclic kept k

end TripleStore.Turtle
