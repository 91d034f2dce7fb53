import TripleStore.Proofs.Graph.History

/-! # Mentions

The triples that mention a node are looked up at one position after the other. Each of them is found at
the first position at which it has the node and left out at the later ones, so that counting them counts
triples, however often a triple has the node. -/
namespace TripleStore

/-- The first position at which a triple has a node. -/
def Triple.firstPlace? (t : Triple) (n : Node) : Option Position :=
  Position.all.find? fun p => t.nodeAt p = n

theorem Triple.firstPlace?_eq (t : Triple) (n : Node) : t.firstPlace? n =
    if t.subject = n then some .subject
    else if t.predicate = n then some .predicate
    else if t.object = n then some .object
    else none := by
  by_cases hs : t.subject = n <;> by_cases hp : t.predicate = n <;> by_cases ho : t.object = n <;>
    simp [firstPlace?, Position.all, nodeAt, hs, hp, ho]

namespace Graph

/-- The triples that mention a node come by their first position with the node, and for each position in
the order of the graph. -/
theorem mentioning_eq (g : Graph) (n : Node) : g.mentioning n =
    Position.all.flatMap fun p => g.toList.filter fun t => t.firstPlace? n = some p := by
  have subject : g.withSubject n = g.toList.filter fun t => t.firstPlace? n = some .subject := by
    rw [withSubject_eq]
    exact List.filter_congr fun t _ => by grind [Triple.firstPlace?_eq]
  have predicate : (g.withPredicate n).filter (·.subject ≠ n) =
      g.toList.filter fun t => t.firstPlace? n = some .predicate := by
    rw [withPredicate_eq, List.filter_filter]
    exact List.filter_congr fun t _ => by grind [Triple.firstPlace?_eq]
  have object : (g.withObject n).filter (fun t => t.subject ≠ n && t.predicate ≠ n) =
      g.toList.filter fun t => t.firstPlace? n = some .object := by
    rw [withObject_eq, List.filter_filter]
    exact List.filter_congr fun t _ => by grind [Triple.firstPlace?_eq]
  rw [mentioning, subject, predicate, object]
  simp only [Position.all, List.flatMap_cons, List.flatMap_nil, List.append_nil, List.append_assoc]

theorem countMentions_eq (g : Graph) (n : Node) :
    g.countMentions n = (g.toList.filter (·.mentions n)).length :=
  (g.mentioning_perm n).length_eq

end Graph

namespace GraphStep

/-- Whatever the history of a graph and its indexes, the triples that mention a node are those of the list
of the same history with the node at some position, each of them once, and they are counted so. They come
by the first position with the node. -/
theorem history_mentioning (pairs : Bool) (ss : List GraphStep) (n : Node) :
    let g := (history pairs ss).2.current
    let l := (listHistory ss).2.current
    g.toList = l ∧ (g.mentioning n).Perm (l.filter (·.mentions n)) ∧ (g.mentioning n).Nodup ∧
      g.countMentions n = (l.filter (·.mentions n)).length ∧
      g.mentioning n = Position.all.flatMap fun p => l.filter fun t => t.firstPlace? n = some p := by
  intro g l
  have list : g.toList = l := (history_eq pairs ss).2
  rw [← list]
  exact ⟨rfl, g.mentioning_perm n, g.nodup_mentioning n, g.countMentions_eq n, g.mentioning_eq n⟩

end GraphStep

/-- A triple with a node at all positions is found once. -/
example :
    let n := Node.iri "http://example.com/n"
    let s := Node.iri "http://example.com/s"
    (Graph.ofList [⟨s, n, n⟩, ⟨n, n, n⟩, ⟨s, s, s⟩, ⟨n, s, n⟩]).mentioning n =
      [⟨n, n, n⟩, ⟨n, s, n⟩, ⟨s, n, n⟩] := by
  decide

end TripleStore
