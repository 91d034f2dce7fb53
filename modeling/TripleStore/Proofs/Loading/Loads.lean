import TripleStore.Proofs.Loading.Copies
import TripleStore.Store

/-! # Loads

A load adds all of a document or, if there is an error anywhere, nothing. The blank nodes it adds have
labels that have not been in use, so each load of a document adds another copy of the triples with blank
nodes, while the others are added once. The parser is any function from a source to items. -/
namespace TripleStore
open GraphStep

/-- The items are triples throughout, or an error follows some triples. -/
theorem Source.items_cases (items : List (Except LoadError Triple)) :
    (∃ ts : List Triple, items = ts.map .ok) ∨
      ∃ (ts : List Triple) (e : LoadError) (rest : List (Except LoadError Triple)),
        items = ts.map .ok ++ .error e :: rest := by
  induction items with
  | nil => exact .inl ⟨[], rfl⟩
  | cons item items ih =>
    cases item with
    | error e => exact .inr ⟨[], e, items, rfl⟩
    | ok t =>
      obtain ⟨ts, rfl⟩ | ⟨ts, e, rest, rfl⟩ := ih
      · exact .inl ⟨t :: ts, rfl⟩
      · exact .inr ⟨t :: ts, e, rest, rfl⟩

variable {parse : Parser} {source : Source} {base : Option String} {ts : List Triple}

theorem Source.triples_invalidBase {b : String} (hb : b ∈ base) (hv : Iri.isValid b = false) :
    source.triples parse base = .error (.invalidBase b) := by
  obtain rfl : base = some b := hb
  have some_invalid : (some b).filter (fun b => !Iri.isValid b) = some b := by simp [Option.filter, hv]
  rw [triples, some_invalid]

theorem Source.triples_of_valid (hb : ∀ b ∈ base, Iri.isValid b = true) :
    source.triples parse base = (parse source base).mapM id := by
  have none_invalid : (base.filter fun b => !Iri.isValid b) = none := by
    rw [Option.filter_eq_none_iff]
    intro b hbase
    simp [hb b hbase]
  rw [triples, none_invalid]

theorem Source.mapM_append_error (ts : List Triple) (e : LoadError)
    (rest : List (Except LoadError Triple)) :
    (ts.map .ok ++ .error e :: rest : List (Except LoadError Triple)).mapM id = .error e := by
  induction ts with
  | nil => simp only [List.map_nil, List.nil_append, List.mapM_cons]; rfl
  | cons t ts ih => simp only [List.map_cons, List.cons_append, List.mapM_cons, ih]; rfl

theorem Source.mapM_ok (ts : List Triple) :
    (ts.map (.ok : Triple → Except LoadError Triple)).mapM id = .ok ts := by
  induction ts with
  | nil => rfl
  | cons t ts ih => simp only [List.map_cons, List.mapM_cons, ih]; rfl

theorem Source.triples_eq_ok_iff :
    source.triples parse base = .ok ts ↔
      (∀ b ∈ base, Iri.isValid b = true) ∧ parse source base = ts.map .ok := by
  by_cases hb : ∀ b ∈ base, Iri.isValid b = true
  · rw [triples_of_valid hb]
    obtain ⟨us, hi⟩ | ⟨us, e, rest, hi⟩ := items_cases (parse source base)
    · rw [hi, mapM_ok, List.map_inj_right fun _ _ => Except.ok.inj]
      exact ⟨fun h => ⟨hb, Except.ok.inj h⟩, fun h => congrArg _ h.2⟩
    · have not_ok : us.map .ok ++ .error e :: rest ≠ ts.map (.ok : Triple → Except LoadError Triple) := by
        intro h
        have : Except.error e ∈ ts.map (.ok : Triple → Except LoadError Triple) := h ▸ by simp
        simp at this
      rw [hi, mapM_append_error]
      simp [not_ok]
  · push Not at hb
    obtain ⟨b, hbase, hv⟩ := hb
    rw [triples_invalidBase hbase (by simpa using hv)]
    simp only [reduceCtorEq, false_iff]
    exact fun h => hv (h.1 b hbase)

theorem Source.turtle_ofText (text : String) (base : Option String) :
    Source.turtle (.ofText text) base =
      match Turtle.read? .narrow base text with
      | none => [.error .malformed]
      | some ts => ts.map .ok := by
  simp only [turtle, ofText, Turtle.text?_toUTF8, Option.bind_some]
  rfl

namespace Workspace
variable {w : Workspace} {s : Store}

/-- The graph of a store is one of the workspace. -/
def Holds (w : Workspace) (s : Store) : Prop := s.graph < w.graphs.length

/-- No graph mentions a fresh blank node that is still to be drawn. -/
def LabelsUnused (w : Workspace) : Prop :=
  ∀ g ∈ w.graphs, ∀ t ∈ g.toList, ∀ n, w.drawn ≤ n → t.mentions (freshNode w.labels n) = false

theorem graphOf_setGraph (g : Graph) (h : w.Holds s) {s' : Store} (hs : s'.graph = s.graph) :
    (w.setGraph s g).graphOf s' = g := by
  rw [graphOf, setGraph, hs, List.getD_eq_getElem?_getD, List.getElem?_set_self h, Option.getD_some]

theorem graphOf_setGraph_of_ne (w : Workspace) (g : Graph) {s' : Store} (hs : s'.graph ≠ s.graph) :
    (w.setGraph s g).graphOf s' = w.graphOf s' := by
  simp [graphOf, setGraph, List.getD_eq_getElem?_getD, List.getElem?_set_ne hs.symm]

theorem LabelsUnused.not_mentioned (hw : w.LabelsUnused) {t : Triple} (ht : t ∈ (w.graphOf s).toList)
    {n : Nat} (hn : w.drawn ≤ n) : t.mentions (freshNode w.labels n) = false := by
  rw [graphOf, List.getD_eq_getElem?_getD] at ht
  cases hg : w.graphs[s.graph]? with
  | none => simp [hg] at ht
  | some g => exact hw g (List.mem_of_getElem? hg) t (by simpa [hg] using ht) n hn

/-! ## One load -/

theorem loadWith_error {e : LoadError} (h : source.triples parse base = .error e) :
    w.loadWith parse s source base = (.error e, w) := by
  rw [loadWith, h]

/-- A reply counts the triples that every store with the same graph sees after the old ones. Other graphs
stay as they are. -/
structure Gains (w : Workspace) (s : Store) (added : List Triple)
    (r : Except LoadError Nat × Workspace) : Prop where
  reply : r.1 = .ok added.length
  clones : ∀ s' : Store, s'.graph = s.graph → (r.2.graphOf s').toList = (w.graphOf s).toList ++ added
  others : ∀ s' : Store, s'.graph ≠ s.graph → r.2.graphOf s' = w.graphOf s'

theorem loadWith_ok (h : source.triples parse base = .ok ts) :
    w.loadWith parse s source base =
      (.ok (w.extend s (freshTriples w.labels w.drawn ts)).1,
        { (w.extend s (freshTriples w.labels w.drawn ts)).2 with
          drawn := w.drawn + (Triple.blankNodes ts).length }) := by
  rw [loadWith, h]

theorem loadWith_gains (hs : w.Holds s) (h : source.triples parse base = .ok ts) :
    w.Gains s (news (w.graphOf s).toList (freshTriples w.labels w.drawn ts))
      (w.loadWith parse s source base) := by
  obtain ⟨count, list⟩ := (w.graphOf s).extend_spec (freshTriples w.labels w.drawn ts)
  rw [loadWith_ok h]
  refine ⟨congrArg _ count, fun s' hs' => ?_, fun s' hs' => ?_⟩
  · exact (congrArg Graph.toList (graphOf_setGraph _ hs hs')).trans list
  · exact graphOf_setGraph_of_ne w _ hs'

/-- Loading legal triples leaves unused the labels that are still to be drawn. -/
theorem LabelsUnused.loadWith (hw : w.LabelsUnused)
    (legal : ∀ t, .ok t ∈ parse source base → t.isLegal = true) :
    (w.loadWith parse s source base).2.LabelsUnused := by
  cases h : source.triples parse base with
  | error e => rwa [loadWith_error h]
  | ok ts =>
    rw [loadWith_ok h]
    intro g hg t ht n (hn : w.drawn + (Triple.blankNodes ts).length ≤ n)
    change t.mentions (freshNode w.labels n) = false
    rcases List.mem_or_eq_of_mem_set hg with hg | rfl
    · exact hw g hg t ht n (by omega)
    rw [((w.graphOf s).extend_spec _).2, List.mem_append, mem_news] at ht
    rcases ht with ht | ⟨ht, -⟩
    · exact hw.not_mentioned ht (by omega)
    · -- A new triple has fresh names from before `n`, and a legal predicate is not blank.
      obtain ⟨u, hu, rfl⟩ := List.mem_map.mp ht
      have hl := legal u ((Source.triples_eq_ok_iff.mp h).2 ▸ List.mem_map_of_mem hu)
      have hp : u.predicate ≠ freshNode w.labels n := by
        intro hp
        simpa [hp, freshNode, Node.isIri] using (Triple.of_isLegal hl).2.1
      have other {a : Node} (ha : a.isBlank = true → a ∈ Triple.blankNodes ts) :
          freshening w.labels w.drawn (Triple.blankNodes ts) a ≠ freshNode w.labels n :=
        freshening_ne_freshNode ha hn
      simp [Triple.mentions, Triple.rename, hp, other (Triple.mem_blankNodes_of_subject hu),
        other (Triple.mem_blankNodes_of_object hu)]

/-! ## Load after load -/

/-- Loads the same source `n` times into the graph of a store. -/
def loadTimes (parse : Parser) (w : Workspace) (s : Store) (source : Source) (base : Option String) :
    Nat → Workspace
  | 0 => w
  | n + 1 => ((w.loadTimes parse s source base n).loadWith parse s source base).2

/-- The names of blank nodes in the load after `i` loads. -/
def naming (w : Workspace) (ts : List Triple) (i : Nat) : Node → Node :=
  freshening w.labels (w.drawn + i * (Triple.blankNodes ts).length) (Triple.blankNodes ts)

/-- Rounds of the same length have no number in common. -/
theorem rounds_eq {k x y i j : Nat} (hx : x < k) (hy : y < k) (h : i * k + x = j * k + y) :
    i = j ∧ x = y := by
  have rounds := congrArg (· / k) h
  simp only [Nat.mul_comm _ k, Nat.mul_add_div (Nat.zero_lt_of_lt hx), Nat.div_eq_of_lt hx,
    Nat.div_eq_of_lt hy, Nat.add_zero] at rounds
  subst rounds
  exact ⟨rfl, Nat.add_left_cancel h⟩

theorem namesCopies_naming (hw : w.LabelsUnused) (s : Store) (ts : List Triple) :
    NamesCopies (w.naming ts) ts (w.graphOf s).toList where
  inj i j a ha b hb hab := by
    rw [naming, naming, freshening_of_mem ha, freshening_of_mem hb] at hab
    have labels := freshNode_inj hab
    rw [Nat.add_assoc, Nat.add_assoc] at labels
    obtain ⟨round, place⟩ := rounds_eq (List.idxOf_lt_length_of_mem ha)
      (List.idxOf_lt_length_of_mem hb) (Nat.add_left_cancel labels)
    exact ⟨round, (List.idxOf_inj ha).mp place⟩
  blank i a ha := by rw [naming, freshening_of_mem ha]; rfl
  unused i a ha t ht := by
    rw [naming, freshening_of_mem ha]
    exact hw.not_mentioned ht (by omega)
  fixed i a ha := freshening_of_not_mem fun h => by simp [(Triple.mem_blankNodes.mp h).1] at ha

/-- What `n` loads of the same triples lead to. -/
structure Loaded (w : Workspace) (s : Store) (ts : List Triple) (n : Nat) (w' : Workspace) : Prop where
  holds : w'.Holds s
  labels : w'.labels = w.labels
  drawn : w'.drawn = w.drawn + n * (Triple.blankNodes ts).length
  list : (w'.graphOf s).toList =
    (w.graphOf s).toList ++ news (w.graphOf s).toList (Triple.copies (w.naming ts) ts n)

theorem loaded_loadTimes (hs : w.Holds s) (h : source.triples parse base = .ok ts) (n : Nat) :
    w.Loaded s ts n (w.loadTimes parse s source base n) := by
  induction n with
  | zero => exact ⟨hs, rfl, by simp [loadTimes], by simp [loadTimes, Triple.copies, news]⟩
  | succ n ih =>
    -- `n` rounds of names have been drawn, so the next load gives the names of copy `n`.
    have list := (loadWith_gains ih.holds h).clones s rfl
    rw [ih.list, freshTriples, ih.labels, ih.drawn] at list
    refine ⟨?_, ?_, ?_, ?_⟩
    · rw [loadTimes, loadWith_ok h]
      simpa [Holds, extend, setGraph] using ih.holds
    · rw [loadTimes, loadWith_ok h]
      exact ih.labels
    · rw [loadTimes, loadWith_ok h]
      simp only [ih.drawn, Nat.add_mul]
      omega
    · rw [loadTimes, list, Triple.copies_succ, news_append, List.append_assoc]
      rfl

/-- A load with an invalid base IRI or an error among the items, however many triples come before it,
gives an error and changes nothing. Any other load adds, with new names for all blank nodes, what is new,
each triple once and in the order of the document, and replies how many these are. After `n` loads there
are `n` copies of the triples with blank nodes, which have no blank node in common, and the other triples
are there once. -/
theorem loadWith_copies (parse : Parser) (w : Workspace) (s : Store) (source : Source)
    (base : Option String) (hs : w.Holds s) (hw : w.LabelsUnused) :
    let old := (w.graphOf s).toList
    let items := parse source base
    (∀ b ∈ base, Iri.isValid b = false →
      w.loadWith parse s source base = (.error (.invalidBase b), w)) ∧
    ((∀ b ∈ base, Iri.isValid b = true) → (∃ e, .error e ∈ items) →
      ∃ (ts : List Triple) (first : LoadError) (rest : List (Except LoadError Triple)),
        items = ts.map .ok ++ .error first :: rest ∧
        w.loadWith parse s source base = (.error first, w)) ∧
    ((∀ b ∈ base, Iri.isValid b = true) → ∀ ts : List Triple, items = ts.map .ok →
      ∃ names : Nat → Node → Node, NamesCopies names ts old ∧
        w.Gains s (news old (ts.map (Triple.rename (names 0)))) (w.loadWith parse s source base) ∧
        ∀ n, ((w.loadTimes parse s source base n).graphOf s).toList =
            old ++ news old (Triple.copies names ts n) ∧
          (0 < n → (news old (Triple.copies names ts n)).Perm
            (news old (Triple.groundPart ts) ++ Triple.copies names (Triple.blankPart ts) n))) := by
  intro old items
  refine ⟨fun b hb hv => ?_, fun hb ⟨e, he⟩ => ?_, fun hb ts hi => ?_⟩
  · exact loadWith_error (Source.triples_invalidBase hb hv)
  · obtain ⟨ts, hi⟩ | ⟨ts, first, rest, hi⟩ := Source.items_cases items
    · simp [hi] at he
    · refine ⟨ts, first, rest, hi, loadWith_error ?_⟩
      rw [Source.triples_of_valid hb, show parse source base = _ from hi, Source.mapM_append_error]
  · have h := Source.triples_eq_ok_iff.mpr ⟨hb, hi⟩
    have names := namesCopies_naming hw s ts
    refine ⟨w.naming ts, names, ?_, fun n => ⟨(loaded_loadTimes hs h n).list, names.news_copies_perm⟩⟩
    simpa [naming, freshTriples] using loadWith_gains hs h

/-- A self-loop, whose label is in use in the graph, and a triple without blank nodes. -/
theorem loadWith_copies_selfLoop :
    let selfLoop : Triple := ⟨.blank "a", .iri "a:p", .blank "a"⟩
    let w : Workspace := { graphs := [Graph.ofList [selfLoop]] }
    let s : Store := ⟨0, {}⟩
    let document := "_:a <a:p> _:a . <a:s> <a:p> <a:o> ."
    w.Holds s ∧ w.LabelsUnused ∧
      w.load s (.ofText document) (some "a b") = (.error (.invalidBase "a b"), w) ∧
      w.load s (.ofText (document ++ "<a:s> .")) none = (.error .malformed, w) ∧
      (w.load s (.ofText document) none).1 = .ok 2 ∧
      ((w.loadTimes Source.turtle s (.ofText document) none 3).graphOf s).size = 5 := by
  intro selfLoop w s document
  let ts : List Triple := [selfLoop, ⟨.iri "a:s", .iri "a:p", .iri "a:o"⟩]
  have holds : w.Holds s := Nat.zero_lt_one
  have old : (w.graphOf s).toList = [selfLoop] := by decide
  have other (n : Nat) : w.labels.label n ≠ "a" := by
    intro h
    have first := congrArg (·.toList.head?) h
    simp [w, LabelSupply.ofStem, LabelSupply.numbered, List.rightpad] at first
  have unused : w.LabelsUnused := by
    intro g hg t ht n _
    obtain rfl := List.mem_singleton.mp hg
    obtain rfl := List.mem_singleton.mp (old ▸ ht : t ∈ [selfLoop])
    simp [selfLoop, freshNode, Triple.mentions, (other n).symm]
  have read : Source.turtle (.ofText document) none = ts.map .ok := by
    have : Turtle.read? .narrow none document = some ts := by decide +kernel
    rw [Source.turtle_ofText, this]
  have malformed : Source.turtle (.ofText (document ++ "<a:s> .")) none = [.error .malformed] := by
    have : Turtle.read? .narrow none (document ++ "<a:s> .") = none := by decide +kernel
    rw [Source.turtle_ofText, this]
  have noBase : ∀ b ∈ (none : Option String), Iri.isValid b = true := by simp
  refine ⟨holds, unused, ?_, ?_, ?_⟩
  · exact (loadWith_copies Source.turtle w s _ (some "a b") holds unused).1 "a b" rfl (by decide)
  · obtain ⟨us, first, rest, hi, h⟩ :=
      (loadWith_copies Source.turtle w s (.ofText (document ++ "<a:s> .")) none holds unused).2.1
        noBase ⟨.malformed, by simp [malformed]⟩
    have hfirst : Except.error first ∈ [(.error .malformed : Except LoadError Triple)] := by
      rw [← malformed, hi]
      simp
    obtain rfl : first = .malformed := by simpa using hfirst
    exact h
  · obtain ⟨names, -, gains, loads⟩ :=
      (loadWith_copies Source.turtle w s (.ofText document) none holds unused).2.2 noBase ts read
    rw [old] at gains loads
    have part : Triple.blankPart ts = [selfLoop] := by decide
    have ground : (news [selfLoop] (Triple.groundPart ts)).length = 1 := by decide
    have added {n : Nat} (hn : 0 < n) : (news [selfLoop] (Triple.copies names ts n)).length = n + 1 := by
      rw [((loads n).2 hn).length_eq, List.length_append, Triple.length_copies, ground, part]
      simp [Nat.add_comm]
    refine ⟨?_, ?_⟩
    · have one := added Nat.zero_lt_one
      simp only [Triple.copies, List.range_one, List.flatMap_singleton] at one
      exact gains.reply.trans (congrArg _ one)
    · rw [Graph.size, (loads 3).1, List.length_append, added (by decide)]
      rfl

end Workspace
end TripleStore
