import Mathlib.Data.List.Nodup
import Mathlib.Data.List.Perm.Basic
import TripleStore.Proofs.FirstOccurrences
import TripleStore.Proofs.Turtle.Content
import TripleStore.Proofs.Turtle.Inlined

/-! # Placement of collections

The registry is threaded through the layout and says which collections are left to be written. What is
laid out takes from it exactly the collections that stand inline in it, with the triples that they were
registered with, and names only nodes that are not left. -/
namespace TripleStore

namespace Registry

/-- The keys of the collections that are left to be written. -/
def unwritten (r : Registry) : List Node := (r.entries.filter fun e => !e.2.written).map Prod.fst

theorem mem_unwritten {r : Registry} {k : Node} :
    k ∈ r.unwritten ↔ ∃ c, r.get? k = some c ∧ c.written = false := by
  simp [unwritten, ← mem_entries]

theorem nodup_unwritten (r : Registry) : r.unwritten.Nodup :=
  r.nodup.sublist (List.filter_sublist.map _)

theorem length_unwritten_le (r : Registry) : r.unwritten.length ≤ r.size := by
  rw [unwritten, List.length_map]
  exact List.length_filter_le _ _

theorem unwritten_markWritten_perm {r : Registry} {k : Node} {c : Collection} (h : r.get? k = some c)
    (hc : c.written = false) : r.unwritten.Perm (k :: (r.markWritten k).2.unwritten) := by
  have hk : k ∉ (r.markWritten k).2.unwritten := by simp [mem_unwritten, get?_markWritten h]
  refine (List.perm_ext_iff_of_nodup r.nodup_unwritten
    (List.nodup_cons.mpr ⟨hk, nodup_unwritten _⟩)).mpr fun k' => ?_
  rw [List.mem_cons, mem_unwritten, mem_unwritten, get?_markWritten h]
  by_cases e : k' = k
  · simp [e, h, hc]
  · simp [e]

end Registry

namespace Turtle

/-- The form of a collection and its triples. -/
def content (c : Collection) : Collection.Form × List Triple := (c.form, c.triples)

/-- The registry `r'` is left of `r` when some keys have been written. -/
structure Wrote (r : Registry) (ks : List Node) (r' : Registry) : Prop where
  unwritten : r.unwritten.Perm (ks ++ r'.unwritten)
  content : ∀ k, (r'.get? k).map content = (r.get? k).map content

theorem Wrote.refl (r : Registry) : Wrote r [] r := ⟨.refl _, fun _ => rfl⟩

theorem Wrote.trans {r r' r'' : Registry} {ks ks' : List Node} (h : Wrote r ks r')
    (h' : Wrote r' ks' r'') : Wrote r (ks ++ ks') r'' where
  unwritten := by
    rw [List.append_assoc]
    exact h.unwritten.trans (h'.unwritten.append_left ks)
  content k := (h'.content k).trans (h.content k)

theorem wrote_markWritten {r : Registry} {k : Node} {c : Collection} (h : r.get? k = some c)
    (hc : c.written = false) : Wrote r [k] (r.markWritten k).2 where
  unwritten := Registry.unwritten_markWritten_perm h hc
  content k' := by
    rw [Registry.get?_markWritten h]
    split
    next e => rw [e, h]; rfl
    next => rfl

theorem Wrote.not_unwritten {r r' : Registry} {ks : List Node} (h : Wrote r ks r') {n : Node}
    (hn : n ∉ r.unwritten) : n ∉ r'.unwritten :=
  fun h' => hn (h.unwritten.mem_iff.mpr (List.mem_append_right _ h'))

theorem Wrote.written {r r' : Registry} {ks : List Node} (h : Wrote r ks r') {n : Node}
    (hn : n ∈ ks) : n ∉ r'.unwritten := by
  have nodup : (ks ++ r'.unwritten).Nodup := h.unwritten.nodup_iff.mp r.nodup_unwritten
  exact fun h' => (List.nodup_append.mp nodup).2.2 n hn n h' rfl

theorem Wrote.length_le {r r' : Registry} {ks : List Node} (h : Wrote r ks r') :
    r'.unwritten.length ≤ r.unwritten.length := by
  rw [h.unwritten.length_eq, List.length_append]
  omega

/-- The triples of a collection are about its key, those of a list in order. -/
structure Proper (k : Node) (c : Collection) : Prop where
  brackets : c.form = .brackets → ∀ t ∈ c.triples, t.subject = k
  list : c.form = .list → ∃ first firsts, c.triples = first :: firsts ∧ first.subject = k ∧
    ∀ t ∈ c.triples, t.predicate = .rdfFirst

def IsProper (r : Registry) : Prop := ∀ k c, r.get? k = some c → Proper k c

theorem Settled.isProper {g : Graph} {r : Registry} (h : Settled g r) : IsProper r := by
  intro k c hk
  obtain ⟨l, hl⟩ := h.inlinable k c hk
  exact ⟨fun hc t ht => (hl.properties hc t ht).1, hl.found.list⟩

theorem Wrote.get? {r r' : Registry} {ks : List Node} (h : Wrote r ks r') {k : Node} {c' : Collection}
    (hk : r'.get? k = some c') :
    ∃ c, r.get? k = some c ∧ c.form = c'.form ∧ c.triples = c'.triples := by
  have := h.content k
  rw [hk] at this
  obtain ⟨c, hc, e⟩ := Option.map_eq_some_iff.mp this.symm
  exact ⟨c, hc, congrArg Prod.fst e, congrArg Prod.snd e⟩

theorem Wrote.get?_left {r r' : Registry} {ks : List Node} (h : Wrote r ks r') {k : Node}
    {c : Collection} (hk : r.get? k = some c) :
    ∃ c', r'.get? k = some c' ∧ c'.form = c.form ∧ c'.triples = c.triples := by
  have := h.content k
  rw [hk] at this
  obtain ⟨c', hc', e⟩ := Option.map_eq_some_iff.mp this
  exact ⟨c', hc', congrArg Prod.fst e, congrArg Prod.snd e⟩

theorem Wrote.isProper {r r' : Registry} {ks : List Node} (h : Wrote r ks r') (hr : IsProper r) :
    IsProper r' := by
  intro k c' hk
  obtain ⟨c, hc, form, triples⟩ := h.get? hk
  have := hr k c hc
  exact ⟨by simpa [form, triples] using this.brackets, by simpa [form, triples] using this.list⟩

/-- What a document shows of a registered collection. -/
structure Shows (c d : Collection) : Prop where
  form : d.form = c.form
  triples : d.triples.Perm c.triples
  claims : d.claims.Perm c.claims

theorem Shows.of_triples {c d : Collection} (form : d.form = c.form)
    (h : d.triples.Perm c.triples) (list : c.form = .list → d.triples = c.triples) : Shows c d where
  form := form
  triples := h
  claims := by
    unfold Collection.claims
    rw [form]
    cases hc : c.form with
    | brackets => exact h
    | list => rw [list hc]

/-- What has been laid out while the registry went from `r` to `r'`: some collections inline, and some
nodes by name. -/
structure Laid (r : Registry) (cs : List (Node × Collection)) (ns : List Node) (r' : Registry) :
    Prop where
  wrote : Wrote r (cs.map Prod.fst) r'
  shows : ∀ e ∈ cs, ∃ c, r.get? e.1 = some c ∧ Shows c e.2
  named : ∀ n ∈ ns, n ∉ r'.unwritten

theorem Laid.nil (r : Registry) : Laid r [] [] r := ⟨.refl r, by simp, by simp⟩

theorem Laid.append {r r' r'' : Registry} {cs cs' : List (Node × Collection)} {ns ns' : List Node}
    (h : Laid r cs ns r') (h' : Laid r' cs' ns' r'') : Laid r (cs ++ cs') (ns ++ ns') r'' where
  wrote := by
    rw [List.map_append]
    exact h.wrote.trans h'.wrote
  shows e he := by
    rcases List.mem_append.mp he with he | he
    · exact h.shows e he
    · obtain ⟨c', hc', hs⟩ := h'.shows e he
      obtain ⟨c, hc, form, triples⟩ := h.wrote.get? hc'
      have claims : c.claims = c'.claims := by simp only [Collection.claims, form, triples]
      exact ⟨c, hc, hs.form.trans form.symm, triples ▸ hs.triples, claims ▸ hs.claims⟩
  named n hn := by
    rcases List.mem_append.mp hn with hn | hn
    · exact h'.wrote.not_unwritten (h.named n hn)
    · exact h'.named n hn

/-- Brackets or a list around what is laid out after their key has been marked. -/
theorem Laid.cons {r r' : Registry} {k : Node} {c d : Collection} {cs : List (Node × Collection)}
    {ns : List Node} (hk : r.get? k = some c) (hc : c.written = false) (hd : Shows c d)
    (h : Laid (r.markWritten k).2 cs ns r') : Laid r ((k, d) :: cs) ns r' := by
  have one : Laid r [(k, d)] [] (r.markWritten k).2 :=
    ⟨wrote_markWritten hk hc, by simpa using ⟨c, hk, hd⟩, by simp⟩
  exact one.append h

/-- Lays out every object with room for `depth` collections inside each other. -/
def Places (depth : Nat) (object : Node → Registry → Tree × Registry) : Prop :=
  ∀ n r, IsProper r → r.unwritten.length ≤ depth →
    (object n r).1.node = n ∧ Laid r (object n r).1.collections (object n r).1.named (object n r).2

/-- Laying out elements one after the other lays out what they are laid out as. -/
theorem laid_thread {α β γ : Type} {f : α → Registry → β × Registry} {depth : Nat} {q : α → γ}
    {p : β → γ} {cs : β → List (Node × Collection)} {ns : β → List Node} {as : List α}
    (step : ∀ a ∈ as, ∀ r, IsProper r → r.unwritten.length ≤ depth →
      p (f a r).1 = q a ∧ Laid r (cs (f a r).1) (ns (f a r).1) (f a r).2)
    {r : Registry} (hr : IsProper r) (hd : r.unwritten.length ≤ depth) :
    (thread f as r).1.map p = as.map q ∧
      Laid r ((thread f as r).1.flatMap cs) ((thread f as r).1.flatMap ns) (thread f as r).2 := by
  induction as generalizing r with
  | nil => exact ⟨rfl, .nil r⟩
  | cons a as ih =>
    obtain ⟨head, laid⟩ := step a List.mem_cons_self r hr hd
    obtain ⟨tail, laid'⟩ := ih (fun b hb => step b (List.mem_cons_of_mem _ hb))
      (laid.wrote.isProper hr) (laid.wrote.length_le.trans hd)
    exact ⟨congrArg₂ List.cons head tail, laid.append laid'⟩

theorem groupByPredicate_perm (ts : List Triple) : (groupByPredicate ts).Perm ts := by
  simpa [groupByPredicate] using FirstOccurrences.groupBy_perm Triple.predicate ts

section
variable {depth : Nat} {object : Node → Registry → Tree × Registry}

theorem Places.labelled (ho : Places depth object) (label : Triple → Node) (ts : List Triple)
    {r : Registry} (hr : IsProper r) (hd : r.unwritten.length ≤ depth) :
    let out := thread (fun t r => ((label t, (object t.object r).1), (object t.object r).2)) ts r
    out.1.map (fun e => (e.1, e.2.node)) = ts.map (fun t => (label t, t.object)) ∧
      Laid r (collectionsIn out.1) (namedIn out.1) out.2 := by
  intro out
  rw [collectionsIn_eq_flatMap, namedIn_eq_flatMap]
  refine laid_thread (fun t _ r hr hd => ?_) hr hd
  obtain ⟨node, laid⟩ := ho t.object r hr hd
  exact ⟨by rw [node], laid⟩

/-- Properties are laid out with the predicates and objects of the given triples. -/
theorem Places.properties (ho : Places depth object) {k : Node} {ts : List Triple}
    (hts : ∀ t ∈ ts, t.subject = k) {r : Registry} (hr : IsProper r) (hd : r.unwritten.length ≤ depth) :
    (propertyTriples k (layProperties object ts r).1).Perm ts ∧
      Laid r (collectionsIn (layProperties object ts r).1) (namedIn (layProperties object ts r).1)
        (layProperties object ts r).2 := by
  obtain ⟨nodes, laid⟩ := ho.labelled Triple.predicate (groupByPredicate ts) hr hd
  refine ⟨?_, laid⟩
  have triples : propertyTriples k (layProperties object ts r).1 = groupByPredicate ts := by
    have := congrArg (List.map fun e => (⟨k, e.1, e.2⟩ : Triple)) nodes
    rw [List.map_map, List.map_map] at this
    refine this.trans ?_
    conv_rhs => rw [← List.map_id (groupByPredicate ts)]
    refine List.map_congr_left fun t ht => ?_
    have : t.subject = k := hts t ((groupByPredicate_perm ts).mem_iff.mp ht)
    simp [← this]
  rw [triples]
  exact groupByPredicate_perm ts

/-- Cells are laid out with the given `rdf:first` triples, in order. -/
theorem Places.cells (ho : Places depth object) {ts : List Triple}
    (hts : ∀ t ∈ ts, t.predicate = .rdfFirst) {r : Registry} (hr : IsProper r)
    (hd : r.unwritten.length ≤ depth) :
    firstTriples (layCells object ts r).1 = ts ∧
      Laid r (collectionsIn (layCells object ts r).1) (namedIn (layCells object ts r).1)
        (layCells object ts r).2 := by
  obtain ⟨nodes, laid⟩ := ho.labelled Triple.subject ts hr hd
  refine ⟨?_, laid⟩
  have := congrArg (List.map fun e => (⟨e.1, .rdfFirst, e.2⟩ : Triple)) nodes
  rw [List.map_map, List.map_map] at this
  refine this.trans ?_
  conv_rhs => rw [← List.map_id ts]
  refine List.map_congr_left fun t ht => ?_
  simp [← hts t ht]

end

theorem node_list {cells : List (Node × Tree)} {t : Triple} {ts : List Triple}
    (h : firstTriples cells = t :: ts) : (Tree.list cells).node = t.subject := by
  cases cells with
  | nil => simp [firstTriples] at h
  | cons e cells => exact congrArg Triple.subject (List.cons.inj h).1

/-- Objects are laid out while the depth does not run out: each level of nesting takes another
collection from the registry. -/
theorem places_layObject (depth : Nat) : Places depth (layObject depth) := by
  induction depth with
  | zero =>
    intro n r _ hd
    have none : r.unwritten = [] := List.length_eq_zero_iff.mp (by omega)
    exact ⟨rfl, .refl r, by simp [layObject, Tree.collections], by simp [layObject, none]⟩
  | succ depth ih =>
    intro n r hr hd
    have byName (h : n ∉ r.unwritten) : (Tree.term n).node = n ∧
        Laid r (Tree.term n).collections (Tree.term n).named r :=
      ⟨rfl, .refl r, by simp [Tree.collections], by simpa [Tree.named] using h⟩
    unfold layObject
    split
    next hk => exact byName (by simp [Registry.mem_unwritten, hk])
    next c hk =>
      split
      next hc => exact byName (by simp [Registry.mem_unwritten, hk, hc])
      next hc =>
        have hc : c.written = false := by simpa using hc
        have wrote := wrote_markWritten hk hc
        have hr' := wrote.isProper hr
        -- Marking the key leaves one collection less, which pays for the next level.
        have hd' : (r.markWritten n).2.unwritten.length ≤ depth := by
          have := wrote.unwritten.length_eq
          simp only [List.length_append, List.length_singleton] at this
          omega
        dsimp only
        split
        next hform =>
          obtain ⟨first, firsts, hts, hs, hp⟩ := (hr n c hk).list hform
          obtain ⟨cells, laid⟩ := ih.cells hp hr' hd'
          have node : (Tree.list (layCells (layObject depth) c.triples (r.markWritten n).2).1).node = n :=
            (node_list (cells.trans hts)).trans hs
          refine ⟨node, ?_⟩
          dsimp only
          rw [Tree.collections, node]
          refine laid.cons hk hc ?_
          rw [cells]
          exact .of_triples hform.symm (.refl _) fun _ => rfl
        next hform =>
          split
          next hempty =>
            have empty : c.triples = [] := List.isEmpty_iff.mp hempty
            refine ⟨rfl, (Laid.nil _).cons hk hc ?_⟩
            exact .of_triples hform.symm (by rw [empty]; rfl) fun _ => by rw [empty]; rfl
          next =>
            obtain ⟨props, laid⟩ := ih.properties ((hr n c hk).brackets hform) hr' hd'
            refine ⟨rfl, laid.cons hk hc ?_⟩
            exact .of_triples hform.symm props fun e => absurd (hform.symm.trans e) (by decide)

end Turtle
end TripleStore
