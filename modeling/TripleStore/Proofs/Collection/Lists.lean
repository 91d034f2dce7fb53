import TripleStore.Proofs.Collection.Compressible
import TripleStore.Proofs.Collection.Dependencies
import TripleStore.Proofs.FirstOccurrences

/-! # Lists of an analysis

The cells of a list are distinct, so its claims mention the first cell twice, and once more for every
later cell with the first cell as its item. What the analysis counts are all mentions of the first cell,
three for each cell. A list of one cell has then one further mention. A longer list can make up for its
other cells by references from outside. -/
namespace TripleStore

/-- Some `rdf:first` triples of distinct cells, which have no other item and are not to be visited again. -/
structure AreCells (g : Graph) (left : List Node) (ts : List Triple) : Prop where
  nodup : (ts.map Triple.subject).Nodup
  visited : ∀ t ∈ ts, t.subject ∉ left
  item : ∀ t ∈ ts, g.withSubjectPredicate t.subject .rdfFirst = [t]

theorem AreCells.nil (g : Graph) (left : List Node) : AreCells g left [] where
  nodup := .nil
  visited _ ht := absurd ht List.not_mem_nil
  item _ ht := absurd ht List.not_mem_nil

theorem AreCells.cons {g : Graph} {left : List Node} {ts : List Triple} (h : AreCells g left ts)
    (hl : left.Nodup) {t : Triple} (ht : t.subject ∈ left)
    (hi : g.withSubjectPredicate t.subject .rdfFirst = [t]) :
    AreCells g (left.erase t.subject) (t :: ts) where
  nodup := by
    refine List.nodup_cons.mpr ⟨fun again => ?_, h.nodup⟩
    obtain ⟨u, hu, same⟩ := List.mem_map.mp again
    exact h.visited u hu (same ▸ ht)
  visited u hu := by
    rcases List.mem_cons.mp hu with rfl | hu
    · exact fun hm => (hl.mem_erase_iff.mp hm).1 rfl
    · exact fun hm => h.visited u hu (List.mem_of_mem_erase hm)
  item u hu := by
    rcases List.mem_cons.mp hu with rfl | hu
    · exact hi
    · exact h.item u hu

theorem AreCells.forget {g : Graph} {left : List Node} {ts : List Triple} (h : AreCells g left ts) :
    AreCells g [] ts where
  nodup := h.nodup
  visited _ _ := List.not_mem_nil
  item := h.item

theorem walkFrom_areCells {g : Graph} {left : List Node} {cell : Node} {found firsts : List Triple}
    (hl : left.Nodup) (hf : AreCells g left found)
    (h : walkFrom g left cell found = .ok (some firsts)) : AreCells g [] firsts := by
  fun_induction walkFrom g left cell found with
  | case1 => simp at h
  | case2 => simp at h
  | case3 left cell found hc first hfirst hb hn =>
    obtain ⟨-, rfl, -⟩ := of_withSubjectPredicate_eq hfirst
    obtain rfl : first :: found = firsts := by simpa using h
    exact (hf.cons hl hc hfirst).forget
  | case4 left cell found hc first hfirst hb previous hp ih =>
    obtain ⟨-, rfl, -⟩ := of_withSubjectPredicate_eq hfirst
    exact ih (hl.erase _) (hf.cons hl hc hfirst) h
  | case5 => simp at h
  | case6 => simp at h
  | case7 => simp at h

theorem walkList_areCells {g : Graph} {tail : Node} {firsts : List Triple}
    (h : walkList g tail = .ok (some firsts)) : AreCells g [] firsts := by
  unfold walkList at h
  split at h
  · exact walkFrom_areCells (FirstOccurrences.nodup_eraseDups _) (.nil g _) h
  · simp at h

/-- A walk that stands at a cell with one item, which no other cell links to, has found a list. -/
theorem walkFrom_head {g : Graph} {left : List Node} {cell : Node} {first : Triple}
    (found : List Triple) (hl : cell ∈ left) (hi : g.withSubjectPredicate cell .rdfFirst = [first])
    (hb : cell.isBlank = true) (hp : g.withPredicateObject .rdfRest cell = []) :
    walkFrom g left cell found = .ok (some (first :: found)) := by
  rw [walkFrom, dif_pos hl, hi, hp]
  exact if_pos hb

theorem walkFrom_cell {g : Graph} {left : List Node} {cell : Node} {first previous : Triple}
    (found : List Triple) (hl : cell ∈ left) (hi : g.withSubjectPredicate cell .rdfFirst = [first])
    (hb : cell.isBlank = true) (hp : g.withPredicateObject .rdfRest cell = [previous]) :
    walkFrom g left cell found = walkFrom g (left.erase cell) previous.subject (first :: found) := by
  rw [walkFrom, dif_pos hl, hi, hp]
  exact if_pos hb

/-- A list that has been walked to from its last cell. -/
structure IsWalked (g : Graph) (k : Node) (c : Collection) : Prop where
  part : IsListPart g c.triples
  cells : AreCells g [] c.triples
  head : ∃ first firsts, c.triples = first :: firsts ∧ first.subject = k

theorem isWalked_list {g : Graph} {tail : Node} {first : Triple} {firsts : List Triple}
    (ht : tail ∈ Analysis.tails g) (hw : walkList g tail = .ok (some (first :: firsts))) :
    IsWalked g first.subject (.list (first :: firsts)) :=
  ⟨walkList_isListPart ht hw, walkList_areCells hw, first, firsts, rfl, rfl⟩

theorem Graph.collections_isWalked {g : Graph} {mode : SearchMode} {a : Analysis}
    (h : g.collections mode = .ok a) {k : Node} {c : Collection} (hk : a.registry.get? k = some c)
    (hc : c.form = .list) : IsWalked g k c :=
  (Graph.collections_induction (P := fun k c => c.form = .list → IsWalked g k c)
    (fun _ ht _ _ hw _ => isWalked_list ht hw) (fun _ _ hc => by simp [Collection.brackets] at hc) h hk).1 hc

namespace Analysis
variable {g : Graph} {b : Analysis}

/-- The first cell of a list that is walked to is registered with a list. -/
theorem HasCandidates.exists_list (h : HasCandidates g .all b) {tail : Node} {first : Triple}
    {firsts : List Triple} (ht : tail ∈ tails g)
    (hw : walkList g tail = .ok (some (first :: firsts))) :
    ∃ c, b.registry.get? first.subject = some c ∧ c.form = .list ∧ IsWalked g first.subject c := by
  obtain ⟨l, hl, candidates⟩ := h.get?_all
  obtain ⟨c, hc⟩ := Registry.contains_iff.mp
    ((contains_addLists hl first.subject).mpr (.inr ⟨tail, ht, first, firsts, hw, rfl⟩))
  have walked : EachHas (fun k c => c.form = .list ∧ IsWalked g k c) l :=
    eachHas_addLists (fun k c hk => by simp at hk) (fun _ ht _ _ hw => ⟨rfl, isWalked_list ht hw⟩) hl
  exact ⟨c, by rw [candidates, hc]; rfl, walked _ c hc⟩

/-- A blank node with which no list begins is registered with brackets. -/
theorem HasCandidates.get?_brackets (h : HasCandidates g .all b) {k : Node} (hk : k ∈ g.blankNodes)
    (other : ∀ tail ∈ tails g, ∀ first firsts, walkList g tail = .ok (some (first :: firsts)) →
      first.subject ≠ k) :
    b.registry.get? k = some (.brackets (bracketTriples g k)) := by
  obtain ⟨l, hl, candidates⟩ := h.get?_all
  have none : l.get? k = none := by
    rw [← Option.not_isSome_iff_eq_none]
    intro some
    rcases (contains_addLists hl k).mp some with old | ⟨tail, ht, first, firsts, hw, rfl⟩
    · exact absurd old (by simp [Registry.contains])
    · exact other tail ht first firsts hw rfl
  rw [candidates, none, if_pos hk]
  rfl

end Analysis

namespace IsWalked
variable {g : Graph} {k : Node} {c : Collection}

theorem blank (h : IsWalked g k c) : k.isBlank = true := by
  obtain ⟨first, firsts, hts, rfl⟩ := h.head
  exact h.part.blank first (by rw [hts]; exact List.mem_cons_self)

theorem size_pos (h : IsWalked g k c) : 0 < c.size := by
  obtain ⟨first, firsts, hts, -⟩ := h.head
  rw [Collection.size, hts]
  exact Nat.succ_pos _

theorem nodup_claims (h : IsWalked g k c) (hc : c.form = .list) : c.claims.Nodup := by
  simp only [Collection.claims, hc]
  exact nodup_listClaims h.cells.nodup h.part.predicate

theorem mem_of_claim (h : IsWalked g k c) (hc : c.form = .list) {t : Triple} (ht : t ∈ c.claims) :
    t ∈ g.toList := by
  simp only [Collection.claims, hc] at ht
  exact h.part.claims_mem t ht

theorem countP_claims (h : IsWalked g k c) (hc : c.form = .list) :
    c.claims.countP (·.mentions k) = c.triples.tail.countP (·.object = k) + 2 := by
  obtain ⟨first, firsts, hts, head⟩ := h.head
  have cells := h.cells.nodup
  have predicate := h.part.predicate
  rw [hts] at cells predicate
  simp only [Collection.claims, hc, hts]
  exact countP_mentions_head h.blank head cells fun t ht => predicate t (List.mem_cons_of_mem _ ht)

end IsWalked

namespace Graph

/-- The triples of a graph outside a collection that mention a node. -/
def outside (g : Graph) (k : Node) (c : Collection) : List Triple :=
  g.toList.filter fun t => t.mentions k && !c.claims.contains t

theorem length_outside {g : Graph} {k : Node} {c : Collection} (nodup : c.claims.Nodup)
    (mem : ∀ t ∈ c.claims, t ∈ g.toList) :
    (g.outside k c).length + c.claims.countP (·.mentions k) = g.countMentions k := by
  have claimed : (g.toList.filter c.claims.contains).Perm c.claims := by
    refine (List.perm_ext_iff_of_nodup (g.nodup.filter _) nodup).mpr fun t => ?_
    rw [List.mem_filter, List.contains_iff_mem]
    exact ⟨And.right, fun ht => ⟨mem t ht, ht⟩⟩
  have parts := List.countP_eq_countP_filter_add g.toList (·.mentions k) c.claims.contains
  rw [claimed.countP_eq, List.countP_eq_length_filter, List.countP_eq_length_filter,
    List.countP_eq_length_filter, List.filter_filter] at parts
  rw [countMentions, (g.mentioning_perm k).length_eq, outside, List.countP_eq_length_filter, parts,
    Nat.add_comm]

theorem mem_outside {g : Graph} {k : Node} {c : Collection} {t : Triple} :
    t ∈ g.outside k c ↔ t ∈ g.toList ∧ t ∉ c.claims ∧ t.mentions k = true := by
  simp [outside, and_comm]

theorem existsUnique_outside_iff {g : Graph} {k : Node} {c : Collection} :
    (∃! t, t ∈ g.toList ∧ t ∉ c.claims ∧ t.mentions k = true) ↔ (g.outside k c).length = 1 := by
  have nodup : (g.outside k c).Nodup := g.nodup.filter _
  simp only [← existsUnique_mem_iff_length nodup, mem_outside]

/-- Three triples mention a node. One of them, which does not give the node an item, has it as its
object. -/
def Listable (g : Graph) (n : Node) : Prop :=
  g.countMentions n = 3 ∧ ∃ t ∈ g.toList, t.object = n ∧ ¬(t.subject = n ∧ t.predicate = .rdfFirst)

instance (g : Graph) (n : Node) : Decidable (g.Listable n) :=
  inferInstanceAs (Decidable (_ ∧ ∃ t ∈ g.toList, _))

end Graph

theorem Analysis.isEligible_of_list {g : Graph} {k : Node} {c : Collection} (hc : c.form = .list) :
    isEligible g k c = true ↔ g.countMentions k = 3 * c.size - 1 + 1 := by
  simp [isEligible, hc]

/-- A list has one cell, and besides its claims a single triple mentions the cell, as its object. -/
structure ReferencedOnce (g : Graph) (k : Node) (c : Collection) : Prop where
  single : c.size = 1
  reference : ∃! t, t ∈ g.toList ∧ t ∉ c.claims ∧ t.mentions k = true
  object : ∀ t ∈ g.toList, t ∉ c.claims → t.mentions k = true → t.object = k

namespace IsWalked
variable {g : Graph} {k : Node} {c : Collection}

/-- Eligibility counts three mentions for each cell, of which the claims make up two in all, apart from
those by later items. -/
theorem length_outside (h : IsWalked g k c) (hc : c.form = .list)
    (eligible : Analysis.isEligible g k c = true) :
    (g.outside k c).length + c.triples.tail.countP (·.object = k) + 2 = 3 * c.size := by
  have counted := (Analysis.isEligible_of_list hc).mp eligible
  have parts := Graph.length_outside (h.nodup_claims hc) (fun _ => h.mem_of_claim hc) (k := k)
  have pos := h.size_pos
  rw [h.countP_claims hc, counted] at parts
  omega

theorem size_eq_one_iff (h : IsWalked g k c) (hc : c.form = .list)
    (eligible : Analysis.isEligible g k c = true) :
    c.size = 1 ↔ ∃! t, t ∈ g.toList ∧ t ∉ c.claims ∧ t.mentions k = true := by
  have counted := h.length_outside hc eligible
  have pos := h.size_pos
  have items : c.triples.tail.countP (·.object = k) ≤ c.size - 1 := by
    rw [Collection.size, ← List.length_tail]
    exact List.countP_le_length
  rw [Graph.existsUnique_outside_iff]
  omega

theorem claims_of_size (h : IsWalked g k c) (hc : c.form = .list) (single : c.size = 1) :
    ∃ x, c.claims = [⟨k, .rdfFirst, x⟩, ⟨k, .rdfRest, .rdfNil⟩] := by
  obtain ⟨first, firsts, hts, rfl⟩ := h.head
  obtain rfl : firsts = [] := by
    rw [Collection.size, hts, List.length_cons] at single
    exact List.length_eq_zero_iff.mp (by omega)
  have predicate : first.predicate = .rdfFirst := h.part.predicate first (by simp [hts])
  exact ⟨first.object, by simp [Collection.claims, hc, hts, Collection.listClaims, ← predicate]⟩

/-- The triple that gives a cell its item is a claim. -/
theorem mem_claims_of_first (h : IsWalked g k c) {t : Triple} (ht : t ∈ g.toList)
    (hs : t.subject = k) (hp : t.predicate = .rdfFirst) : t ∈ c.claims := by
  obtain ⟨first, firsts, hts, rfl⟩ := h.head
  have item := h.cells.item first (by rw [hts]; exact List.mem_cons_self)
  have found : t ∈ g.withSubjectPredicate first.subject .rdfFirst := by
    simp [g.withSubjectPredicate_eq, ht, hs, hp]
  obtain rfl : t = first := List.mem_singleton.mp (item ▸ found)
  exact (triples_sublist_claims c).subset (by rw [hts]; exact List.mem_cons_self)

theorem referencedOnce_iff (h : IsWalked g k c) (hc : c.form = .list)
    (eligible : Analysis.isEligible g k c = true) : ReferencedOnce g k c ↔ g.Listable k := by
  have counted := (Analysis.isEligible_of_list hc).mp eligible
  constructor
  · rintro ⟨single, ⟨t, ⟨ht, unclaimed, mentioned⟩, -⟩, object⟩
    refine ⟨by omega, t, ht, object t ht unclaimed mentioned, fun ⟨hs, hp⟩ => ?_⟩
    exact unclaimed (h.mem_claims_of_first ht hs hp)
  · rintro ⟨three, t, ht, ho, other⟩
    have single : c.size = 1 := by omega
    obtain ⟨u, hu, only⟩ := (h.size_eq_one_iff hc eligible).mp single
    obtain ⟨x, claims⟩ := h.claims_of_size hc single
    have unclaimed : t ∉ c.claims := by
      rw [claims, List.mem_pair, not_or]
      refine ⟨fun e => other (e ▸ ⟨rfl, rfl⟩), fun e => ?_⟩
      exact ne_of_isBlank rfl h.blank ((congrArg Triple.object e).symm.trans ho)
    have same : t = u := only t ⟨ht, unclaimed, by simp [Triple.mentions, ho]⟩
    refine ⟨single, ⟨u, hu, only⟩, fun v hv hv' hm => ?_⟩
    rw [only v ⟨hv, hv', hm⟩, ← same, ho]

end IsWalked

open Analysis in
/-- A list is kept if its mentions are as many as are counted for its cells and the graph has no other
list. -/
theorem Graph.exists_collections_of_list {g : Graph} {tail : Node} {first : Triple}
    {firsts : List Triple} (ht : tails g = [tail]) (hw : walkList g tail = .ok (some (first :: firsts)))
    (count : g.countMentions first.subject = 3 * (firsts.length + 1)) :
    ∃ a, g.collections .listsOnly = .ok a ∧
      a.registry.get? first.subject = some (.list (first :: firsts)) := by
  let k := first.subject
  let c := Collection.list (first :: firsts)
  let b : Analysis := { start with registry := (Registry.empty.insert k c).2 }
  have lists : findLists g start = .ok b := by
    rw [findLists, ht, addLists, hw]
    rfl
  have registered (d : Node) : b.registry.get? d = if d = k then some c else none := by
    rw [Registry.get?_insert, Registry.get?_empty]
  have eligible : isEligible g k c = true := by
    have size : c.size = firsts.length + 1 := rfl
    have count : g.countMentions k = 3 * (firsts.length + 1) := count
    rw [isEligible_of_list rfl, size, count]
    omega
  have acyclic : k ∉ cyclicKeys (dropIneligible g b).registry := by
    intro cyclic
    obtain ⟨d, ⟨e, -, hd⟩, -⟩ := Relation.TransGen.head'_iff.mp (transGen_of_mem_cyclicKeys cyclic)
    obtain ⟨-, -, other, key⟩ := mem_dependencies.mp hd
    obtain ⟨e, he⟩ := Registry.contains_iff.mp key
    have he := (Registry.get?_filter_eq_some.mp he).1
    rw [registered, if_neg other] at he
    exact absurd he (Option.some_ne_none e).symm
  refine ⟨revoke g (claim (cleared g b)), by rw [Graph.collections, run_eq, lists]; rfl, ?_⟩
  rw [get?_revoke, claim_registry, get?_cleared, registered, if_pos rfl]
  exact ⟨⟨⟨rfl, eligible⟩, acyclic⟩, by simp [isOverused, Collection.list]⟩

/-- The first cell of a list that an analysis keeps is mentioned by three triples for each cell. Two of
these are claims, and one more for each later cell with the first one as its item; so the list has one
cell if and only if a single other triple mentions it. The list is referenced once if and only if its
first cell is listable. -/
theorem Graph.collections_lists {g : Graph} {mode : SearchMode} {a : Analysis}
    (h : g.collections mode = .ok a) {k : Node} {c : Collection} (hk : a.registry.get? k = some c)
    (hc : c.form = .list) :
    (g.outside k c).length + c.triples.tail.countP (·.object = k) + 2 = 3 * c.size ∧
      (c.size = 1 ↔ ∃! t, t ∈ g.toList ∧ t ∉ c.claims ∧ t.mentions k = true) ∧
      (ReferencedOnce g k c ↔ g.Listable k) := by
  have walked := Graph.collections_isWalked h hk hc
  have eligible := (Graph.collections_found h hk).2
  exact ⟨walked.length_outside hc eligible, walked.size_eq_one_iff hc eligible,
    walked.referencedOnce_iff hc eligible⟩

/-- The list of a single node is found, and its cell is listable. -/
theorem Graph.collections_lists_single :
    let k := Node.blank "k"
    let s := Node.iri "http://example.com/s"
    let g := Graph.ofList [⟨s, s, k⟩, ⟨k, .rdfFirst, s⟩, ⟨k, .rdfRest, .rdfNil⟩]
    ∃ a c, g.collections .listsOnly = .ok a ∧ a.registry.get? k = some c ∧ c.form = .list ∧
      ReferencedOnce g k c := by
  intro k s g
  have walk : walkList g k = .ok (some [⟨k, .rdfFirst, s⟩]) :=
    walkFrom_head [] (by decide) (by decide) rfl (by decide)
  obtain ⟨a, found, kept⟩ := Graph.exists_collections_of_list (g := g) (by decide) walk (by decide)
  have listable : g.Listable k := by decide
  exact ⟨a, _, found, kept, rfl, (Graph.collections_lists found kept rfl).2.2.mpr listable⟩

/-- Four triples refer to the first cell of a list of two cells. -/
def Graph.crowdedList : Graph :=
  let k := Node.blank "k"
  let m := Node.blank "m"
  let s := Node.iri "http://example.com/s"
  .ofList [⟨s, .iri "http://example.com/p", k⟩, ⟨s, .iri "http://example.com/q", k⟩,
    ⟨s, .iri "http://example.com/r", k⟩, ⟨s, .iri "http://example.com/t", k⟩,
    ⟨k, .rdfFirst, s⟩, ⟨k, .rdfRest, m⟩, ⟨m, .rdfFirst, s⟩, ⟨m, .rdfRest, .rdfNil⟩]

theorem Graph.collections_crowdedList : ∃ a, crowdedList.collections .listsOnly = .ok a ∧
    a.registry.get? (.blank "k") = some (.list [⟨.blank "k", .rdfFirst, .iri "http://example.com/s"⟩,
      ⟨.blank "m", .rdfFirst, .iri "http://example.com/s"⟩]) := by
  have link : crowdedList.withPredicateObject .rdfRest (.blank "m") =
      [⟨.blank "k", .rdfRest, .blank "m"⟩] := by decide
  have walk : walkList crowdedList (.blank "m") = .ok (some
      [⟨.blank "k", .rdfFirst, .iri "http://example.com/s"⟩,
        ⟨.blank "m", .rdfFirst, .iri "http://example.com/s"⟩]) :=
    (walkFrom_cell [] (by decide) (by decide) rfl link).trans
      (walkFrom_head _ (by decide) (by decide) rfl (by decide))
  exact Graph.exists_collections_of_list (by decide) walk (by decide)

/-- A list of two cells is kept when four triples refer to its first cell, as many as make up for the
mentions that are counted for its second cell. -/
theorem Graph.collections_longer_list :
    ¬ ∀ (g : Graph) (mode : SearchMode) (a : Analysis), (∀ t ∈ g.toList, t.isLegal = true) →
      mode.includesLists = true → g.collections mode = .ok a →
        ∀ k c, a.registry.get? k = some c → c.form = .list → ReferencedOnce g k c := by
  intro once
  obtain ⟨a, found, kept⟩ := collections_crowdedList
  have single := (once crowdedList .listsOnly a (by decide) rfl found _ _ kept rfl).single
  exact absurd single (by decide)

end TripleStore
