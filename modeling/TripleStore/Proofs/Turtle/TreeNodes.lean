import TripleStore.Proofs.Collection.TreeNodes
import TripleStore.Proofs.Turtle.Accounting
import TripleStore.Proofs.Turtle.Settling

/-! # Writing tree nodes

For each kind of tree node the candidate of the analysis is eligible and can be inlined at its single link.
Since no tree node lies on a cycle, it is settled, and so it is written inline and its label is not
written. -/
namespace TripleStore.Turtle
open Analysis

theorem links_eq_singleton {g : Graph} {k : Node} {c : Collection} {l : Triple}
    (only : ∀ t, (t ∈ g.toList ∧ t.mentions k = true) ∧ t ∉ c.claims ↔ t = l) : links g k c = [l] :=
  eq_singleton_of_nodup ((g.nodup_mentioning k).filter _) fun t => mem_links.trans (only t)

section
variable {g : Graph} {k : Node} {c : Collection} {l : Triple}

theorem canBeInlined_of_isBare (hl : links g k c = [l]) (bare : IsBare c)
    (place : Xor (l.subject = k) (l.object = k)) : canBeInlined g k c = true := by
  have empty : c.isEmpty = true := List.isEmpty_iff.mpr bare.2
  rw [canBeInlined, hl]
  simp only [bare.1, empty, if_true]
  rcases place with ⟨hs, ho⟩ | ⟨ho, hs⟩ <;> simp [hs, ho]

theorem canBeInlined_of_object (hl : links g k c = [l]) (ho : l.object = k) (hs : l.subject ≠ k)
    (brackets : c.form = .brackets → ∀ t ∈ c.triples, t.subject = k ∧ t.object ≠ k)
    (list : c.form = .list → c.size = 1) : canBeInlined g k c = true := by
  rw [canBeInlined, hl]
  cases hc : c.form with
  | brackets =>
    have properties := brackets hc
    simp only [ho, hs, ne_eq, not_false_eq_true, decide_true, decide_false, Bool.true_and]
    split
    · rfl
    · exact List.all_eq_true.mpr fun t ht => by simpa using properties t ht
  | list =>
    have rest : c.triples.drop 1 = [] := List.drop_eq_nil_of_le (Nat.le_of_eq (list hc))
    simp [ho, hs, rest]

end

section
variable {g : Graph} {b : Analysis} {n : Node} {link : Triple}

/-- The candidate that is registered for a node is eligible and can be inlined. -/
def HasInlinable (g : Graph) (b : Analysis) (k : Node) : Prop :=
  ∃ c, b.registry.get? k = some c ∧ isEligible g k c = true ∧ canBeInlined g k c = true

theorem hasInlinable_of_singleUse {t : Triple} (h : IsSingleUse g n t)
    (legal : ∀ t ∈ g.toList, t.isLegal = true) (blank : n.isBlank = true)
    (candidates : HasCandidates g .all b) : HasInlinable g b n := by
  have hl : links g n (.brackets []) = [t] := links_eq_singleton fun u => by
    rw [h.mentions u]
    exact and_iff_left List.not_mem_nil
  exact ⟨_, h.candidate legal blank candidates, rfl, canBeInlined_of_isBare hl ⟨rfl, rfl⟩ h.place⟩

theorem hasInlinable_of_owner (h : IsOwner g n link) (legal : ∀ t ∈ g.toList, t.isLegal = true)
    (blank : n.isBlank = true) (candidates : HasCandidates g .all b) : HasInlinable g b n := by
  obtain ⟨hg, ho⟩ := (h.reference link).mpr rfl
  have hs : link.subject ≠ n := fun hs => h.link_not_mem (Graph.mem_own.mpr ⟨hg, hs⟩)
  have mem {t : Triple} : t ∈ bracketTriples g n ↔ t ∈ g.own n := h.mem_bracketTriples legal blank
  have mentioned : link ∈ g.mentioning n := Graph.mem_mentioning.mpr ⟨hg, by simp [Triple.mentions, ho]⟩
  have unclaimed : link ∉ bracketTriples g n := fun hb => h.link_not_mem (mem.mp hb)
  -- The link mentions the node and does not stand between its brackets.
  have eligible : isEligible g n (.brackets (bracketTriples g n)) = true := by
    have sub : (bracketTriples g n).Sublist (g.mentioning n) :=
      (bracketTriples_sublist g n).trans List.filter_sublist
    exact isEligible_brackets.mpr (.inr fun all => unclaimed (sub.eq_of_length all ▸ mentioned))
  have hl : links g n (.brackets (bracketTriples g n)) = [link] := links_eq_singleton fun u => by
    change _ ∧ u ∉ bracketTriples g n ↔ _
    constructor
    · rintro ⟨⟨hu, hm⟩, other⟩
      have hm := (Triple.mentions_iff_of_isLegal (legal u hu) blank).mp hm
      have object := hm.resolve_left fun hs => other (mem.mpr (Graph.mem_own.mpr ⟨hu, hs⟩))
      exact (h.reference u).mp ⟨hu, object⟩
    · rintro rfl
      exact ⟨Graph.mem_mentioning.mp mentioned, unclaimed⟩
  refine ⟨_, h.candidate blank candidates, eligible, canBeInlined_of_object hl ho hs (fun _ t ht => ?_) ?_⟩
  · exact ⟨(Graph.mem_own.mp (mem.mp ht)).2, h.object_ne (mem.mp ht)⟩
  · simp [Collection.brackets]

theorem hasInlinable_of_onlyCell {item : Node} (h : IsOnlyCell g n item link) (blank : n.isBlank = true)
    (candidates : HasCandidates g .all b) : HasInlinable g b n := by
  obtain ⟨c, hk, hc, walked⟩ := h.candidate blank candidates
  have single := h.size_eq_one walked
  obtain ⟨x, claims⟩ := walked.claims_of_size hc single
  have hl : links g n c = [link] := links_eq_singleton fun u => by
    rw [h.mentions u]
    constructor
    · rintro ⟨rfl | rfl | rfl, unclaimed⟩
      · exact absurd (walked.mem_claims_of_first ((h.mentions _).mpr (.inl rfl)).1 rfl rfl) unclaimed
      · exact absurd (by simp [claims]) unclaimed
      · rfl
    · rintro rfl
      refine ⟨.inr (.inr rfl), fun claimed => ?_⟩
      rw [claims] at claimed
      rcases List.mem_pair.mp claimed with e | e
      · exact h.subject_ne (e ▸ rfl)
      · exact h.subject_ne (e ▸ rfl)
  refine ⟨c, hk, ?_, canBeInlined_of_object hl h.reference h.subject_ne ?_ fun _ => single⟩
  · rw [isEligible_of_list hc, single, h.countMentions_eq]
  · simp [hc]

theorem hasInlinable_of_treeNode (h : IsTreeNode g n) (legal : ∀ t ∈ g.toList, t.isLegal = true)
    (blank : n.isBlank = true) (candidates : HasCandidates g .all b) : HasInlinable g b n := by
  cases h with
  | singleUse t h => exact hasInlinable_of_singleUse h legal blank candidates
  | owner link h => exact hasInlinable_of_owner h legal blank candidates
  | onlyCell item link h => exact hasInlinable_of_onlyCell h blank candidates

theorem contains_settle_of_treeNode {a : Analysis} (legal : ∀ t ∈ g.toList, t.isLegal = true)
    (h : g.collections .all = .ok a) (blank : n.isBlank = true) (tree : IsTreeNode g n) :
    (settle g a.registry).contains n = true := by
  obtain ⟨b, candidates, rfl⟩ := exists_candidates h
  obtain ⟨c, hk, eligible, inlined⟩ := hasInlinable_of_treeNode tree legal blank candidates
  exact Registry.contains_iff.mpr
    ⟨c, get?_settle_of_candidate legal candidates h hk eligible inlined tree.not_onCycle⟩

end

/-- A list between brackets; its item is mentioned nowhere else. -/
def nested : Graph :=
  .ofList [⟨.iri "ex:s", .iri "ex:p", .blank "a"⟩, ⟨.blank "a", .iri "ex:p", .blank "c"⟩,
    ⟨.blank "c", .rdfFirst, .blank "d"⟩, ⟨.blank "c", .rdfRest, .rdfNil⟩]

theorem collections_nested : ∃ a, nested.collections .all = .ok a := by
  have tails : tails nested = [.blank "c"] := by decide
  have list : walkList nested (.blank "c") = .ok (some [⟨.blank "c", .rdfFirst, .blank "d"⟩]) :=
    walkFrom_head [] (by decide) (by decide) rfl (by decide)
  rw [Graph.collections, run_eq, findLists, tails, addLists, list]
  exact ⟨_, rfl⟩

/-- The triples of the graph lead from the subject to the brackets, the list and the item. -/
theorem not_onCycle_nested (n : Node) : ¬ nested.OnCycle n :=
  Graph.not_onCycle_of_rank [.iri "ex:s", .blank "a", .blank "c", .blank "d"].idxOf (by decide)

theorem isTreeNode_nested : ∀ n ∈ nested.blankNodes, IsTreeNode nested n := by
  have nodes : nested.blankNodes = [.blank "a", .blank "c", .blank "d"] := by decide
  have chosen {p : Triple → Bool} {ts : List Triple} (h : nested.toList.filter p = ts) (u : Triple) :
      u ∈ nested.toList ∧ p u = true ↔ u ∈ ts := h ▸ List.mem_filter.symm
  rw [nodes]
  simp only [List.forall_mem_cons, List.not_mem_nil, false_imp_iff, implies_true, and_true]
  refine ⟨?brackets, ?list, ?item⟩
  case brackets =>
    have link : nested.toList.filter (·.object = .blank "a") =
        [⟨.iri "ex:s", .iri "ex:p", .blank "a"⟩] := by decide
    exact .owner _ {
      acyclic := not_onCycle_nested _
      reference := fun u => by simpa using chosen link u
      nonempty := by decide
      plain := by decide
      several := .inl (by decide) }
  case list =>
    have mentions : nested.toList.filter (·.mentions (.blank "c")) =
        [⟨.blank "a", .iri "ex:p", .blank "c"⟩, ⟨.blank "c", .rdfFirst, .blank "d"⟩,
          ⟨.blank "c", .rdfRest, .rdfNil⟩] := by decide
    exact .onlyCell (.blank "d") ⟨.blank "a", .iri "ex:p", .blank "c"⟩ {
      acyclic := not_onCycle_nested _
      mentions := fun u => by
        rw [chosen mentions u]
        simp only [List.mem_cons, List.not_mem_nil, or_false]
        tauto
      reference := rfl
      other := by decide }
  case item =>
    have mentions : nested.toList.filter (·.mentions (.blank "d")) =
        [⟨.blank "c", .rdfFirst, .blank "d"⟩] := by decide
    exact .singleUse _ {
      mentions := fun u => by rw [chosen mentions u, List.mem_singleton]
      place := .inr ⟨rfl, by decide⟩ }

/-- With collections, every tree node is the key of a settled collection, which stands inline in the
document once. The written text is the heading and one statement for each block; the statements denote the
collections of their blocks and are read back with them, and none names the node. -/
theorem write_inlines_treeNode {o : Options} {g : Graph} {sink out : Sink}
    (legal : ∀ t ∈ g.toList, t.isLegal = true) (level : o.level.collects = true)
    (written : write o g sink = (.ok (), out)) {n : Node} (blank : n.isBlank = true)
    (tree : IsTreeNode g n) :
    ∃ (r : Registry) (d : Document), collectionsFor o.level g = .ok r ∧ r.contains n = true ∧
      layOut o g = .ok d ∧ out.accepted = sink.accepted ++ utf8Bytes (d.text o) ∧
      ((d.blocks.flatMap Block.collections).map Prod.fst).count n = 1 ∧
      d.text o = d.heading ++ String.join (d.blocks.map fun b => b.text o ++ "\n") ∧
      (∀ b ∈ d.blocks, b.IsDenoted o (· ≠ n)) ∧
      ∀ lx : Lexicon, (∀ t ∈ g.toList, lx.admitsTriple t = true) →
        ∀ b ∈ d.blocks, b.IsReadBack lx o d := by
  obtain ⟨d, hd, accepted⟩ := write_eq_ok written
  obtain ⟨r, hr, h⟩ := isCollected_layOut level hd
  have key : r.contains n = true := by
    rw [collectionsFor, if_pos level] at hr
    obtain ⟨a, ha, rfl⟩ := exists_of_map_eq_ok hr
    exact contains_settle_of_treeNode legal ha blank tree
  refine ⟨r, d, hr, key, hd, accepted, ?once, d.text_eq o, ?denoted, ?readBack⟩
  case once =>
    rw [(h.layout.keys_perm h.settled).count_eq]
    exact List.count_eq_one_of_mem r.nodup (Registry.mem_keys.mpr key)
  case denoted =>
    intro b hb
    exact h.isDenoted hb fun _ hn same => h.layout.not_printed h.settled legal key hb (same ▸ hn)
  case readBack => exact fun lx admitted b hb => h.isReadBack admitted hb

/-- The brackets, the list and its item are all written inline, and are read back. -/
theorem write_inlines_nested : ∃ d, layOut {} nested = .ok d ∧
    write {} nested ⟨none, []⟩ = (.ok (), ⟨none, utf8Bytes (d.text {})⟩) ∧
    ∀ n ∈ nested.blankNodes, ((d.blocks.flatMap Block.collections).map Prod.fst).count n = 1 ∧
      ∀ b ∈ d.blocks, b.IsDenoted {} (· ≠ n) ∧ b.IsReadBack .standard {} d := by
  obtain ⟨a, found⟩ := collections_nested
  obtain ⟨d, laid⟩ : ∃ d, layOut {} nested = .ok d := by
    rw [layOut, collectionsFor, found]
    exact ⟨_, rfl⟩
  have written := write_unlimited laid []
  have legal : ∀ t ∈ nested.toList, t.isLegal = true := by decide
  have admitted : ∀ t ∈ nested.toList, Lexicon.admitsTriple .standard t = true := by decide
  refine ⟨d, laid, written, fun n hn => ?_⟩
  obtain ⟨-, d', -, -, laid', -, once, -, denoted, readBack⟩ :=
    write_inlines_treeNode legal rfl written (Graph.mem_blankNodes.mp hn).1 (isTreeNode_nested n hn)
  obtain rfl : d' = d := Except.ok.inj (laid'.symm.trans laid)
  exact ⟨once, fun b hb => ⟨denoted b hb, readBack .standard admitted b hb⟩⟩

end TripleStore.Turtle
