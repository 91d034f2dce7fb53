import TripleStore.Proofs.FirstOccurrences
import TripleStore.Proofs.Turtle.Words
import TripleStore.Text.Split
import TripleStore.Turtle.Options

/-! # Abbreviation

Prefixes are registered one after the other, and for each name the last registration that succeeded holds.
An IRI is abbreviated by the longest of the namespaces that leave a plain local name of it. As neither
names nor plain local names have a colon, the abbreviation can be taken apart again and gives back the
IRI. -/
namespace TripleStore.Turtle

/-- A namespace begins an IRI, and a plain local name is left. -/
structure Abbreviates (ns iri : String) (rest : List Char) : Prop where
  join : iri.toList = ns.toList ++ rest
  plain : isPlainLocal rest = true

theorem Abbreviates.prefix_of_length_le {ns ns' iri : String} {rest rest' : List Char}
    (h : Abbreviates ns iri rest) (h' : Abbreviates ns' iri rest') (shorter : ns'.length ≤ ns.length) :
    ns'.toList <+: ns.toList :=
  List.prefix_of_prefix_length_le ⟨rest', h'.join.symm⟩ ⟨rest, h.join.symm⟩ shorter

theorem colon_not_mem_of_isPlainLocal {cs : List Char} (h : isPlainLocal cs = true) : ':' ∉ cs :=
  fun colon => ne_of_class (isPlainChar_of_isPlainLocal h ':' colon) (by decide) rfl

theorem colon_not_mem_of_isPrefixName {name : String} (h : isPrefixName name = true) :
    ':' ∉ name.toList := by
  unfold isPrefixName at h
  split at h
  next none => rw [none]; exact List.not_mem_nil
  next c cs chars =>
    rw [Bool.and_eq_true, List.all_eq_true] at h
    rw [chars, List.mem_cons, not_or]
    refine ⟨(ne_of_class h.1 (by decide)).symm, fun colon => ?_⟩
    exact ne_of_class (h.2 ':' colon) (by decide) rfl

/-! ### Choosing the longest namespace -/

namespace PrefixTable

theorem localPart?_eq_some {iri ns : String} {rest : List Char} :
    localPart? iri ns = some rest ↔ iri.toList = ns.toList ++ rest := by
  rw [localPart?, Option.ite_none_right_eq_some, List.isPrefixOf_iff_prefix, Option.some_inj]
  constructor
  · rintro ⟨⟨tail, ht⟩, rfl⟩
    rw [← ht, ← String.length_toList, List.drop_left]
  · intro join
    exact ⟨⟨rest, join.symm⟩, by rw [join, ← String.length_toList, List.drop_left]⟩

theorem mem_abbreviations {p : PrefixTable} {iri : String} {a : String × Nat × List Char} :
    a ∈ p.abbreviations iri ↔
      ∃ ns, (a.1, ns) ∈ p.entries ∧ a.2.1 = ns.length ∧ Abbreviates ns iri a.2.2 := by
  obtain ⟨name, n, rest⟩ := a
  simp only [abbreviations, List.mem_filterMap, Option.bind_eq_some_iff, localPart?_eq_some,
    Option.ite_none_right_eq_some, Option.some_inj, Prod.mk.injEq]
  constructor
  · rintro ⟨e, he, cs, join, plain, rfl, rfl, rfl⟩
    exact ⟨e.2, he, rfl, join, plain⟩
  · rintro ⟨ns, he, rfl, join, plain⟩
    exact ⟨(name, ns), he, rest, join, plain, rfl, rfl, rfl⟩

theorem longest_mem {as : List (String × Nat × List Char)} {a : String × Nat × List Char}
    (h : longest as = some a) : a ∈ as := by
  induction as generalizing a with
  | nil => simp [longest] at h
  | cons b as ih =>
    rw [longest] at h
    split at h
    · exact List.mem_cons.mpr (.inl (Option.some.inj h).symm)
    next c hc =>
      split at h
      · exact List.mem_cons_of_mem _ (ih (hc.trans h))
      · exact List.mem_cons.mpr (.inl (Option.some.inj h).symm)

theorem longest_eq_none {as : List (String × Nat × List Char)} : longest as = none ↔ as = [] := by
  cases as with
  | nil => simp [longest]
  | cons b as =>
    rw [longest]
    split
    · simp
    · split <;> simp

theorem le_longest {as : List (String × Nat × List Char)} {a : String × Nat × List Char}
    (h : longest as = some a) : ∀ b ∈ as, b.2.1 ≤ a.2.1 := by
  induction as generalizing a with
  | nil => exact fun b hb => absurd hb List.not_mem_nil
  | cons b as ih =>
    rw [longest] at h
    split at h
    next none =>
      obtain rfl := Option.some.inj h
      simp [longest_eq_none.mp none]
    next c hc =>
      have rest := ih hc
      split at h
      next shorter =>
        obtain rfl := Option.some.inj h
        exact List.forall_mem_cons.mpr ⟨shorter, rest⟩
      next longer =>
        obtain rfl := Option.some.inj h
        exact List.forall_mem_cons.mpr
          ⟨le_rfl, fun d hd => (rest d hd).trans (Nat.le_of_not_le longer)⟩

theorem get?_eq_some_iff {p : PrefixTable} {name ns : String} :
    p.get? name = some ns ↔ (name, ns) ∈ p.entries :=
  ⟨Association.mem_of_lookup_eq_some, Association.lookup_eq_some_of_mem p.nodup⟩

/-- A text is a registered name, a colon and a plain local name, which stand for an IRI. Every other
namespace that abbreviates the IRI is a beginning of the one that is used. -/
def IsAbbreviation (p : PrefixTable) (iri text : String) : Prop :=
  ∃ name ns rest, splitAt ':' text.toList = [name.toList, rest] ∧ p.get? name = some ns ∧
    Abbreviates ns iri rest ∧
    ∀ name' ns' rest', p.get? name' = some ns' → Abbreviates ns' iri rest' → ns'.toList <+: ns.toList

theorem isAbbreviation_of_abbreviate? {p : PrefixTable} {iri text : String}
    (h : p.abbreviate? iri = some text) : p.IsAbbreviation iri text := by
  obtain ⟨⟨name, n, rest⟩, chosen, rfl⟩ := Option.map_eq_some_iff.mp h
  obtain ⟨ns, mem, length, abbreviates⟩ := mem_abbreviations.mp (longest_mem chosen)
  refine ⟨name, ns, rest, ?_, get?_eq_some_iff.mpr mem, abbreviates, fun name' ns' rest' other h' => ?_⟩
  · have text : (name ++ ":" ++ String.ofList rest).toList = name.toList ++ ':' :: rest := by simp
    rw [text, splitAt_append (colon_not_mem_of_isPrefixName (p.valid _ mem).1),
      splitAt_of_not_mem (colon_not_mem_of_isPlainLocal abbreviates.plain)]
  · have candidate : (name', ns'.length, rest') ∈ p.abbreviations iri :=
      mem_abbreviations.mpr ⟨ns', get?_eq_some_iff.mp other, rfl, h'⟩
    have shorter : ns'.length ≤ n := le_longest chosen _ candidate
    exact abbreviates.prefix_of_length_le h' (length ▸ shorter)

theorem abbreviate?_eq_none_iff {p : PrefixTable} {iri : String} :
    p.abbreviate? iri = none ↔
      ∀ name ns rest, p.get? name = some ns → ¬ Abbreviates ns iri rest := by
  rw [abbreviate?, Option.map_eq_none_iff, longest_eq_none, List.eq_nil_iff_forall_not_mem]
  simp only [get?_eq_some_iff]
  constructor
  · intro none name ns rest mem h
    exact none (name, ns.length, rest) (mem_abbreviations.mpr ⟨ns, mem, rfl, h⟩)
  · intro none a ha
    obtain ⟨ns, mem, -, h⟩ := mem_abbreviations.mp ha
    exact none a.1 ns a.2.2 mem h

end PrefixTable

/-! ### Registering prefixes -/

namespace Options

/-- The options after some registrations, each of a name and its namespace. One that is refused leaves the
options as they are. -/
def afterAll (o : Options) : List (String × String) → Options
  | [] => o
  | c :: cs =>
    match o.register c.1 c.2 with
    | .ok o' => afterAll o' cs
    | .error _ => afterAll o cs

/-- The registrations that succeed. -/
def registered (o : Options) : List (String × String) → List (String × String)
  | [] => []
  | c :: cs =>
    match o.register c.1 c.2 with
    | .ok o' => c :: registered o' cs
    | .error _ => registered o cs

theorem register_eq_ok {o o' : Options} {name iri : String} (h : o.register name iri = .ok o') :
    o'.prefixes.entries = Association.put name iri o.prefixes.entries := by
  obtain ⟨p, hp, rfl⟩ : ∃ p, o.prefixes.register name iri = .ok p ∧ { o with prefixes := p } = o' := by
    unfold register at h
    cases hp : o.prefixes.register name iri with
    | error e => simp [hp, Except.map] at h
    | ok p => exact ⟨p, rfl, by simpa [hp, Except.map] using h⟩
  unfold PrefixTable.register at hp
  split at hp
  · split at hp
    · obtain rfl := Except.ok.inj hp
      rfl
    · simp at hp
  · simp at hp

/-- A name has the namespace of its last registration that succeeded. -/
theorem get?_afterAll (o : Options) (cs : List (String × String)) (name : String) :
    (o.afterAll cs).prefixes.get? name =
      ((o.registered cs).reverse.lookup name).or (o.prefixes.get? name) := by
  induction cs generalizing o with
  | nil => rfl
  | cons c cs ih =>
    unfold afterAll registered
    cases h : o.register c.1 c.2 with
    | error e => exact ih o
    | ok o' =>
      have step : o'.prefixes.get? name = if name = c.1 then some c.2 else o.prefixes.get? name := by
        rw [PrefixTable.get?, register_eq_ok h]
        exact Association.lookup_put c.1 c.2 o.prefixes.entries name
      dsimp only
      rw [ih o', step, List.reverse_cons, List.lookup_append, Option.or_assoc]
      congr 1
      rw [Association.lookup_cons]
      split <;> rfl

/-- Names stand in the order in which they were first registered. -/
theorem names_afterAll (o : Options) (cs : List (String × String)) :
    (o.afterAll cs).prefixes.entries.map Prod.fst =
      (o.prefixes.entries.map Prod.fst ++ (o.registered cs).map Prod.fst).eraseDups := by
  induction cs generalizing o with
  | nil =>
    rw [registered, List.map_nil, List.append_nil]
    exact (FirstOccurrences.eraseDups_of_nodup o.prefixes.nodup).symm
  | cons c cs ih =>
    unfold afterAll registered
    cases h : o.register c.1 c.2 with
    | error e => exact ih o
    | ok o' =>
      dsimp only
      rw [ih o', register_eq_ok h, List.map_cons]
      by_cases old : c.1 ∈ o.prefixes.entries.map Prod.fst
      · have again (names : List String) : (c.1 :: names).removeAll (o.prefixes.entries.map Prod.fst) =
            names.removeAll (o.prefixes.entries.map Prod.fst) := List.filter_cons_of_neg (by simpa using old)
        rw [Association.keys_put_of_mem c.2 old, List.eraseDups_append, List.eraseDups_append, again]
      · rw [Association.put_of_not_mem c.2 old, List.map_append, List.append_assoc]
        rfl

/-- After any registrations the names are distinct and stand in the order of their first registration that
succeeded; each has the namespace of its last one. An IRI is abbreviated by the longest namespace for which
this is possible, and so that it can be read back; it is not abbreviated only if no namespace will do. -/
theorem abbreviate?_afterAll (level : Level) (cs : List (String × String)) (iri : String) :
    let o : Options := { level := level }
    let p := (o.afterAll cs).prefixes
    (p.entries.map Prod.fst).Nodup ∧
      p.entries.map Prod.fst = ((o.registered cs).map Prod.fst).eraseDups ∧
      (∀ name, p.get? name = (o.registered cs).reverse.lookup name) ∧
      (∀ text, p.abbreviate? iri = some text → p.IsAbbreviation iri text) ∧
      (p.abbreviate? iri = none ↔
        ∀ name ns rest, p.get? name = some ns → ¬ Abbreviates ns iri rest) := by
  intro o p
  refine ⟨p.nodup, o.names_afterAll cs, fun name => ?_,
    fun text => PrefixTable.isAbbreviation_of_abbreviate?, PrefixTable.abbreviate?_eq_none_iff⟩
  rw [get?_afterAll]
  exact Option.or_none

/-- A name is registered again, one is refused, and of the nested namespaces the longest one is used. -/
example : (({} : Options).afterAll
    [("a", "ex:x"), ("b", "ex:"), ("1", "ex:x/"), ("a", "ex:x/")]).prefixes.abbreviate? "ex:x/y" =
      some "a:y" := by
  decide

end Options
end TripleStore.Turtle
