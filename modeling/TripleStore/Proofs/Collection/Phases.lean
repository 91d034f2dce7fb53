import Mathlib.Data.List.Induction
import TripleStore.Proofs.Collection.Claimed

/-! # Phases in any order

The phases of an analysis may be run on their own, in any order and more than once. The claims are made
by two of them and then stand until they are made anew; as claiming leaves an analysis without collections
as it is, claims can outlast all collections. The main statement says exactly when they do. -/
namespace TripleStore.Analysis

inductive Phase
  | lists
  | brackets
  | eligibility
  | cycles
  | claiming
  | revocation
  deriving DecidableEq

/-- Registers the lists that end in the given cells up to a malformed one, which is reported. -/
def registerLists (g : Graph) (r : Registry) : List Node → Option ListError × Registry
  | [] => (none, r)
  | tail :: tails =>
    match walkList g tail with
    | .error e => (some e, r)
    | .ok none => registerLists g r tails
    | .ok (some firsts) => registerLists g (addList r firsts) tails

namespace Phase

/-- Runs a phase and tells whether it found a malformed list. What had been registered before that list
stays registered. -/
def apply (g : Graph) (a : Analysis) : Phase → Option ListError × Analysis
  | lists => ((registerLists g a.registry (tails g)).1,
      { a with registry := (registerLists g a.registry (tails g)).2 })
  | brackets => (none, findBrackets g a)
  | eligibility => (none, dropIneligible g a)
  | cycles => (none, dropCyclic a)
  | claiming => (none, a.claim)
  | revocation => (none, revoke g a)

/-- Whether the phase drops collections and leaves the claims as they are. -/
def drops : Phase → Bool
  | eligibility | cycles => true
  | _ => false

/-- Whether the phase may change the claims. -/
def claims : Phase → Bool
  | claiming | revocation => true
  | _ => false

end Phase

/-- The analysis after some phases. -/
def after (g : Graph) (ps : List Phase) : Analysis := ps.foldl (fun a p => (p.apply g a).2) start

theorem after_append (g : Graph) (ps : List Phase) (p : Phase) :
    after g (ps ++ [p]) = (p.apply g (after g ps)).2 := by
  rw [after, List.foldl_append]
  rfl

theorem addLists_eq (g : Graph) (r : Registry) (ts : List Node) :
    addLists g r ts = match registerLists g r ts with
      | (none, r) => .ok r
      | (some e, _) => .error e := by
  induction ts generalizing r with
  | nil => rfl
  | cons t ts ih =>
    unfold addLists registerLists
    cases walkList g t with
    | error e => rfl
    | ok found =>
      cases found with
      | none => exact ih r
      | some firsts => exact ih (addList r firsts)

/-- Finding lists is the first phase, unless it fails. -/
theorem findLists_eq (g : Graph) (a : Analysis) :
    findLists g a = match Phase.lists.apply g a with
      | (none, b) => .ok b
      | (some e, _) => .error e := by
  rw [findLists, addLists_eq, Phase.apply]
  cases registerLists g a.registry (tails g) with
  | mk e r => cases e <;> rfl

theorem contains_addList {r : Registry} {k : Node} (h : r.contains k = true) (firsts : List Triple) :
    (addList r firsts).contains k = true := by
  unfold addList
  split
  · exact h
  · split
    · exact h
    · rw [Registry.contains, Registry.get?_insert]
      split
      · rfl
      · exact h

theorem contains_registerLists {g : Graph} {r : Registry} {k : Node} (h : r.contains k = true)
    (ts : List Node) : (registerLists g r ts).2.contains k = true := by
  induction ts generalizing r with
  | nil => exact h
  | cons t ts ih =>
    unfold registerLists
    split
    · exact h
    · exact ih h
    · exact ih (contains_addList h _)

theorem isEmpty_of_grows {r r' : Registry} (grows : ∀ k, r.contains k = true → r'.contains k = true)
    (h : r'.isEmpty = true) : r.isEmpty = true := by
  have none (k : Node) : k ∉ r'.keys := by simp [Registry.keys, List.isEmpty_iff.mp h]
  have keys : r.keys = [] := List.eq_nil_iff_forall_not_mem.mpr fun k hk =>
    none k (Registry.mem_keys.mpr (grows k (Registry.mem_keys.mp hk)))
  exact List.isEmpty_iff.mpr (List.map_eq_nil_iff.mp keys)

/-- Without collections nothing is claimed. -/
def IsBacked (a : Analysis) : Prop := a.registry.isEmpty = true → a.claimed = []

section
variable {g : Graph} {a : Analysis}

theorem claimed_apply {p : Phase} (h : p.claims = false) : (p.apply g a).2.claimed = a.claimed := by
  cases p with
  | lists | brackets | eligibility | cycles => rfl
  | claiming | revocation => simp [Phase.claims] at h

/-- A phase that may change the claims makes them anew or changes nothing. -/
theorem isCurrent_apply {p : Phase} (h : p.claims = true) :
    (p.apply g a).2.IsCurrent ∨ (p.apply g a).2 = a := by
  cases p with
  | lists | brackets | eligibility | cycles => simp [Phase.claims] at h
  | claiming =>
    change a.claim.IsCurrent ∨ a.claim = a
    unfold claim
    split
    · exact .inr rfl
    · exact .inl rfl
  | revocation =>
    change (revoke g a).IsCurrent ∨ revoke g a = a
    unfold revoke
    split
    · exact .inl rfl
    · exact .inr rfl

theorem isBacked_of_isCurrent (h : a.IsCurrent) : a.IsBacked :=
  fun empty => h.trans (claims_of_isEmpty empty)

/-- Only dropping collections can leave claims without any collection. -/
theorem IsBacked.apply (h : a.IsBacked) {p : Phase} (kept : p.drops = true → a.claimed = []) :
    (p.apply g a).2.IsBacked := by
  have remade (hp : p.claims = true) : (p.apply g a).2.IsBacked := by
    rcases isCurrent_apply (g := g) (a := a) hp with current | same
    · exact isBacked_of_isCurrent current
    · rwa [same]
  cases p with
  | lists => exact fun empty => h (isEmpty_of_grows (fun k hk => contains_registerLists hk _) empty)
  | brackets =>
    refine fun empty => h (isEmpty_of_grows (fun k hk => ?_) empty)
    obtain ⟨c, hc⟩ := Registry.contains_iff.mp hk
    exact Registry.contains_iff.mpr ⟨c, (get?_findBrackets g a k).trans (by rw [hc]; rfl)⟩
  | eligibility => exact fun _ => kept rfl
  | cycles => exact fun _ => kept rfl
  | claiming => exact remade rfl
  | revocation => exact remade rfl

end

/-- The claims are those of the collections that were registered after some initial part of the phases. -/
theorem exists_claims_eq (g : Graph) (ps : List Phase) :
    ∃ qs, qs <+: ps ∧ (after g ps).claimed = (after g qs).registry.claims := by
  induction ps using List.reverseRecOn with
  | nil => exact ⟨[], List.prefix_refl _, rfl⟩
  | append_singleton ps p ih =>
    obtain ⟨qs, part, claimed⟩ := ih
    have longer := part.trans (List.prefix_append ps [p])
    cases hp : p.claims with
    | false => exact ⟨qs, longer, by rw [after_append, claimed_apply hp, claimed]⟩
    | true =>
      rcases isCurrent_apply (g := g) (a := after g ps) hp with current | same
      · exact ⟨ps ++ [p], List.prefix_refl _, by rw [after_append]; exact current⟩
      · exact ⟨qs, longer, by rw [after_append, same, claimed]⟩

theorem claimed_after {g : Graph} {ps : List Phase} (h : ∀ p ∈ ps, p.claims = false) :
    (after g ps).claimed = [] := by
  induction ps using List.reverseRecOn with
  | nil => rfl
  | append_singleton ps p ih =>
    rw [after_append, claimed_apply (h p (by simp)), ih fun q hq => h q (by simp [hq])]

/-- Phases that drop collections do no harm before the first claims are made. -/
theorem isBacked_after {g : Graph} {ps qs : List Phase} (before : ∀ p ∈ ps, p.claims = false)
    (behind : ∀ q ∈ qs, q.drops = false) : (after g (ps ++ qs)).IsBacked := by
  induction qs using List.reverseRecOn with
  | nil => exact fun _ => by rw [List.append_nil, claimed_after before]
  | append_singleton qs q ih =>
    rw [← List.append_assoc, after_append]
    have kept : q.drops = false := behind q (by simp)
    exact (ih fun p hp => behind p (by simp [hp])).apply (by simp [kept])

/-- The claimed triples are just the triples that registered collections claim. -/
def IsAccurate (a : Analysis) : Prop :=
  ∀ t, t ∈ a.claimed ↔ ∃ k c, a.registry.get? k = some c ∧ t ∈ c.claims

theorem IsCurrent.isAccurate {a : Analysis} (h : a.IsCurrent) : a.IsAccurate := fun t => by
  rw [h, Registry.mem_claims]

theorem isAccurate_claim_iff {a : Analysis} : a.claim.IsAccurate ↔ a.IsBacked := by
  constructor
  · intro accurate empty
    refine List.eq_nil_iff_forall_not_mem.mpr fun t ht => ?_
    have kept : a.claim = a := by rw [claim, if_pos empty]
    obtain ⟨k, c, hk, -⟩ := (accurate t).mp (by rwa [kept])
    rw [claim_registry, Registry.get?, List.isEmpty_iff.mp empty] at hk
    simp at hk
  · exact fun backed => (isCurrent_claim backed).isAccurate

/-- After phases in any order and a last claiming the claimed triples are those of the registered
collections if and only if there are collections or nothing was claimed before. Otherwise the claims stay
as they were made for collections that were registered earlier, none of which is left. No claims outlast
their collections if all phases that drop collections come before the phases that claim. -/
theorem claiming_isAccurate_iff (g : Graph) (ps : List Phase) :
    ((after g (ps ++ [.claiming])).IsAccurate ↔
      (after g ps).registry.isEmpty = false ∨ (after g ps).claimed = []) ∧
    (¬ (after g (ps ++ [.claiming])).IsAccurate → (after g (ps ++ [.claiming])).registry.keys = [] ∧
      ∃ qs, qs <+: ps ∧ (after g (ps ++ [.claiming])).claimed = (after g qs).registry.claims) ∧
    ∀ qs rs, ps = qs ++ rs → (∀ q ∈ qs, q.claims = false) → (∀ r ∈ rs, r.drops = false) →
      (after g (ps ++ [.claiming])).IsAccurate := by
  have last : after g (ps ++ [.claiming]) = (after g ps).claim := after_append g ps .claiming
  rw [last, isAccurate_claim_iff]
  refine ⟨?_, fun stale => ?_, ?_⟩
  · rw [IsBacked, ← Bool.not_eq_true, imp_iff_not_or]
  · have empty : (after g ps).registry.isEmpty = true := by
      by_contra some
      exact stale fun empty => absurd empty some
    have kept : (after g ps).claim = after g ps := by rw [claim, if_pos empty]
    rw [kept]
    exact ⟨List.map_eq_nil_iff.mpr (List.isEmpty_iff.mp empty), exists_claims_eq g ps⟩
  · rintro qs rs rfl before behind
    exact isBacked_after before behind

/-- The claims of brackets outlast them when the brackets are dropped before the claiming is repeated. -/
theorem claiming_outlasts_brackets :
    ¬ ∀ (g : Graph) (ps : List Phase), (after g (ps ++ [.claiming])).IsAccurate := by
  intro accurate
  let b := Node.blank "b"
  let o := Node.iri "http://example.com/o"
  let t : Triple := ⟨b, .iri "http://example.com/q", o⟩
  let g := Graph.ofList [t, ⟨b, .iri "http://example.com/r", o⟩]
  have claimed : t ∈ (after g ([.brackets, .claiming, .eligibility] ++ [.claiming])).claimed := by decide
  have empty : (after g ([.brackets, .claiming, .eligibility] ++ [.claiming])).registry.entries = [] := by
    decide
  obtain ⟨k, c, hk, -⟩ := (accurate g [.brackets, .claiming, .eligibility] t).mp claimed
  have entry := Registry.mem_entries.mpr hk
  rw [empty] at entry
  exact List.not_mem_nil entry

end TripleStore.Analysis
