import TripleStore.Proofs.Evaluation.Matches
import TripleStore.Store

/-! # Joining with the input

The join of a pattern with the incoming solutions is made of all unions of an incoming solution with a
match that is compatible with it. The solutions of a pattern bind the names of the pattern and no others,
so what an incoming solution binds besides is lost; the main statement says exactly when the result is
the join. -/
namespace TripleStore

namespace Solution

/-- Two solutions do not contradict each other. -/
def Compatible (μ τ : Solution) : Prop := ∀ x a b, μ.get? x = some a → τ.get? x = some b → a = b

/-- A solution has all bindings of another one. -/
def Extends (σ μ : Solution) : Prop := ∀ x a, μ.get? x = some a → σ.get? x = some a

/-- The bindings of two solutions; those of the second one count where both bind a name. -/
def union (μ τ : Solution) : Solution := τ.bindings.foldl (fun σ b => σ.insert b.1 b.2) μ

theorem get?_union (μ τ : Solution) (x : String) :
    (μ.union τ).get? x = (τ.get? x).or (μ.get? x) := by
  obtain ⟨bs, sorted⟩ := τ
  simp only [union, NameMap.get?]
  induction bs generalizing μ with
  | nil => rfl
  | cons b bs ih =>
    obtain ⟨k, v⟩ := b
    obtain ⟨hk, hs⟩ := List.pairwise_cons.mp sorted
    rw [List.foldl_cons, ih _ hs, Association.lookup_cons]
    have insert : (μ.insert k v).bindings.lookup x = if x = k then some v else μ.bindings.lookup x :=
      NameMap.get?_insert μ k v x
    rw [insert]
    split
    next hx =>
      subst hx
      have : bs.lookup x = none := Association.lookup_eq_none.mpr fun hm => by
        obtain ⟨b, hb, rfl⟩ := List.mem_map.mp hm
        exact String.lt_irrefl _ (hk b hb)
      rw [this, Option.none_or, Option.some_or]
    next => rfl

theorem extends_refl (σ : Solution) : σ.Extends σ := fun _ _ h => h

/-- Solutions with a common extension are compatible. -/
theorem Extends.compatible {σ μ τ : Solution} (hμ : σ.Extends μ) (hτ : σ.Extends τ) :
    μ.Compatible τ := fun x a b ha hb =>
  Option.some.inj ((hμ x a ha).symm.trans (hτ x b hb))

/-- A compatible solution with further names is an extension. -/
theorem Compatible.extends {μ τ : Solution} (h : μ.Compatible τ)
    (names : ∀ x, μ.contains x = true → τ.contains x = true) : τ.Extends μ := by
  intro x a ha
  obtain ⟨b, hb⟩ := Option.isSome_iff_exists.mp (names x (Option.isSome_iff_exists.mpr ⟨a, ha⟩))
  rw [hb, h x a b ha hb]

theorem Extends.union_eq {μ τ : Solution} (h : τ.Extends μ) : μ.union τ = τ := by
  refine NameMap.ext fun x => ?_
  rw [get?_union]
  cases hτ : τ.get? x with
  | some b => rfl
  | none =>
    cases hμ : μ.get? x with
    | none => rfl
    | some a => simpa [hτ] using h x a hμ

theorem contains_union_of_left {μ τ : Solution} {x : String} (h : μ.contains x = true) :
    (μ.union τ).contains x = true := by
  rw [NameMap.contains, get?_union, Option.isSome_or, Bool.or_eq_true]
  exact .inr h

end Solution

namespace Pattern

/-- What comes out extends what has come in: every resulting solution has the bindings of an incoming
solution and of a match that is compatible with it, and every union of such two is a result. -/
structure Joins (p : Pattern) (g : Graph) (input output : Solutions) : Prop where
  extends_both : ∀ σ ∈ output.rows, ∃ μ ∈ input.rows, ∃ τ, p.IsMatch g τ ∧ μ.Compatible τ ∧
    σ.Extends μ ∧ σ.Extends τ
  union_mem : ∀ μ ∈ input.rows, ∀ τ, p.IsMatch g τ → μ.Compatible τ → μ.union τ ∈ output.rows

/-- What it takes for evaluation to join: an incoming solution with a compatible match binds no name that
the pattern lacks, and a match that agrees with an incoming solution on the supplied names is compatible
with an incoming solution. -/
structure Joinable (p : Pattern) (g : Graph) (input : Solutions) : Prop where
  names : ∀ μ ∈ input.rows, ∀ τ, p.IsMatch g τ → μ.Compatible τ → ∀ x, μ.contains x = true → x ∈ p.names
  compatible : ∀ τ, p.IsMatch g τ →
    (∃ μ ∈ input.rows, ∀ x ∈ p.suppliedNames input, μ.get? x = τ.get? x) →
    ∃ μ ∈ input.rows, μ.Compatible τ

/-- Solutions that bind the supplied names and no others can be joined. -/
theorem joinable_of_supplied {p : Pattern} {g : Graph} {input : Solutions}
    (supplied : ∀ μ ∈ input.rows, ∀ x, μ.contains x = true → x ∈ p.suppliedNames input) :
    p.Joinable g input := by
  refine ⟨fun μ hμ τ _ _ x hx => ?_, fun τ _ ⟨μ, hμ, agree⟩ => ⟨μ, hμ, fun x a b ha hb => ?_⟩⟩
  · exact (mem_suppliedNames.mp (supplied μ hμ x hx)).1
  · have hx := supplied μ hμ x (Option.isSome_iff_exists.mpr ⟨a, ha⟩)
    exact Option.some.inj (ha.symm.trans ((agree x hx).trans hb))

variable {p : Pattern} (ctx : Context)

/-- No solution is lost: each match that is compatible with an incoming solution is a result. -/
theorem mem_evaluate_of_compatible {μ τ : Solution} (hμ : μ ∈ ctx.input.rows)
    (hτ : p.IsMatch ctx.graph τ) (h : μ.Compatible τ) : τ ∈ (p.evaluate ctx).rows := by
  refine mem_evaluate_iff_isMatch.mpr ⟨hτ, .inr ⟨μ, hμ, fun x hx => ?_⟩⟩
  obtain ⟨hn, -, bound⟩ := mem_suppliedNames.mp hx
  obtain ⟨a, ha⟩ := Option.isSome_iff_exists.mp (bound μ hμ)
  obtain ⟨b, hb⟩ := Option.isSome_iff_exists.mp ((hτ.names x).mpr hn)
  rw [ha, hb, h x a b ha hb]

/-- Where solutions come in, a result agrees with one of them on the supplied names. -/
theorem exists_agreeing (h : ctx.input.rows ≠ []) {τ : Solution} (hτ : τ ∈ (p.evaluate ctx).rows) :
    ∃ μ ∈ ctx.input.rows, ∀ x ∈ p.suppliedNames ctx.input, μ.get? x = τ.get? x := by
  rcases (mem_evaluate_iff_isMatch.mp hτ).2 with none | some
  · obtain ⟨μ, hμ⟩ := List.exists_mem_of_ne_nil _ h
    exact ⟨μ, hμ, fun x hx => by simp [none] at hx⟩
  · exact some

theorem joinable_of_joins (h : p.Joins ctx.graph ctx.input (p.evaluate ctx)) :
    p.Joinable ctx.graph ctx.input := by
  refine ⟨fun μ hμ τ hτ hc x hx => ?_, fun τ hτ agreeing => ?_⟩
  · have result := mem_evaluate_iff_isMatch.mp (h.union_mem μ hμ τ hτ hc)
    exact (result.1.names x).mp (Solution.contains_union_of_left hx)
  · have result := mem_evaluate_iff_isMatch.mpr ⟨hτ, .inr agreeing⟩
    obtain ⟨μ, hμ, -, -, -, hσ, -⟩ := h.extends_both τ result
    exact ⟨μ, hμ, hσ.compatible (Solution.extends_refl τ)⟩

theorem Joinable.joins (h : p.Joinable ctx.graph ctx.input) (some : ctx.input.rows ≠ []) :
    p.Joins ctx.graph ctx.input (p.evaluate ctx) := by
  have covered {μ τ : Solution} (hμ : μ ∈ ctx.input.rows) (hτ : p.IsMatch ctx.graph τ)
      (hc : μ.Compatible τ) : τ.Extends μ :=
    hc.extends fun x hx => (hτ.names x).mpr (h.names μ hμ τ hτ hc x hx)
  refine ⟨fun σ hσ => ?_, fun μ hμ τ hτ hc => ?_⟩
  · have hτ := (mem_evaluate_iff_isMatch.mp hσ).1
    obtain ⟨μ, hμ, hc⟩ := h.compatible σ hτ (exists_agreeing ctx some hσ)
    exact ⟨μ, hμ, σ, hτ, hc, covered hμ hτ hc, Solution.extends_refl σ⟩
  · rw [(covered hμ hτ hc).union_eq]
    exact mem_evaluate_of_compatible ctx hμ hτ hc

end Pattern

namespace Workspace

/-- A store returns every match that is compatible with an incoming solution, and no union with other
bindings: its result is the join with the incoming solutions if and only if these are joinable. -/
theorem evaluate_joins_iff (w : Workspace) (s : Store) (p : Pattern) {input : Solutions}
    (h : input.rows ≠ []) :
    (∀ μ ∈ input.rows, ∀ τ, p.IsMatch (w.graphOf s) τ → μ.Compatible τ →
        τ ∈ (w.evaluate s p input).rows) ∧
      (p.Joins (w.graphOf s) input (w.evaluate s p input) ↔ p.Joinable (w.graphOf s) input) := by
  let ctx : Context := { graph := w.graphOf s, input, options := s.options }
  exact ⟨fun _ hμ _ hτ hc => Pattern.mem_evaluate_of_compatible ctx hμ hτ hc,
    fun joins => Pattern.joinable_of_joins ctx joins, fun joinable => joinable.joins ctx h⟩

/-- An incoming solution that binds one of the two names of a pattern is joined. -/
theorem evaluate_joins_supplied :
    let p := Node.iri "http://example.com/p"
    let w : Workspace := { graphs := [.ofList [⟨.blank "a", p, .blank "b"⟩]] }
    let s : Store := ⟨0, {}⟩
    let q : Pattern := ⟨.var "x", .fixed p, .var "y", true, rfl⟩
    let input : Solutions := .ofRows [.ofList [("x", .blank "a")]]
    input.rows ≠ [] ∧ q.Joins (w.graphOf s) input (w.evaluate s q input) := by
  intro p w s q input
  have h : input.rows ≠ [] := List.cons_ne_nil _ _
  refine ⟨h, (evaluate_joins_iff w s q h).2.mpr (Pattern.joinable_of_supplied fun μ hμ x hx => ?_)⟩
  obtain rfl := List.mem_singleton.mp hμ
  obtain rfl := List.mem_singleton.mp (NameMap.mem_names.mpr hx)
  decide

/-- A binding of an incoming solution is lost when the pattern does not have its name. -/
theorem evaluate_loses_binding :
    ¬ ∀ (w : Workspace) (s : Store) (p : Pattern) (input : Solutions), input.rows ≠ [] →
      p.Joins (w.graphOf s) input (w.evaluate s p input) := by
  intro joins
  let p := Node.iri "http://example.com/p"
  let a := Node.iri "http://example.com/a"
  let w : Workspace := { graphs := [.ofList [⟨a, p, a⟩]] }
  let q : Pattern := ⟨.var "x", .fixed p, .var "o", true, rfl⟩
  let input : Solutions := .ofRows [.ofList [("x", a), ("y", a)]]
  have out : (w.evaluate ⟨0, {}⟩ q input).rows = [.ofList [("x", a), ("o", a)]] := by decide
  have law := joins w ⟨0, {}⟩ q input (List.cons_ne_nil _ _)
  obtain ⟨μ, hμ, -, -, -, hσ, -⟩ := law.extends_both (.ofList [("x", a), ("o", a)]) (by simp [out])
  obtain rfl := List.mem_singleton.mp hμ
  have lost := hσ "y" a (by decide)
  exact absurd lost (by decide)

end Workspace
end TripleStore
