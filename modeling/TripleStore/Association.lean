/-! # Association lists

Lists of keys with values, read by their first entry for a key, and the operations that the
insertion-ordered maps of the library share: putting a value in place of the first entry for its key
(or at the end) and dropping every entry of a key. -/
namespace TripleStore.Association
variable {κ α : Type} [DecidableEq κ]

theorem lookup_cons (k i : κ) (v : α) (rest : List (κ × α)) :
    List.lookup k ((i, v) :: rest) = if k = i then some v else rest.lookup k := by
  by_cases h : k = i
  · simp [h]
  · simp [List.lookup_cons, h, beq_false_of_ne h]

/-- Puts a value in place of the first entry for its key; a new key goes to the end. -/
def put (k : κ) (v : α) : List (κ × α) → List (κ × α)
  | [] => [(k, v)]
  | (i, w) :: rest => if k = i then (k, v) :: rest else (i, w) :: put k v rest

def drop (k : κ) (es : List (κ × α)) : List (κ × α) := es.filter fun e => e.1 ≠ k

theorem lookup_put (k : κ) (v : α) (es : List (κ × α)) (k' : κ) :
    (put k v es).lookup k' = if k' = k then some v else es.lookup k' := by
  induction es with
  | nil => simp [put, lookup_cons]
  | cons e rest ih =>
    obtain ⟨i, w⟩ := e
    simp only [put]
    split
    next h => simp only [lookup_cons, ← h]; split <;> simp_all
    next h =>
      simp only [lookup_cons, ih]
      split
      next hi => subst hi; simp [Ne.symm h]
      next => rfl

theorem lookup_drop (k : κ) (es : List (κ × α)) (k' : κ) :
    (drop k es).lookup k' = if k' = k then none else es.lookup k' := by
  induction es with
  | nil => simp [drop]
  | cons e rest ih =>
    obtain ⟨i, w⟩ := e
    by_cases h : i = k
    · subst h
      rw [show drop i ((i, w) :: rest) = drop i rest by simp [drop], ih, lookup_cons]
      split <;> simp_all
    · rw [show drop k ((i, w) :: rest) = (i, w) :: drop k rest by simp [drop, h], lookup_cons,
        lookup_cons, ih]
      split
      next hi => subst hi; simp [h]
      next => rfl

theorem keys_put_of_mem {k : κ} {es : List (κ × α)} (v : α) (h : k ∈ es.map Prod.fst) :
    (put k v es).map Prod.fst = es.map Prod.fst := by
  induction es with
  | nil => simp at h
  | cons e rest ih =>
    obtain ⟨i, w⟩ := e
    simp only [put]
    split
    next hi => simp [hi]
    next hi =>
      have : k ∈ rest.map Prod.fst := by simpa [hi] using h
      simp [ih this]

theorem put_of_not_mem {k : κ} {es : List (κ × α)} (v : α) (h : k ∉ es.map Prod.fst) :
    put k v es = es ++ [(k, v)] := by
  induction es with
  | nil => rfl
  | cons e rest ih =>
    obtain ⟨i, w⟩ := e
    simp only [List.map_cons, List.mem_cons, not_or] at h
    simp [put, h.1, ih h.2]

theorem nodup_keys_put {es : List (κ × α)} (k : κ) (v : α) (h : (es.map Prod.fst).Nodup) :
    ((put k v es).map Prod.fst).Nodup := by
  by_cases hk : k ∈ es.map Prod.fst
  · rwa [keys_put_of_mem v hk]
  · rw [put_of_not_mem v hk, List.map_append, List.nodup_append]
    refine ⟨h, by simp, ?_⟩
    intro a ha b hb e
    simp only [List.map_cons, List.map_nil, List.mem_singleton] at hb
    exact hk (hb ▸ e ▸ ha)

theorem nodup_keys_drop {es : List (κ × α)} (k : κ) (h : (es.map Prod.fst).Nodup) :
    ((drop k es).map Prod.fst).Nodup :=
  h.sublist (List.filter_sublist.map _)

theorem lookup_eq_some_of_mem {es : List (κ × α)} (h : (es.map Prod.fst).Nodup) {k : κ} {v : α}
    (hm : (k, v) ∈ es) : es.lookup k = some v := by
  induction es with
  | nil => simp at hm
  | cons e rest ih =>
    obtain ⟨i, w⟩ := e
    simp only [List.map_cons, List.nodup_cons] at h
    rw [lookup_cons]
    rcases List.mem_cons.mp hm with e | hm
    · obtain ⟨rfl, rfl⟩ := Prod.mk.inj e
      simp
    · have : k ≠ i := fun e => h.1 (e ▸ List.mem_map_of_mem hm)
      simp [this, ih h.2 hm]

theorem mem_of_lookup_eq_some {es : List (κ × α)} {k : κ} {v : α} (h : es.lookup k = some v) :
    (k, v) ∈ es := by
  induction es with
  | nil => simp at h
  | cons e rest ih =>
    obtain ⟨i, w⟩ := e
    rw [lookup_cons] at h
    split at h
    next hk => simp [hk, Option.some.inj h]
    next => exact List.mem_cons_of_mem _ (ih h)

theorem lookup_eq_none {es : List (κ × α)} {k : κ} : es.lookup k = none ↔ k ∉ es.map Prod.fst := by
  induction es with
  | nil => simp
  | cons e rest ih =>
    obtain ⟨i, w⟩ := e
    rw [lookup_cons]
    split
    next h => simp [h]
    next h => simp [ih, h]

end TripleStore.Association
