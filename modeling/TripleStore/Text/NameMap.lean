import TripleStore.Association

/-! # Finite maps from names

A finite map from names to values, kept in the order of the names. Names are ordered by code point,
so a map has one representation: maps that answer every look-up alike are equal. -/
namespace TripleStore

/-- The bindings of a map, strictly ascending in their names. -/
structure NameMap (α : Type) where
  bindings : List (String × α)
  sorted : bindings.Pairwise (fun a b => a.1 < b.1)

namespace NameMap
open Association (lookup_cons)
variable {α : Type}

theorem lt_trichotomy (a b : String) : a < b ∨ a = b ∨ b < a := by
  by_cases h : a < b
  · exact .inl h
  · by_cases h' : b < a
    · exact .inr (.inr h')
    · exact .inr (.inl (String.le_antisymm (String.not_lt.mp h') (String.not_lt.mp h)))

/-- Puts a binding at the place of its name, in place of an older binding of the same name. -/
def place (k : String) (v : α) : List (String × α) → List (String × α)
  | [] => [(k, v)]
  | (k', v') :: rest =>
    if k < k' then (k, v) :: (k', v') :: rest
    else if k = k' then (k, v) :: rest
    else (k', v') :: place k v rest

theorem mem_place {k : String} {v : α} {b : String × α} {bs : List (String × α)}
    (h : b ∈ place k v bs) : b = (k, v) ∨ b ∈ bs := by
  induction bs with
  | nil => simpa [place] using h
  | cons head rest ih =>
    obtain ⟨k', v'⟩ := head
    simp only [place] at h
    split at h
    · simpa using h
    · split at h
      · rcases List.mem_cons.mp h with h | h
        · exact .inl h
        · exact .inr (List.mem_cons_of_mem _ h)
      · rcases List.mem_cons.mp h with h | h
        · exact .inr (by simp [h])
        · exact (ih h).imp_right (List.mem_cons_of_mem _)

theorem sorted_place (k : String) (v : α) {bs : List (String × α)}
    (h : bs.Pairwise (fun a b => a.1 < b.1)) :
    (place k v bs).Pairwise (fun a b => a.1 < b.1) := by
  induction bs with
  | nil => simp [place]
  | cons head rest ih =>
    obtain ⟨k', v'⟩ := head
    have hr := List.pairwise_cons.mp h
    simp only [place]
    split
    next hlt =>
      refine List.pairwise_cons.mpr ⟨fun b hb => ?_, h⟩
      rcases List.mem_cons.mp hb with rfl | hb
      · exact hlt
      · exact String.lt_trans hlt (hr.1 b hb)
    next hlt =>
      split
      next heq => exact heq ▸ List.pairwise_cons.mpr ⟨heq ▸ hr.1, hr.2⟩
      next hne =>
        refine List.pairwise_cons.mpr ⟨fun b hb => ?_, ih hr.2⟩
        rcases mem_place hb with rfl | hb
        · exact ((lt_trichotomy k k').resolve_left hlt).resolve_left hne
        · exact hr.1 b hb

def empty : NameMap α := ⟨[], .nil⟩

instance : EmptyCollection (NameMap α) := ⟨empty⟩

/-- Binds a name, in place of an older binding of the same name. -/
def insert (m : NameMap α) (k : String) (v : α) : NameMap α :=
  ⟨place k v m.bindings, sorted_place k v m.sorted⟩

def get? (m : NameMap α) (k : String) : Option α := m.bindings.lookup k

def contains (m : NameMap α) (k : String) : Bool := (m.get? k).isSome

def names (m : NameMap α) : List String := m.bindings.map Prod.fst

def size (m : NameMap α) : Nat := m.bindings.length

/-- The map of some bindings; of two bindings of one name the later one counts. -/
def ofList (bs : List (String × α)) : NameMap α := bs.foldl (fun m b => m.insert b.1 b.2) empty

theorem lookup_place (k : String) (v : α) (bs : List (String × α)) (k' : String) :
    (place k v bs).lookup k' = if k' = k then some v else bs.lookup k' := by
  induction bs with
  | nil => simp [place, lookup_cons]
  | cons head rest ih =>
    obtain ⟨i, w⟩ := head
    simp only [place]
    split
    · simp [lookup_cons]
    · split
      next heq => by_cases h : k' = k <;> simp [lookup_cons, h, ← heq]
      next hne =>
        simp only [lookup_cons, ih]
        by_cases hi : k' = i
        · subst hi; simp [Ne.symm hne]
        · simp [hi]

@[simp] theorem get?_empty (k : String) : (empty : NameMap α).get? k = none := rfl

@[simp] theorem get?_insert (m : NameMap α) (k : String) (v : α) (k' : String) :
    (m.insert k v).get? k' = if k' = k then some v else m.get? k' :=
  lookup_place k v m.bindings k'

theorem contains_insert (m : NameMap α) (k : String) (v : α) (k' : String) :
    (m.insert k v).contains k' = (decide (k' = k) || m.contains k') := by
  rw [contains, get?_insert]
  by_cases h : k' = k <;> simp [h, contains]

theorem mem_bindings {m : NameMap α} {k : String} {v : α} :
    (k, v) ∈ m.bindings ↔ m.get? k = some v := by
  obtain ⟨bs, hs⟩ := m
  simp only [get?]
  induction bs with
  | nil => simp
  | cons head rest ih =>
    obtain ⟨i, w⟩ := head
    have hr := List.pairwise_cons.mp hs
    simp only [List.mem_cons, lookup_cons, Prod.mk.injEq, ih hr.2]
    by_cases h : k = i
    · subst h
      have : rest.lookup k = none :=
        Association.lookup_eq_none.mpr fun hm => by
          obtain ⟨b, hb, rfl⟩ := List.mem_map.mp hm
          exact String.lt_irrefl _ (hr.1 b hb)
      simp [this, eq_comm]
    · simp [h]

theorem mem_names {m : NameMap α} {k : String} : k ∈ m.names ↔ m.contains k = true := by
  simp only [names, List.mem_map, Prod.exists, exists_and_right, exists_eq_right, contains,
    Option.isSome_iff_exists, mem_bindings]

/-- Maps with the same look-ups are equal. -/
theorem ext {m n : NameMap α} (h : ∀ k, m.get? k = n.get? k) : m = n := by
  obtain ⟨bs, hb⟩ := m
  obtain ⟨cs, hc⟩ := n
  simp only [get?] at h
  have absent {i : String} {ds : List (String × α)} (hd : ∀ d ∈ ds, i < d.1) : ds.lookup i = none :=
    Association.lookup_eq_none.mpr fun hm => by
      obtain ⟨d, hd', rfl⟩ := List.mem_map.mp hm
      exact String.lt_irrefl _ (hd d hd')
  suffices bs = cs by subst this; rfl
  induction bs generalizing cs with
  | nil =>
    cases cs with
    | nil => rfl
    | cons c cs => simpa [lookup_cons c.1 c.1] using h c.1
  | cons b bs ih =>
    obtain ⟨i, v⟩ := b
    have hb' := List.pairwise_cons.mp hb
    cases cs with
    | nil => simpa [lookup_cons] using h i
    | cons c cs =>
      obtain ⟨j, w⟩ := c
      have hc' := List.pairwise_cons.mp hc
      have first : i = j := by
        rcases lt_trichotomy i j with hlt | heq | hlt
        · have := h i
          rw [lookup_cons, if_pos rfl, absent] at this
          · simp at this
          · intro d hd
            rcases List.mem_cons.mp hd with rfl | hd
            · exact hlt
            · exact String.lt_trans hlt (hc'.1 d hd)
        · exact heq
        · have := h j
          rw [lookup_cons j j, if_pos rfl, absent] at this
          · simp at this
          · intro d hd
            rcases List.mem_cons.mp hd with rfl | hd
            · exact hlt
            · exact String.lt_trans hlt (hb'.1 d hd)
      subst first
      have second : v = w := by simpa [lookup_cons] using h i
      have rest : bs = cs := ih hb'.2 cs hc'.2 fun k => by
        by_cases hk : k = i
        · rw [hk, absent hb'.1, absent hc'.1]
        · simpa [lookup_cons, hk] using h k
      rw [second, rest]

instance [DecidableEq α] : DecidableEq (NameMap α) := fun m n =>
  if h : m.bindings = n.bindings then
    isTrue (by cases m; cases n; simp_all)
  else isFalse fun e => h (congrArg bindings e)

end NameMap

/-- A finite set of names, listed in ascending order. -/
abbrev NameSet := NameMap Unit

namespace NameSet

def ofNames (ks : List String) : NameSet := NameMap.ofList (ks.map fun k => (k, ()))

def add (s : NameSet) (k : String) : NameSet := s.insert k ()

theorem contains_foldl_insert (ks : List String) (s : NameSet) (k : String) :
    ((ks.map fun k => (k, ())).foldl (fun m b => m.insert b.1 b.2) s).contains k = true ↔
      k ∈ ks ∨ s.contains k = true := by
  induction ks generalizing s with
  | nil => simp
  | cons i ks ih =>
    rw [List.map_cons, List.foldl_cons, ih, NameMap.contains_insert, List.mem_cons]
    simp only [Bool.or_eq_true, decide_eq_true_eq]
    rw [or_left_comm, or_assoc]

theorem contains_ofNames (ks : List String) (k : String) :
    (ofNames ks).contains k = true ↔ k ∈ ks := by
  rw [ofNames, NameMap.ofList, contains_foldl_insert]
  simp [NameMap.contains]

end NameSet
end TripleStore
