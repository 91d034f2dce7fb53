import Mathlib.Data.List.Nodup
import Mathlib.Data.List.Perm.Basic

/-! # First occurrences

`List.eraseDups` keeps of each element the first occurrence: the result has no duplicates, the same
members, and the order in which these first occur. -/
namespace TripleStore.FirstOccurrences
variable {α β : Type} [BEq α]

/-- Induction along `List.eraseDups`, which goes on with a list without the element it has kept. -/
theorem eraseDups_induction {P : List α → Prop} (nil : P [])
    (cons : ∀ a as, P (as.filter fun b => !b == a) → P (a :: as)) (l : List α) : P l := by
  induction hn : l.length using Nat.strongRecOn generalizing l with
  | _ n ih =>
    cases l with
    | nil => exact nil
    | cons a as =>
      have hlt : (as.filter fun b => !b == a).length < n := by
        have := List.length_filter_le (fun b => !b == a) as
        simp only [List.length_cons] at hn
        omega
      exact cons a as (ih _ hlt _ rfl)

variable [LawfulBEq α]

theorem nodup_eraseDups (l : List α) : l.eraseDups.Nodup := by
  induction l using eraseDups_induction with
  | nil => simp
  | cons a as ih =>
    rw [List.eraseDups_cons]
    exact List.nodup_cons.mpr ⟨by simp, ih⟩

/-- Elements that a filter keeps occur in a list in the same order as in the filtered list. -/
theorem idxOf_lt_of_filter {p : α → Bool} {l : List α} {a b : α} (ha : p a = true) (hb : p b = true)
    (h : (l.filter p).idxOf a < (l.filter p).idxOf b) : l.idxOf a < l.idxOf b := by
  induction l with
  | nil => simp at h
  | cons c cs ih =>
    by_cases hc : p c = true
    · rw [List.filter_cons_of_pos hc] at h
      by_cases hca : c = a
      · subst hca
        by_cases hcb : c = b
        · simp [hcb] at h
        · simp [List.idxOf_cons_ne _ hcb]
      · by_cases hcb : c = b
        · simp [hcb] at h
        · rw [List.idxOf_cons_ne _ hca, List.idxOf_cons_ne _ hcb] at h ⊢
          exact Nat.succ_lt_succ (ih (Nat.lt_of_succ_lt_succ h))
    · rw [List.filter_cons_of_neg hc] at h
      have hca : c ≠ a := fun e => hc (e ▸ ha)
      have hcb : c ≠ b := fun e => hc (e ▸ hb)
      rw [List.idxOf_cons_ne _ hca, List.idxOf_cons_ne _ hcb]
      exact Nat.succ_lt_succ (ih h)

/-- What is found first in a list stands before everything else that might have been found. -/
theorem idxOf_lt_of_find? {p : α → Bool} {l : List α} {a b : α} (ha : l.find? p = some a) (hb : b ∈ l)
    (hp : p b = true) (hne : b ≠ a) : l.idxOf a < l.idxOf b := by
  induction l with
  | nil => simp at ha
  | cons c cs ih =>
    by_cases hc : p c = true
    · obtain rfl : c = a := by simpa [List.find?_cons_of_pos hc] using ha
      simp [List.idxOf_cons_ne _ hne.symm]
    · rw [List.find?_cons_of_neg hc] at ha
      have hca : c ≠ a := fun e => hc (e ▸ List.find?_some ha)
      have hcb : c ≠ b := fun e => hc (e ▸ hp)
      rw [List.idxOf_cons_ne _ hca, List.idxOf_cons_ne _ hcb]
      exact Nat.succ_lt_succ (ih ha ((List.mem_cons.mp hb).resolve_left hcb.symm))

/-- The kept elements stand in the order of their first occurrences. -/
theorem pairwise_idxOf_eraseDups (l : List α) :
    l.eraseDups.Pairwise fun a b => l.idxOf a < l.idxOf b := by
  induction l using eraseDups_induction with
  | nil => simp
  | cons a as ih =>
    rw [List.eraseDups_cons]
    have kept {b : α} (hb : b ∈ (as.filter fun b => !b == a).eraseDups) : b ≠ a := by
      simpa using (List.mem_filter.mp (List.mem_eraseDups.mp hb)).2
    refine List.pairwise_cons.mpr ⟨fun b hb => ?_, ?_⟩
    · simp [List.idxOf_cons_ne _ (kept hb).symm]
    · refine ih.imp_of_mem fun {b c} hb hc h => ?_
      rw [List.idxOf_cons_ne _ (kept hb).symm, List.idxOf_cons_ne _ (kept hc).symm]
      exact Nat.succ_lt_succ (idxOf_lt_of_filter (by simpa using kept hb) (by simpa using kept hc) h)

theorem eraseDups_of_nodup {l : List α} (h : l.Nodup) : l.eraseDups = l := by
  induction l with
  | nil => rfl
  | cons a as ih =>
    obtain ⟨ha, hn⟩ := List.nodup_cons.mp h
    have others : (as.filter fun b => !b == a) = as :=
      List.filter_eq_self.mpr fun b hb => by simpa using fun e : b = a => ha (e ▸ hb)
    rw [List.eraseDups_cons, others, ih hn]

theorem pairwise_idxOf_of_nodup {l : List α} (h : l.Nodup) :
    l.Pairwise fun a b => l.idxOf a < l.idxOf b := by
  have kept := pairwise_idxOf_eraseDups l
  rwa [eraseDups_of_nodup h] at kept

theorem eraseDups_map [BEq β] [LawfulBEq β] {f : α → β} (hf : Function.Injective f) (l : List α) :
    (l.map f).eraseDups = l.eraseDups.map f := by
  induction l using eraseDups_induction with
  | nil => rfl
  | cons a as ih =>
    have others : (as.map f).filter (fun b => !b == f a) = (as.filter fun b => !b == a).map f := by
      rw [List.filter_map]
      congr 1
      exact List.filter_congr fun b _ => congrArg Bool.not hf.beq_eq
    rw [List.map_cons, List.eraseDups_cons, List.eraseDups_cons, List.map_cons, others, ih]

omit [BEq α] [LawfulBEq α]

/-- What is selected from a list stands in the order of the elements from which it is first selected. -/
theorem findIdx_lt_of_filterMap [BEq β] [LawfulBEq β] [DecidableEq (Option β)] {f : α → Option β}
    {l : List α} {b c : β}
    (h : (l.filterMap f).idxOf b < (l.filterMap f).idxOf c) :
    l.findIdx (fun a => f a = some b) < l.findIdx fun a => f a = some c := by
  induction l with
  | nil => simp at h
  | cons a as ih =>
    cases hf : f a with
    | none =>
      rw [List.filterMap_cons_none hf] at h
      simpa [List.findIdx_cons, hf] using ih h
    | some d =>
      rw [List.filterMap_cons_some hf] at h
      by_cases hb : d = b
      · have hc : d ≠ c := fun hc => by simp [← hb, ← hc] at h
        simp [List.findIdx_cons, hf, hb, hb ▸ hc]
      · have hc : d ≠ c := fun hc => by simp [hc] at h
        rw [List.idxOf_cons_ne _ hb, List.idxOf_cons_ne _ hc] at h
        simpa [List.findIdx_cons, hf, hb, hc] using ih (Nat.lt_of_succ_lt_succ h)

/-- Grouping a list by a key only changes its order. -/
theorem flatMap_filter_perm [DecidableEq β] {f : α → β} {ks : List β} {l : List α} (hn : ks.Nodup)
    (h : ∀ a ∈ l, f a ∈ ks) : (ks.flatMap fun k => l.filter fun a => f a = k).Perm l := by
  induction ks generalizing l with
  | nil =>
    obtain rfl : l = [] := List.eq_nil_iff_forall_not_mem.mpr fun a ha => List.not_mem_nil (h a ha)
    exact .nil
  | cons k ks ih =>
    obtain ⟨hk, hks⟩ := List.nodup_cons.mp hn
    have others : (ks.flatMap fun k' => l.filter fun a => f a = k') =
        ks.flatMap fun k' => (l.filter fun a => !decide (f a = k)).filter fun a => f a = k' := by
      refine List.flatMap_congr fun k' hk' => ?_
      rw [List.filter_filter]
      refine List.filter_congr fun a _ => ?_
      by_cases ha : f a = k'
      · have hne : k' ≠ k := fun e => hk (e ▸ hk')
        simp [ha, hne]
      · simp [ha]
    rw [List.flatMap_cons, others]
    refine ((ih hks fun a ha => ?_).append_left _).trans (List.filter_append_perm (fun a => f a = k) l)
    obtain ⟨hl, hne⟩ := List.mem_filter.mp ha
    exact (List.mem_cons.mp (h a hl)).resolve_left (by simpa using hne)

theorem groupBy_perm [DecidableEq β] (f : α → β) (l : List α) :
    ((l.map f).eraseDups.flatMap fun k => l.filter fun a => f a = k).Perm l :=
  flatMap_filter_perm (nodup_eraseDups _) fun _ ha => List.mem_eraseDups.mpr (List.mem_map_of_mem ha)

end TripleStore.FirstOccurrences
