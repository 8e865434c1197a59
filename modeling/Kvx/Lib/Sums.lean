import Mathlib

/-!
# Sums in which one term changes

A container that holds a bag in each of its cells holds the sum of those bags.
Writing one cell exchanges one term of that sum.
-/
namespace Kvx.Lib

variable {α ι M : Type*}

theorem sum_exchange [Fintype ι] [DecidableEq ι] [AddCommMonoid M] {f g : ι → M} {i : ι}
    (h : ∀ j, j ≠ i → g j = f j) : ∑ j, g j + f i = ∑ j, f j + g i := by
  have hf := Finset.add_sum_erase Finset.univ f (Finset.mem_univ i)
  have hg := Finset.add_sum_erase Finset.univ g (Finset.mem_univ i)
  have he : ∑ j ∈ Finset.univ.erase i, g j = ∑ j ∈ Finset.univ.erase i, f j :=
    Finset.sum_congr rfl fun j hj => h j (Finset.ne_of_mem_erase hj)
  rw [← hf, ← hg, he]
  abel

theorem sum_map_set [AddCommMonoid M] (f : α → M) {l : List α} {n : ℕ} {y : α} (x : α)
    (h : l[n]? = some y) : ((l.set n x).map f).sum + f y = (l.map f).sum + f x := by
  induction l generalizing n with
  | nil => simp at h
  | cons a l ih =>
    cases n with
    | zero =>
      simp only [List.getElem?_cons_zero, Option.some.injEq] at h
      subst h
      simp only [List.set_cons_zero, List.map_cons, List.sum_cons]
      abel
    | succ n =>
      have hi := ih (n := n) (by simpa using h)
      simp only [List.set_cons_succ, List.map_cons, List.sum_cons, add_assoc, hi]

theorem le_sum_map (f : α → Multiset ι) {l : List α} {a : α} (h : a ∈ l) :
    f a ≤ (l.map f).sum := by
  obtain ⟨s, t, rfl⟩ := List.append_of_mem h
  simp only [List.map_append, List.map_cons, List.sum_append, List.sum_cons]
  exact (Multiset.le_add_right _ _).trans (Multiset.le_add_left _ _)

theorem mem_sum_map {f : α → Multiset ι} {l : List α} {p : ι} :
    p ∈ (l.map f).sum ↔ ∃ a ∈ l, p ∈ f a := by
  induction l with
  | nil => simp
  | cons a l ih => simp [ih]

/-- The bags at two positions of a list are parts of the sum that do not overlap. -/
theorem pair_le_sum_map (f : α → Multiset ι) {l : List α} {i j : ℕ} {a b : α} (hne : i ≠ j)
    (ha : l[i]? = some a) (hb : l[j]? = some b) : f a + f b ≤ (l.map f).sum := by
  induction l generalizing i j with
  | nil => simp at ha
  | cons c l ih =>
    rw [List.map_cons, List.sum_cons]
    cases i with
    | zero =>
      cases j with
      | zero => exact absurd rfl hne
      | succ j =>
        rw [List.getElem?_cons_zero, Option.some.injEq] at ha
        rw [List.getElem?_cons_succ] at hb
        exact ha ▸ add_le_add le_rfl (le_sum_map f (List.mem_of_getElem? hb))
    | succ i =>
      rw [List.getElem?_cons_succ] at ha
      cases j with
      | zero =>
        rw [List.getElem?_cons_zero, Option.some.injEq] at hb
        rw [add_comm]
        exact hb ▸ add_le_add le_rfl (le_sum_map f (List.mem_of_getElem? ha))
      | succ j =>
        rw [List.getElem?_cons_succ] at hb
        exact (ih (fun he => hne (congrArg Nat.succ he)) ha hb).trans (Multiset.le_add_left _ _)

theorem pair_le_sum [Fintype α] [DecidableEq α] (f : α → Multiset ι) {i j : α} (hne : i ≠ j) :
    f i + f j ≤ ∑ k, f k := by
  rw [← Finset.sum_pair hne]
  exact Finset.sum_le_sum_of_subset (Finset.subset_univ _)

theorem countP_mem_cons [DecidableEq ι] (f : α → ι) (l : List α) {i : ι} {is : List ι}
    (hi : i ∉ is) : l.countP (fun a => f a ∈ i :: is) =
      l.countP (fun a => f a = i) + l.countP fun a => f a ∈ is := by
  induction l with
  | nil => rfl
  | cons a l ih =>
    rw [List.countP_cons, List.countP_cons, List.countP_cons, ih]
    simp only [List.mem_cons, decide_eq_true_eq]
    by_cases ha : f a = i
    · simp only [ha, hi, true_or, if_true, if_false]
      omega
    · simp only [ha, false_or, if_false]
      omega

/-- The elements that `f` sends into a list without duplicates, counted image by image. -/
theorem countP_mem_eq_sum [DecidableEq ι] (f : α → ι) (l : List α) {is : List ι}
    (hnd : is.Nodup) :
    l.countP (fun a => f a ∈ is) = (is.map fun i => l.countP fun a => f a = i).sum := by
  induction is with
  | nil => simp
  | cons i is ih =>
    obtain ⟨hi, hnd⟩ := List.nodup_cons.mp hnd
    rw [countP_mem_cons f l hi, ih hnd, List.map_cons, List.sum_cons]

end Kvx.Lib
