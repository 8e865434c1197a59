import Mathlib.Data.List.Basic
import Mathlib.Order.Nat

/-!
# Binary search for a lower bound

The elements of a list that are small stand before the others. The half-open search finds where
the others begin.
-/
namespace Kvx.Lib

variable {α : Type} {l : List α} {small : α → Bool} {left right : ℕ}

/-- The positions that the search reads, and the one where it ends. `none`: it reads outside of the
list. -/
def bisect (l : List α) (small : α → Bool) (left right : ℕ) : Option (List ℕ × ℕ) :=
  if left < right then
    let mid := left + (right - left) / 2
    match l[mid]? with
    | none => none
    | some a =>
        if small a then (bisect l small (mid + 1) right).map fun r => (mid :: r.1, r.2)
        else (bisect l small left mid).map fun r => (mid :: r.1, r.2)
  else some ([], left)
  termination_by right - left

theorem bisect_step (hlt : left < right) {a : α} (ha : l[left + (right - left) / 2]? = some a) :
    bisect l small left right =
      (if small a then bisect l small (left + (right - left) / 2 + 1) right
        else bisect l small left (left + (right - left) / 2)).map
          fun r => ((left + (right - left) / 2) :: r.1, r.2) := by
  rw [bisect, if_pos hlt]
  simp only [ha]
  split_ifs <;> rfl

/-- The elements before `left` are small, and those from `right` on are not. -/
structure Separates (l : List α) (small : α → Bool) (left right : ℕ) : Prop where
  le : left ≤ right
  within : right ≤ l.length
  below : ∀ i a, i < left → l[i]? = some a → small a = true
  above : ∀ i a, right ≤ i → l[i]? = some a → small a = false

/-- No small element stands behind one that is not. -/
def Ordered (l : List α) (small : α → Bool) : Prop :=
  l.Pairwise fun a b => small b = true → small a = true

theorem Ordered.get (h : Ordered l small) {i j : ℕ} {a b : α} (hij : i ≤ j) (ha : l[i]? = some a)
    (hb : l[j]? = some b) (hsmall : small b = true) : small a = true := by
  rcases Nat.eq_or_lt_of_le hij with rfl | hlt
  · rw [ha, Option.some.injEq] at hb
    rwa [hb]
  · obtain ⟨hi, rfl⟩ := List.getElem?_eq_some_iff.mp ha
    obtain ⟨hj, rfl⟩ := List.getElem?_eq_some_iff.mp hb
    exact List.pairwise_iff_getElem.mp h i j hi hj hlt hsmall

theorem Separates.whole (l : List α) (small : α → Bool) : Separates l small 0 l.length where
  le := Nat.zero_le _
  within := le_refl _
  below i _ hi _ := absurd hi (Nat.not_lt_zero i)
  above _ _ hi ha := absurd (List.getElem?_eq_some_iff.mp ha).1 (not_lt.mpr hi)

theorem Separates.step (h : Separates l small left right) (hl : Ordered l small) {mid : ℕ} {a : α}
    (hleft : left ≤ mid) (hright : mid < right) (ha : l[mid]? = some a) :
    if small a then Separates l small (mid + 1) right else Separates l small left mid := by
  split_ifs with hsmall
  · exact {
      le := hright
      within := h.within
      below := fun i b hi hb => hl.get (Nat.le_of_lt_succ hi) hb ha hsmall
      above := h.above }
  · exact {
      le := hleft
      within := hright.le.trans h.within
      below := h.below
      above := fun i b hi hb =>
        Bool.eq_false_iff.mpr fun hb' => hsmall (hl.get hi ha hb hb') }

/-- The search reads between its ends only, and ends where the small elements do. -/
theorem bisect_spec (hl : Ordered l small) (h : Separates l small left right) :
    ∃ probes idx, bisect l small left right = some (probes, idx) ∧
      (∀ i ∈ probes, left ≤ i ∧ i < right) ∧ Separates l small idx idx := by
  induction left, right using bisect.induct l small with
  | case1 left right hlt mid hnone =>
    have hmid : mid < l.length := by
      have hwithin := h.within
      omega
    rw [List.getElem?_eq_getElem hmid] at hnone
    cases hnone
  | case2 left right hlt mid a ha hsmall ih =>
    have hnext := h.step hl (by omega) (by omega) ha
    rw [if_pos hsmall] at hnext
    obtain ⟨probes, idx, hrun, hprobes, hidx⟩ := ih hnext
    refine ⟨mid :: probes, idx, ?_, List.forall_mem_cons.mpr ⟨by omega, fun i hi => ?_⟩, hidx⟩
    · rw [bisect_step hlt ha, if_pos hsmall, hrun]
      rfl
    · have hrange := hprobes i hi
      omega
  | case3 left right hlt mid a ha hsmall ih =>
    have hnext := h.step hl (by omega) (by omega) ha
    rw [if_neg hsmall] at hnext
    obtain ⟨probes, idx, hrun, hprobes, hidx⟩ := ih hnext
    refine ⟨mid :: probes, idx, ?_, List.forall_mem_cons.mpr ⟨by omega, fun i hi => ?_⟩, hidx⟩
    · rw [bisect_step hlt ha, if_neg hsmall, hrun]
      rfl
    · have hrange := hprobes i hi
      omega
  | case4 left right hge =>
    have hle := h.le
    obtain rfl : left = right := by omega
    refine ⟨[], left, ?_, by simp, h⟩
    rw [bisect, if_neg hge]

end Kvx.Lib
