import Mathlib.GroupTheory.Perm.List

/-!
# Arrays of indices

An array whose places hold a permutation of the places. Swapping each place, from the last one down,
with an earlier one makes a single cycle of all places out of the array in order.
-/
namespace Kvx.Lib

open Equiv

/-- The array holds at each of its places what `σ` makes of the place. -/
def IndexPerm (next : List ℕ) (σ : Perm ℕ) : Prop := ∀ x < next.length, next[x]? = some (σ x)

theorem indexPerm_range (n : ℕ) : IndexPerm (List.range n) 1 := by
  intro x hx
  rw [List.length_range] at hx
  rw [List.getElem?_range hx, Perm.one_apply]

theorem IndexPerm.swap {next : List ℕ} {σ : Perm ℕ} (h : IndexPerm next σ) {i j : ℕ}
    (hi : i < next.length) (hj : j < next.length) :
    IndexPerm ((next.set i (σ j)).set j (σ i)) (σ * Equiv.swap i j) := by
  intro x hx
  rw [List.length_set, List.length_set] at hx
  rw [Perm.mul_apply]
  by_cases hxj : x = j
  · subst hxj
    rw [List.getElem?_set_self (by simpa using hj), swap_apply_right]
  · rw [List.getElem?_set_ne (Ne.symm hxj)]
    by_cases hxi : x = i
    · subst hxi
      rw [List.getElem?_set_self hi, swap_apply_left]
    · rw [List.getElem?_set_ne (Ne.symm hxi), h x hx, swap_apply_of_ne_of_ne hxi hxj]

section Cycles

variable {α : Type} [DecidableEq α] {cycle : List α} {x y : α}

theorem exists_cycle_from (hcycle : cycle.Nodup) (hx : x ∈ cycle) :
    ∃ rest, (x :: rest).Perm cycle ∧ (x :: rest).formPerm = cycle.formPerm := by
  obtain ⟨before, after, rfl⟩ := List.append_of_mem hx
  refine ⟨after ++ before, ?_, ?_⟩
  · rw [← List.cons_append]
    exact List.perm_append_comm
  · have hrotate := List.formPerm_rotate _ hcycle before.length
    rwa [List.rotate_append_length_eq] at hrotate

theorem swap_mul_cycle (hcycle : cycle.Nodup) (hy : y ∈ cycle) :
    ∃ longer : List α, longer.Perm (x :: cycle) ∧
      longer.formPerm = Equiv.swap x y * cycle.formPerm := by
  obtain ⟨rest, hperm, hform⟩ := exists_cycle_from hcycle hy
  exact ⟨x :: y :: rest, hperm.cons x, by rw [List.formPerm_cons_cons, hform]⟩

theorem cycle_walk (hcycle : (x :: cycle).Nodup) (k : ℕ) :
    (x :: cycle)[k % (x :: cycle).length]? = some ((x :: cycle).formPerm^[k] x) := by
  rw [Perm.iterate_eq_pow, List.formPerm_pow_apply_head x cycle hcycle k]
  exact List.getElem?_eq_getElem _

end Cycles

end Kvx.Lib
