import Mathlib.Data.List.Basic

/-!
# Counting loops

The body of a counting loop may fault, and a loop ends where it does.
-/
namespace Kvx.Lib

variable {σ : Type} {body : ℕ → σ → Option σ}

/-- The body for every index below `n`. -/
def countTo (n : ℕ) (body : ℕ → σ → Option σ) (s : σ) : Option σ :=
  (List.range n).foldlM (fun s i => body i s) s

theorem countTo_succ (n : ℕ) (s : σ) :
    countTo (n + 1) body s = (countTo n body s).bind (body n) := by
  simp only [countTo, List.range_succ, List.foldlM_append, List.foldlM_cons, List.foldlM_nil,
    Option.bind_eq_bind, Option.pure_def, Option.bind_fun_some]

theorem countTo_inv {P : ℕ → σ → Prop} {n : ℕ} {s : σ} (hstart : P 0 s)
    (hbody : ∀ i < n, ∀ s, P i s → ∃ s', body i s = some s' ∧ P (i + 1) s') :
    ∃ s', countTo n body s = some s' ∧ P n s' := by
  induction n with
  | zero => exact ⟨s, rfl, hstart⟩
  | succ n ih =>
    obtain ⟨s₁, hrun, h₁⟩ := ih fun i hi => hbody i (Nat.lt_succ_of_lt hi)
    obtain ⟨s₂, hstep, h₂⟩ := hbody n (Nat.lt_succ_self n) s₁ h₁
    exact ⟨s₂, by rw [countTo_succ, hrun, Option.bind_some, hstep], h₂⟩

theorem countTo_fixed {n : ℕ} {s : σ} (hbody : ∀ i < n, body i s = some s) :
    countTo n body s = some s := by
  obtain ⟨s', hrun, rfl⟩ := countTo_inv (P := fun _ s' => s = s') rfl fun i hi s' hs =>
    ⟨s', hs ▸ hbody i hi, hs⟩
  exact hrun

end Kvx.Lib
