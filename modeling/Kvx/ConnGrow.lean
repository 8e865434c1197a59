import Mathlib.Algebra.Group.Nat.Defs
import Kvx.ConnBuffer

/-!
# The sizes of a growing buffer

`buffer_grow` once more, with the results of its `size_t` arithmetic checked and the rounds of its
loop counted.
-/
namespace Kvx.Net

/-- `SIZE_MAX` -/
def sizeTMax : ℕ := 2 ^ 64 - 1

/-- Each of these is `none` if the result is not a `size_t`. -/
def checkedAdd (m n : ℕ) : Option ℕ := if m + n ≤ sizeTMax then some (m + n) else none
def checkedSub (m n : ℕ) : Option ℕ := if n ≤ m then some (m - n) else none
def checkedMul (m n : ℕ) : Option ℕ := if m * n ≤ sizeTMax then some (m * n) else none

/-- The `while` loop of `buffer_grow`. `none`: it is not left within so many rounds. -/
def growCapSized (maxBufferSize minCap : ℕ) : ℕ → ℕ → Option ℕ
  | 0, _ => none
  | rounds + 1, newCap =>
      if newCap < minCap then
        if newCap > maxBufferSize / 2 then some maxBufferSize
        else do
          let newCap ← checkedMul newCap 2
          growCapSized maxBufferSize minCap rounds newCap
      else some newCap

/-- `buffer_grow`, with a bound for the rounds of its loop. -/
def bufferGrowSized (rounds maxBufferSize : ℕ) (realloc : Realloc) (buf : List UInt8)
    (cap extra : ℕ) : Option (Except Errno (List UInt8 × ℕ)) := do
  let room ← checkedSub maxBufferSize cap
  if extra > room then some (.error .enobufs)
  else if extra = 0 then some (.ok (buf, cap))
  else do
    let minCap ← checkedAdd cap extra
    let newCap ← growCapSized maxBufferSize minCap rounds
      (if cap ≠ 0 then cap else connDefaultBufCap)
    match realloc newCap with
    | none => some (.error .enomem)
    | some fill => some (.ok (resize buf newCap fill, newCap))

variable {M cap extra : ℕ}

/-- A round doubles the capacity, so one of the rounds finds it above half the limit. -/
theorem growCapSized_spec {minCap rounds newCap : ℕ} (hmax : M ≤ sizeTMax) (hmin : minCap ≤ M)
    (hnew : newCap ≤ M) (hrounds : M < newCap * 2 ^ rounds) :
    ∃ final, growCapSized M minCap rounds newCap = some final ∧ minCap ≤ final ∧ newCap ≤ final ∧
      final ≤ M := by
  induction rounds generalizing newCap with
  | zero =>
    rw [pow_zero, mul_one] at hrounds
    omega
  | succ rounds ih =>
    unfold growCapSized
    by_cases hlt : newCap < minCap
    · rw [if_pos hlt]
      by_cases hhalf : newCap > M / 2
      · rw [if_pos hhalf]
        exact ⟨M, rfl, hmin, hnew, le_refl M⟩
      · have hdouble : newCap * 2 ≤ M := by omega
        have hnext : M < newCap * 2 * 2 ^ rounds := by
          rwa [pow_succ, Nat.mul_comm (2 ^ rounds), ← Nat.mul_assoc] at hrounds
        obtain ⟨final, hrun, hge, hmore, hle⟩ := ih hdouble hnext
        refine ⟨final, ?_, hge, by omega, hle⟩
        rw [if_neg hhalf, checkedMul, if_pos (hdouble.trans hmax)]
        exact hrun
    · rw [if_neg hlt]
      exact ⟨newCap, rfl, not_lt.mp hlt, le_refl newCap, hnew⟩

/-- `newCap` is a capacity that `buffer_grow` may ask `realloc` for. -/
structure GrownCap (M cap extra newCap : ℕ) : Prop where
  enough : cap + extra ≤ newCap
  limit : newCap ≤ M
  larger : 0 < extra → cap < newCap
  start : cap = 0 → 0 < extra → extra ≤ 4096 → newCap = 4096

theorem growCap_of_sized {minCap rounds fuel newCap final : ℕ} (hpos : 0 < newCap)
    (hfuel : minCap ≤ newCap + fuel) (h : growCapSized M minCap rounds newCap = some final) :
    growCap M minCap fuel newCap = final := by
  induction rounds generalizing fuel newCap with
  | zero => cases h
  | succ rounds ih =>
    unfold growCapSized at h
    by_cases hlt : newCap < minCap
    · rw [if_pos hlt] at h
      cases fuel with
      | zero => omega
      | succ fuel =>
        rw [growCap, if_pos hlt]
        by_cases hhalf : newCap > M / 2
        · rw [if_pos hhalf] at h
          rw [if_pos hhalf, Option.some.inj h]
        · rw [if_neg hhalf] at h
          rw [if_neg hhalf]
          obtain ⟨double, hdouble, h⟩ := Option.bind_eq_some_iff.mp h
          rw [checkedMul] at hdouble
          split_ifs at hdouble
          obtain rfl := Option.some.inj hdouble
          exact ih (by omega) (by omega) h
    · rw [if_neg hlt] at h
      obtain rfl := Option.some.inj h
      cases fuel with
      | zero => rfl
      | succ fuel => rw [growCap, if_neg hlt]

theorem bufferGrowSized_large {rounds : ℕ} (realloc : Realloc) (buf : List UInt8) (hcap : cap ≤ M)
    (hlarge : M < cap + extra) :
    bufferGrowSized rounds M realloc buf cap extra = some (.error .enobufs) := by
  unfold bufferGrowSized
  rw [checkedSub, if_pos hcap, Option.bind_eq_bind, Option.bind_some, if_pos (by omega)]

def startCap (cap : ℕ) : ℕ := if cap ≠ 0 then cap else connDefaultBufCap

theorem growCapSized_enough {minCap rounds newCap : ℕ} (h : minCap ≤ newCap) :
    growCapSized M minCap (rounds + 1) newCap = some newCap := by
  rw [growCapSized, if_neg (not_lt.mpr h)]

theorem growCapSized_start (hmin : connDefaultBufCap ≤ M) (hmax : M ≤ sizeTMax)
    (hfits : cap + extra ≤ M) :
    ∃ newCap, growCapSized M (cap + extra) 64 (startCap cap) = some newCap ∧
      GrownCap M cap extra newCap := by
  have hdefault : connDefaultBufCap = 4096 := rfl
  obtain ⟨hpos, hle⟩ : 0 < startCap cap ∧ startCap cap ≤ M := by
    unfold startCap
    split_ifs with hcap <;> omega
  have hrounds : M < startCap cap * 2 ^ 64 :=
    calc
      M < 2 ^ 64 := Nat.lt_of_le_of_lt hmax (by decide)
      _ ≤ startCap cap * 2 ^ 64 := Nat.le_mul_of_pos_left _ hpos
  obtain ⟨newCap, hrun, henough, -, hlimit⟩ := growCapSized_spec hmax hfits hle hrounds
  refine ⟨newCap, hrun, henough, hlimit, fun _ => by omega, fun hcap _ hsmall => ?_⟩
  subst hcap
  have hstart : startCap 0 = 4096 := rfl
  rw [hstart, growCapSized_enough (by omega)] at hrun
  exact (Option.some.inj hrun).symm

theorem bufferGrowSized_fits (realloc : Realloc) (buf : List UInt8) (hmin : connDefaultBufCap ≤ M)
    (hmax : M ≤ sizeTMax) (hfits : cap + extra ≤ M) :
    ∃ newCap, GrownCap M cap extra newCap ∧
      bufferGrowSized 64 M realloc buf cap extra = some (
        if extra = 0 then .ok (buf, cap)
        else match realloc newCap with
          | none => .error .enomem
          | some fill => .ok (resize buf newCap fill, newCap)) := by
  have hroom : ¬ extra > M - cap := by omega
  unfold bufferGrowSized
  rw [checkedSub, if_pos (by omega), Option.bind_eq_bind, Option.bind_some, if_neg hroom]
  by_cases hextra : extra = 0
  · refine ⟨cap, ⟨by omega, by omega, by omega, by omega⟩, ?_⟩
    rw [if_pos hextra, if_pos hextra]
  · obtain ⟨newCap, hrun, hgrown⟩ := growCapSized_start hmin hmax hfits
    rw [startCap] at hrun
    refine ⟨newCap, hgrown, ?_⟩
    rw [if_neg hextra, if_neg hextra, checkedAdd, if_pos (hfits.trans hmax)]
    simp only [Option.bind_some, hrun]
    cases realloc newCap with
    | none => rfl
    | some fill => rfl

theorem bufferGrowSized_eq (realloc : Realloc) (buf : List UInt8) (hmin : connDefaultBufCap ≤ M)
    (hmax : M ≤ sizeTMax) (hcap : cap ≤ M) (extra : ℕ) :
    bufferGrowSized 64 M realloc buf cap extra = some (bufferGrow M realloc buf cap extra) := by
  by_cases hroom : extra > M - cap
  · rw [bufferGrowSized_large realloc buf hcap (by omega), bufferGrow, if_pos hroom]
  · unfold bufferGrowSized bufferGrow
    rw [checkedSub, if_pos hcap, Option.bind_eq_bind, Option.bind_some, if_neg hroom, if_neg hroom]
    by_cases hextra : extra = 0
    · rw [if_pos hextra, if_pos hextra]
    · have hfits : cap + extra ≤ M := by omega
      obtain ⟨newCap, hrun, -⟩ := growCapSized_start hmin hmax hfits
      have hpos : 0 < startCap cap := by
        have hdefault : 0 < connDefaultBufCap := by decide
        unfold startCap
        split_ifs with hzero <;> omega
      have hloop := growCap_of_sized hpos (Nat.le_add_left (cap + extra) _) hrun
      rw [startCap] at hrun hloop
      rw [if_neg hextra, if_neg hextra, checkedAdd, if_pos (hfits.trans hmax)]
      simp only [Option.bind_some, hrun, hloop]
      cases realloc newCap with
      | none => rfl
      | some fill => rfl

/-- Within 64 rounds and without a wrapped result the call refuses what is above the limit, and
otherwise it asks for enough. -/
theorem bufferGrow_exact (realloc : Realloc) (buf : List UInt8) (hmin : connDefaultBufCap ≤ M)
    (hmax : M ≤ sizeTMax) (hcap : cap ≤ M) (extra : ℕ) :
    bufferGrowSized 64 M realloc buf cap extra = some (bufferGrow M realloc buf cap extra) ∧
      (bufferGrow M realloc buf cap extra = .error .enobufs ↔ M < cap + extra) ∧
      (cap + extra ≤ M → ∃ newCap, GrownCap M cap extra newCap ∧
        bufferGrow M realloc buf cap extra =
          if extra = 0 then .ok (buf, cap)
          else match realloc newCap with
            | none => .error .enomem
            | some fill => .ok (resize buf newCap fill, newCap)) := by
  have hsame := bufferGrowSized_eq realloc buf hmin hmax hcap extra
  have hfits : cap + extra ≤ M → ∃ newCap, GrownCap M cap extra newCap ∧
      bufferGrow M realloc buf cap extra =
        if extra = 0 then .ok (buf, cap)
        else match realloc newCap with
          | none => .error .enomem
          | some fill => .ok (resize buf newCap fill, newCap) := by
    intro hroom
    obtain ⟨newCap, hgrown, hrun⟩ := bufferGrowSized_fits realloc buf hmin hmax hroom
    exact ⟨newCap, hgrown, Option.some.inj (hsame.symm.trans hrun)⟩
  refine ⟨hsame, ⟨fun hrefused => ?_, fun hlarge => ?_⟩, hfits⟩
  · by_contra hroom
    obtain ⟨newCap, -, hrun⟩ := hfits (not_lt.mp hroom)
    rw [hrun] at hrefused
    split_ifs at hrefused with hextra
    cases hrealloc : realloc newCap with
    | none =>
      rw [hrealloc] at hrefused
      cases hrefused
    | some fill =>
      rw [hrealloc] at hrefused
      cases hrefused
  · exact Option.some.inj (hsame.symm.trans (bufferGrowSized_large realloc buf hcap hlarge))

/-- From 2^63 to an odd limit near `SIZE_MAX` -/
theorem bufferGrow_exact_odd :
    ∃ newCap, GrownCap (2 ^ 64 - 3) (2 ^ 63) 1 newCap ∧
      bufferGrowSized 64 (2 ^ 64 - 3) (fun _ => some fun _ => 0) [] (2 ^ 63) 1 =
        some (.ok (resize [] newCap fun _ => 0, newCap)) := by
  obtain ⟨hsame, -, hfits⟩ := bufferGrow_exact (fun _ => some fun _ => 0) []
    (show connDefaultBufCap ≤ 2 ^ 64 - 3 by decide) (by decide)
    (show 2 ^ 63 ≤ 2 ^ 64 - 3 by decide) 1
  obtain ⟨newCap, hgrown, hrun⟩ := hfits (by decide)
  exact ⟨newCap, hgrown, hsame.trans (congrArg some hrun)⟩

end Kvx.Net
