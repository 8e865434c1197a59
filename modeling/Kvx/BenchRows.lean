import Kvx.Lib.CyclePerm
import Kvx.Lib.SplitMix
import Kvx.Pages

/-!
# The data of the benchmark of the store

Keys are random bytes. The value of each key starts with the key that a random cycle puts after it.
-/
namespace Kvx.KvBench

open Kvx.Lib

/-- Rows of one length, one after the other in a buffer. -/
structure Rows where
  data : List UInt8
  count : ℕ
  len : ℕ
  filled : data.length = count * len

def Rows.row (r : Rows) (i : ℕ) : List UInt8 := (r.data.drop (i * r.len)).take r.len

/-- `none`: the row lies outside of the buffer. -/
def rowAt (r : Rows) (i : ℕ) : Option (List UInt8) := if i < r.count then some (r.row i) else none

theorem rowAt_of_lt {r : Rows} {i : ℕ} (hi : i < r.count) : rowAt r i = some (r.row i) := if_pos hi

theorem Rows.length_row {r : Rows} {i : ℕ} (hi : i < r.count) : (r.row i).length = r.len := by
  have hend : i * r.len + r.len ≤ r.count * r.len := by
    rw [← Nat.succ_mul]
    exact Nat.mul_le_mul_right _ hi
  rw [row, List.length_take, List.length_drop, r.filled]
  omega

/-- The bytes of `count` keys, from the first word of the first one on. -/
def drawKeys (len : ℕ) : ℕ → BitVec 64 → List UInt8
  | 0, _ => []
  | count + 1, state =>
      let (state, key) := drawBytes len state
      key ++ drawKeys len count state

theorem length_drawKeys (len count : ℕ) (state : BitVec 64) :
    (drawKeys len count state).length = count * len := by
  induction count generalizing state with
  | zero => simp [drawKeys]
  | succ count ih =>
    simp only [drawKeys, List.length_append, length_drawBytes, ih]
    rw [Nat.succ_mul, Nat.add_comm]

def makeKeys (count len : ℕ) (seed : BitVec 64) : Rows :=
  ⟨drawKeys len count seed, count, len, length_drawKeys len count seed⟩

/-- Sattolo's swaps, with the places from `i` down to 1. -/
def makeCycleFrom : ℕ → BitVec 64 → List ℕ → Option (List ℕ)
  | 0, _, next => some next
  | i + 1, state, next => do
      let (state, r) := splitmix64 state
      let j := r.toNat % (i + 1)
      let tmp ← next[i + 1]?
      let other ← next[j]?
      makeCycleFrom i state ((next.set (i + 1) other).set j tmp)

def makeCycle (n : ℕ) (seed : BitVec 64) : Option (List ℕ) :=
  makeCycleFrom (Pages.sizeT (n + (2 ^ 64 - 1))) seed (List.range n)

theorem Rows.length_padded {r : Rows} {j len : ℕ} (h : j < r.count ∧ r.len ≤ len) (b : UInt8) :
    (r.row j ++ List.replicate (len - r.len) b).length = len := by
  rw [List.length_append, List.length_replicate, length_row h.1]
  omega

/-- Value `i` is filled; `none`: a row or a place of `next` lies outside of its buffer. -/
def fillValue (ks : Rows) (next : List ℕ) (len i : ℕ) : Option {v : List UInt8 // v.length = len} :=
  match next[i]? with
  | none => none
  | some j =>
      if h : j < ks.count ∧ ks.len ≤ len then
        some ⟨ks.row j ++ List.replicate (len - ks.len) (UInt8.ofNat i), Rows.length_padded h _⟩
      else none

/-- The values from `i` on. -/
def fillValues (ks : Rows) (next : List ℕ) (len : ℕ) :
    (left : ℕ) → ℕ → Option {data : List UInt8 // data.length = left * len}
  | 0, _ => some ⟨[], by simp⟩
  | left + 1, i => do
      let v ← fillValue ks next len i
      let rest ← fillValues ks next len left (i + 1)
      some ⟨v.1 ++ rest.1, by rw [List.length_append, v.2, rest.2, Nat.succ_mul, Nat.add_comm]⟩

def makeValues (ks : Rows) (next : List ℕ) (len : ℕ) : Option Rows :=
  (fillValues ks next len ks.count 0).map fun data => ⟨data.1, ks.count, len, data.2⟩

/-- The words that a key of `len` bytes takes. -/
def keyWords (len : ℕ) : ℕ := (len + 7) / 8

theorem drawKeys_row {len count i : ℕ} (hi : i < count) (state : BitVec 64) :
    ((drawKeys len count state).drop (i * len)).take len =
      (drawBytes len (state + ((i * keyWords len : ℕ) : BitVec 64) * splitStep)).2 := by
  induction count generalizing i state with
  | zero => exact absurd hi (Nat.not_lt_zero i)
  | succ count ih =>
    cases i with
    | zero =>
      rw [Nat.zero_mul, Nat.zero_mul, List.drop_zero, Nat.cast_zero, zero_mul, add_zero]
      exact List.take_left' (length_drawBytes len state)
    | succ i =>
      have hstate : (drawBytes len state).1 = state + (keyWords len : BitVec 64) * splitStep :=
        drawWords_state _ _
      simp only [drawKeys]
      rw [Nat.succ_mul, Nat.add_comm (i * len), ← List.drop_drop,
        List.drop_left' (length_drawBytes len state), ih (Nat.lt_of_succ_lt_succ hi), hstate,
        Nat.succ_mul, Nat.cast_add, add_mul, add_assoc, add_comm ((keyWords len : BitVec 64) * _)]

theorem makeKeys_row {count len i : ℕ} (hi : i < count) (seed : BitVec 64) :
    (makeKeys count len seed).row i =
      (drawBytes len (seed + ((i * keyWords len : ℕ) : BitVec 64) * splitStep)).2 :=
  drawKeys_row hi seed

/-- Rows that are equal start at draws which are as far apart as the seeds. -/
theorem makeKeys_rows_eq {count count' len i i' : ℕ} {seed seed' : BitVec 64} (hlen : 8 ≤ len)
    (hi : i < count) (hi' : i' < count')
    (h : (makeKeys count len seed).row i = (makeKeys count' len seed').row i') :
    (seed - seed') * splitBack =
      ((i' * keyWords len : ℕ) : BitVec 64) - ((i * keyWords len : ℕ) : BitVec 64) := by
  rw [makeKeys_row hi, makeKeys_row hi'] at h
  have hword := congrArg (List.take 8) h
  rw [take_drawBytes hlen, take_drawBytes hlen, wordBytes_inj, splitmix64_word_inj] at hword
  exact draws_apart hword

/-- The keys fit the widths that the index of an op and the length of a key have. -/
structure KeysOk (count len : ℕ) : Prop where
  count_le : count ≤ 0x7FFFFFFF
  len_ge : 8 ≤ len
  len_lt : len < 2 ^ 16

theorem KeysOk.draw_lt {count len i : ℕ} (h : KeysOk count len) (hi : i < count) :
    i * keyWords len < 2 ^ 45 := by
  have hwords : keyWords len ≤ 2 ^ 13 := by
    have := h.len_lt
    unfold keyWords
    omega
  have hindex : i < 2 ^ 31 := by
    have := h.count_le
    omega
  calc
    i * keyWords len ≤ i * 2 ^ 13 := Nat.mul_le_mul_left i hwords
    _ < 2 ^ 45 := by omega

theorem makeKeys_inj {count len i i' : ℕ} (h : KeysOk count len) (seed : BitVec 64)
    (hi : i < count) (hi' : i' < count)
    (heq : (makeKeys count len seed).row i = (makeKeys count len seed).row i') : i = i' := by
  have hapart := makeKeys_rows_eq h.len_ge hi hi' heq
  rw [sub_self, zero_mul, eq_comm, sub_eq_zero] at hapart
  have hdraw := h.draw_lt hi
  have hdraw' := h.draw_lt hi'
  have hsame : i' * keyWords len = i * keyWords len := by
    have hnat := congrArg BitVec.toNat hapart
    simp only [BitVec.natCast_eq_ofNat, BitVec.toNat_ofNat] at hnat
    omega
  have hwords : 0 < keyWords len := by
    have := h.len_ge
    unfold keyWords
    omega
  exact (Nat.eq_of_mul_eq_mul_right hwords hsame).symm

theorem makeKeys_disjoint {count len i i' : ℕ} {seed seed' : BitVec 64} (h : KeysOk count len)
    (hlow : 2 ^ 45 ≤ ((seed - seed') * splitBack).toNat)
    (hhigh : ((seed - seed') * splitBack).toNat ≤ 2 ^ 64 - 2 ^ 45)
    (hi : i < count) (hi' : i' < count) :
    (makeKeys count len seed).row i ≠ (makeKeys count len seed').row i' := by
  intro heq
  have hapart := makeKeys_rows_eq h.len_ge hi hi' heq
  have hdraw := h.draw_lt hi
  have hdraw' := h.draw_lt hi'
  have hnat := congrArg BitVec.toNat hapart
  simp only [BitVec.natCast_eq_ofNat, BitVec.toNat_sub, BitVec.toNat_ofNat] at hnat
  omega

theorem makeCycleFrom_spec {i : ℕ} {next : List ℕ} {σ : Equiv.Perm ℕ} (h : IndexPerm next σ)
    (hi : i < next.length) (state : BitVec 64) :
    ∃ (next' cycle : List ℕ), makeCycleFrom i state next = some next' ∧
      next'.length = next.length ∧ cycle.Perm (List.range (i + 1)) ∧
      IndexPerm next' (σ * cycle.formPerm) := by
  induction i generalizing next σ state with
  | zero => exact ⟨next, [0], rfl, rfl, List.Perm.refl _, by simpa using h⟩
  | succ i ih =>
    set j := (splitmix64 state).2.toNat % (i + 1) with hdraw
    have hj : j < i + 1 := Nat.mod_lt _ (Nat.succ_pos i)
    have hjlt : j < next.length := by omega
    obtain ⟨next', cycle, hrun, hlength, hcycle, hnext'⟩ :=
      ih (h.swap hi hjlt) (by simp only [List.length_set]; omega) (splitmix64 state).1
    -- The swap puts `i + 1` into the cycle of the places below.
    obtain ⟨longer, hlonger, hform⟩ :=
      swap_mul_cycle (x := i + 1) (hcycle.nodup_iff.mpr (List.nodup_range))
        (hcycle.mem_iff.mpr (List.mem_range.mpr hj))
    refine ⟨next', longer, ?_, by simpa using hlength, ?_, ?_⟩
    · simp only [makeCycleFrom, ← hdraw, h _ hi, h _ hjlt, Option.bind_eq_bind, Option.bind_some]
      exact hrun
    · refine hlonger.trans ((hcycle.cons _).trans ?_)
      rw [List.range_succ (n := i + 1)]
      exact (List.perm_append_singleton _ _).symm
    · rwa [hform, ← mul_assoc]

theorem makeCycle_spec {n : ℕ} (hn : 0 < n) (hword : n < 2 ^ 64) (seed : BitVec 64) :
    ∃ next rest, makeCycle n seed = some next ∧ next.length = n ∧
      (0 :: rest).Perm (List.range n) ∧ IndexPerm next (0 :: rest).formPerm := by
  have hlast : Pages.sizeT (n + (2 ^ 64 - 1)) = n - 1 := by
    unfold Pages.sizeT
    omega
  obtain ⟨next, cycle, hrun, hlength, hcycle, hnext⟩ :=
    makeCycleFrom_spec (indexPerm_range n) (i := n - 1) (by simp; omega) seed
  rw [Nat.sub_add_cancel hn] at hcycle
  rw [one_mul] at hnext
  obtain ⟨rest, hrest, hform⟩ := exists_cycle_from (hcycle.nodup_iff.mpr List.nodup_range)
    (hcycle.mem_iff.mpr (List.mem_range.mpr hn))
  refine ⟨next, rest, ?_, by simpa using hlength, hrest.trans hcycle, by rwa [hform]⟩
  rw [makeCycle, hlast]
  exact hrun

theorem fillValue_spec {ks : Rows} {next : List ℕ} {len i j : ℕ} (hnext : next[i]? = some j)
    (hj : j < ks.count) (hlen : ks.len ≤ len) :
    ∃ v, fillValue ks next len i = some v ∧
      v.1 = ks.row j ++ List.replicate (len - ks.len) (UInt8.ofNat i) := by
  unfold fillValue
  simp only [hnext, hj, hlen, true_and, dif_pos]
  exact ⟨_, rfl, rfl⟩

theorem fillValues_spec {ks : Rows} {next : List ℕ} {len : ℕ} (hlen : ks.len ≤ len) (left i : ℕ)
    (h : ∀ k < left, ∃ j < ks.count, next[i + k]? = some j) :
    ∃ data, fillValues ks next len left i = some data ∧ ∀ k < left, ∀ j, next[i + k]? = some j →
      (data.1.drop (k * len)).take len =
        ks.row j ++ List.replicate (len - ks.len) (UInt8.ofNat (i + k)) := by
  induction left generalizing i with
  | zero => exact ⟨_, rfl, fun k hk => absurd hk (Nat.not_lt_zero k)⟩
  | succ left ih =>
    obtain ⟨j₀, hj₀, hnext₀⟩ := h 0 (Nat.succ_pos left)
    rw [Nat.add_zero] at hnext₀
    obtain ⟨v, hv, hvalue⟩ := fillValue_spec hnext₀ hj₀ hlen
    have hshift (k : ℕ) : i + 1 + k = i + (k + 1) := by omega
    obtain ⟨rest, hrest, hrows⟩ := ih (i + 1) fun k hk => by
      rw [hshift]
      exact h (k + 1) (Nat.succ_lt_succ hk)
    have hlength : (v.1 ++ rest.1).length = (left + 1) * len := by
      rw [List.length_append, v.2, rest.2, Nat.succ_mul, Nat.add_comm]
    refine ⟨⟨v.1 ++ rest.1, hlength⟩, ?_, fun k hk j hj => ?_⟩
    · simp only [fillValues, hv, hrest, Option.bind_eq_bind, Option.bind_some]
    cases k with
    | zero =>
      rw [Nat.add_zero, hnext₀, Option.some.injEq] at hj
      rw [Nat.zero_mul, List.drop_zero, List.take_left' v.2, hvalue, hj, Nat.add_zero]
    | succ k =>
      rw [← hshift] at hj
      rw [Nat.succ_mul, Nat.add_comm (k * len), ← List.drop_drop, List.drop_left' v.2,
        hrows k (Nat.lt_of_succ_lt_succ hk) j hj, hshift]

/-- Value `i` starts with the key that comes after key `i`. -/
theorem makeValues_spec (ks : Rows) {next : List ℕ} {len : ℕ} (hlen : ks.len ≤ len)
    (hnext : ∀ i < ks.count, ∃ j < ks.count, next[i]? = some j) :
    ∃ vs, makeValues ks next len = some vs ∧ vs.count = ks.count ∧ vs.len = len ∧
      ∀ i < ks.count, ∀ j, next[i]? = some j →
        vs.row i = ks.row j ++ List.replicate (len - ks.len) (UInt8.ofNat i) := by
  obtain ⟨data, hrun, hrows⟩ := fillValues_spec hlen ks.count 0 fun k hk => by
    rw [Nat.zero_add]
    exact hnext k hk
  refine ⟨⟨data.1, ks.count, len, data.2⟩, ?_, rfl, rfl, fun i hi j hj => ?_⟩
  · rw [makeValues, hrun, Option.map_some]
  · have hrow := hrows i hi j (by rwa [Nat.zero_add])
    rw [Nat.zero_add] at hrow
    exact hrow

end Kvx.KvBench
