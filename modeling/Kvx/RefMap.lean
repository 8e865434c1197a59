import Kvx.Lib.Probing
import Mathlib.Data.Nat.Bitwise

/-!
# The reference map of the tests

The differential test compares the table with a map of its own: open addressing with tombstones and
FNV-1a. `none` is a loop or a recursion that does not end; there is none.
-/
namespace Kvx.Reference

open Kvx.Lib.Probing

variable {ι : Type}

/-- FNV-1a. -/
def refHash (key : List UInt8) : BitVec 64 :=
  key.foldl (fun h byte => (h ^^^ BitVec.ofNat 64 byte.toNat) * 1099511628211#64)
    1469598103934665603#64

/-- `ref_t`: the states 0, 1 and 2 of a slot are `empty`, `full` and `tomb`. -/
structure Ref (ι : Type) where
  cap : ℕ
  len : ℕ
  used : ℕ
  s : List (Slot (List UInt8) ι)
  deriving DecidableEq, Repr

def refInit (cap : ℕ) : Ref ι := ⟨cap, 0, 0, List.replicate cap .empty⟩

/-- The loop of `ref_set`, `ref_get` and `ref_del`. -/
def refProbe (r : Ref ι) (key : List UInt8) : Option Stop :=
  probe r.s key r.cap ((refHash key).toNat &&& (r.cap - 1)) none

/-- What `ref_set` does once there is room. -/
def refPut (r : Ref ι) (key : List UInt8) (val : ι) : Option (Ref ι) := do
  let stop ← refProbe r key
  match r.s[stop.idx]?, stop.tomb with
  | some .empty, some tomb => some { r with
      s := r.s.set tomb (.full key val)
      len := r.len + 1 }
  | some .empty, none => some { r with
      s := r.s.set stop.idx (.full key val)
      used := r.used + 1
      len := r.len + 1 }
  | some (.full _ _), _ => some { r with s := r.s.set stop.idx (.full key val) }
  | _, _ => none

/-- `set` is `ref_set`, which calls `ref_grow` in turn. -/
def refGrow (set : Ref ι → List UInt8 → ι → Option (Ref ι)) (r : Ref ι) : Option (Ref ι) :=
  r.s.foldlM (fun bigger slot =>
    match slot with
    | .full key val => set bigger key val
    | _ => some bigger) (refInit (r.cap * 2))

/-- `depth` bounds the calls of `ref_grow` in each other. -/
def refSet : ℕ → Ref ι → List UInt8 → ι → Option (Ref ι)
  | 0, r, key, val => if r.cap < (r.used + 1) * 2 then none else refPut r key val
  | depth + 1, r, key, val => do
      let r ← if r.cap < (r.used + 1) * 2 then refGrow (refSet depth) r else some r
      refPut r key val

def refGet (r : Ref ι) (key : List UInt8) : Option (Option ι) := do
  let stop ← refProbe r key
  match r.s[stop.idx]? with
  | some .empty => some none
  | some (.full _ val) => some (some val)
  | _ => none

def refDel (r : Ref ι) (key : List UInt8) : Option (Ref ι) := do
  let stop ← refProbe r key
  match r.s[stop.idx]? with
  | some .empty => some r
  | some (.full _ _) => some { r with
      s := r.s.set stop.idx .tomb
      len := r.len - 1 }
  | _ => none

def refHome (key : List UInt8) : ℕ := (refHash key).toNat

/-- The array holds the map, and at most half of it is in use. -/
structure RefInv (r : Ref ι) (M : List UInt8 → Option ι) : Prop where
  cap : ∃ k, r.cap = 2 ^ (k + 1)
  length : r.s.length = r.cap
  ok : Ok refHome r.s
  holds : Holds r.s M
  used : r.used = r.s.countP Slot.used
  len : r.len = r.s.countP Slot.isFull
  load : r.used * 2 ≤ r.cap

variable {r : Ref ι} {M : List UInt8 → Option ι} {key : List UInt8}

theorem refInit_inv (k : ℕ) : RefInv (refInit (2 ^ (k + 1)) : Ref ι) fun _ => none := by
  obtain ⟨hok, hholds⟩ := ok_replicate (ν := ι) refHome (2 ^ (k + 1))
  exact {
    cap := ⟨k, rfl⟩
    length := List.length_replicate
    ok := hok
    holds := hholds
    used := by simp [refInit, List.countP_replicate, Slot.used]
    len := by simp [refInit, List.countP_replicate, Slot.isFull]
    load := Nat.zero_le _ }

theorem refProbe_stops (h : RefInv r M) (key : List UInt8) :
    ∃ stop, refProbe r key = some stop ∧ Stops r.s key (refHome key) stop := by
  obtain ⟨k, hk⟩ := h.cap
  have hempty : Slot.empty ∈ r.s := by
    by_contra hnone
    have hall : ∀ s ∈ r.s, s.used = true := by
      intro s hs
      cases s with
      | empty => exact absurd hs hnone
      | tomb => rfl
      | full k v => rfl
    have hcount := List.countP_eq_length.mpr hall
    have hload := h.load
    have hpos : 0 < 2 ^ (k + 1) := Nat.two_pow_pos _
    rw [h.used, hcount, h.length] at hload
    omega
  obtain ⟨stop, hprobe, hstop⟩ := probe_stops hempty key (refHome key)
  refine ⟨stop, ?_, hstop⟩
  rw [refProbe, ← hprobe, h.length, hk, Nat.and_two_pow_sub_one_eq_mod]
  rfl

theorem refGet_spec (h : RefInv r M) (key : List UInt8) : refGet r key = some (M key) := by
  obtain ⟨stop, hprobe, hstop⟩ := refProbe_stops h key
  simp only [refGet, hprobe, Option.bind_eq_bind, Option.bind_some]
  rcases hstop.slot with hempty | ⟨v, hfull⟩
  · simp only [hempty, h.holds.stop_empty h.ok hstop hempty]
  · simp only [hfull, h.holds.stop_full hfull]

theorem RefInv.write (h : RefInv r M) {t : ℕ} {old : Slot (List UInt8) ι} (ht : r.s[t]? = some old)
    (hreach : Reaches r.s (refHome key) t) (hold : ∀ k, old.key = some k → k = key)
    (hkey : ∀ (j : ℕ) v, r.s[j]? = some (.full key v) → j = t) (val : ι) {r' : Ref ι}
    (hs : r'.s = r.s.set t (.full key val)) (hcap : r'.cap = r.cap)
    (hused : r'.used = r.used + if old.used then 0 else 1)
    (hlen : r'.len + (if old.isFull then 1 else 0) = r.len + 1)
    (hload : r'.used * 2 ≤ r.cap) : RefInv r' (Function.update M key (some val)) where
  cap := hcap ▸ h.cap
  length := by rw [hs, List.length_set, h.length, hcap]
  ok := hs ▸ h.ok.write hreach hkey val
  holds := hs ▸ h.holds.write ht hold hkey val
  used := by rw [hused, h.used, hs, countP_set_used ht rfl]
  len := by
    have hcount := countP_set_full ht (.full key val)
    have hfull : (Slot.full key val).isFull = true := rfl
    rw [hfull, if_pos rfl, ← hs, ← h.len, ← hlen] at hcount
    omega
  load := hcap ▸ hload

theorem refPut_spec (h : RefInv r M) (key : List UInt8) (val : ι)
    (hroom : (r.used + 1) * 2 ≤ r.cap) :
    ∃ r', refPut r key val = some r' ∧ RefInv r' (Function.update M key (some val)) ∧
      r'.cap = r.cap ∧ r'.used ≤ r.used + 1 := by
  obtain ⟨stop, hprobe, hstop⟩ := refProbe_stops h key
  simp only [refPut, hprobe, Option.bind_eq_bind, Option.bind_some]
  have hload := h.load
  rcases hstop.slot with hempty | ⟨v, hfull⟩
  · -- the key is absent, and the first tombstone on the way is used again
    have habsent : ∀ (t j : ℕ) v, r.s[j]? = some (.full key v) → j = t := fun t j v hj =>
      absurd (mem_full hj) (h.ok.absent hstop hempty v)
    cases htomb : stop.tomb with
    | none =>
      simp only [hempty]
      refine ⟨_, rfl, h.write hempty hstop.reaches (by simp [Slot.key]) (habsent _) val rfl rfl rfl rfl
        ?_, rfl, le_rfl⟩
      dsimp only
      omega
    | some t =>
      simp only [hempty]
      obtain ⟨ht, hreach⟩ := hstop.tomb t htomb
      exact ⟨_, rfl, h.write ht hreach (by simp [Slot.key]) (habsent _) val rfl rfl rfl rfl
        (by dsimp only; omega), rfl, Nat.le_succ _⟩
  · simp only [hfull]
    have hkey : ∀ (j : ℕ) w, r.s[j]? = some (.full key w) → j = stop.idx := fun j w hj =>
      h.ok.inj j stop.idx key w v hj hfull
    exact ⟨_, rfl, h.write hfull hstop.reaches (by simp [Slot.key]) hkey val rfl rfl rfl rfl
      hload, rfl, Nat.le_succ _⟩

theorem refDel_spec (h : RefInv r M) (key : List UInt8) :
    ∃ r', refDel r key = some r' ∧ RefInv r' (Function.update M key none) := by
  obtain ⟨stop, hprobe, hstop⟩ := refProbe_stops h key
  simp only [refDel, hprobe, Option.bind_eq_bind, Option.bind_some]
  rcases hstop.slot with hempty | ⟨v, hfull⟩
  · simp only [hempty]
    have hnone := h.holds.stop_empty h.ok hstop hempty
    refine ⟨r, rfl, ?_⟩
    rw [Function.update_eq_self_iff.mpr hnone.symm]
    exact h
  · simp only [hfull]
    have hused := countP_set_used hfull (s := Slot.tomb) rfl
    have hcount := countP_set_full hfull Slot.tomb
    have hone : (Slot.full key v).isFull = true := rfl
    rw [hone, if_pos rfl] at hcount
    exact ⟨_, rfl, {
      cap := h.cap
      length := by rw [List.length_set, h.length]
      ok := h.ok.erase _
      holds := h.holds.erase h.ok hfull
      used := h.used.trans hused.symm
      len := by
        have hlen := h.len
        have hzero : (Slot.tomb : Slot (List UInt8) ι).isFull = false := rfl
        rw [hzero, if_neg Bool.false_ne_true, ← hlen] at hcount
        dsimp only
        omega
      load := h.load }⟩

/-- The entries go to an array with room for all of them, and no call of `ref_set` grows it. -/
theorem refGrow_fold {bigger : Ref ι} {M₀ : List UInt8 → Option ι} (slots : List (Slot (List UInt8) ι))
    (h : RefInv bigger M₀) (hroom : (bigger.used + slots.countP Slot.isFull) * 2 ≤ bigger.cap) :
    ∃ r', slots.foldlM (fun bigger slot =>
        match slot with
        | .full key val => refSet 0 bigger key val
        | _ => some bigger) bigger = some r' ∧
      RefInv r' (slots.foldl Slot.record M₀) ∧ r'.cap = bigger.cap ∧
      r'.used ≤ bigger.used + slots.countP Slot.isFull := by
  induction slots generalizing bigger M₀ with
  | nil => exact ⟨bigger, rfl, h, rfl, Nat.le_add_right _ _⟩
  | cons slot slots ih =>
    cases slot with
    | empty => exact ih h hroom
    | tomb => exact ih h hroom
    | full key val =>
      rw [List.countP_cons_of_pos rfl] at hroom ⊢
      obtain ⟨r₁, hput, h₁, hcap₁, hused₁⟩ := refPut_spec h key val (by omega)
      have hset : refSet 0 bigger key val = some r₁ := by
        rw [refSet, if_neg (by omega), hput]
      obtain ⟨r', hrest, h', hcap', hused'⟩ := ih h₁ (by omega)
      refine ⟨r', ?_, h', hcap'.trans hcap₁, by omega⟩
      rw [List.foldlM_cons]
      simp only [hset, Option.bind_eq_bind, Option.bind_some]
      exact hrest

theorem refGrow_spec (h : RefInv r M) : ∃ r', refGrow (refSet 0) r = some r' ∧ RefInv r' M ∧
    (r'.used + 1) * 2 ≤ r'.cap := by
  obtain ⟨k, hk⟩ := h.cap
  have hcap : r.cap * 2 = 2 ^ (k + 1 + 1) := by rw [hk, ← Nat.pow_succ]
  have hinit : RefInv (refInit (r.cap * 2) : Ref ι) fun _ => none := hcap ▸ refInit_inv (k + 1)
  have hfull : r.s.countP Slot.isFull ≤ r.used := by
    rw [h.used]
    refine List.countP_mono_left fun s _ hs => ?_
    cases s with
    | empty => exact hs
    | tomb => rfl
    | full k v => rfl
  have hload := h.load
  have hpos : 2 ≤ r.cap := by
    rw [hk, Nat.pow_succ]
    have := Nat.two_pow_pos k
    omega
  have hzero : (refInit (r.cap * 2) : Ref ι).used = 0 := rfl
  have hdouble : (refInit (r.cap * 2) : Ref ι).cap = r.cap * 2 := rfl
  obtain ⟨r', hrun, h', hcap', hused'⟩ := refGrow_fold r.s hinit (by omega)
  rw [h.holds.record h.ok] at h'
  exact ⟨r', hrun, h', by omega⟩

/-- One call of `ref_grow` makes room, so that `ref_set` always returns. -/
theorem refSet_spec (h : RefInv r M) (key : List UInt8) (val : ι) :
    ∃ r', refSet 1 r key val = some r' ∧ RefInv r' (Function.update M key (some val)) := by
  rw [refSet]
  split_ifs with hfull
  · obtain ⟨bigger, hgrow, hinv, hroom⟩ := refGrow_spec h
    obtain ⟨r', hput, h', -⟩ := refPut_spec hinv key val hroom
    exact ⟨r', by simp only [hgrow, Option.bind_eq_bind, Option.bind_some, hput], h'⟩
  · obtain ⟨r', hput, h', -⟩ := refPut_spec h key val (by omega)
    exact ⟨r', by simp only [Option.bind_eq_bind, Option.bind_some, hput], h'⟩

end Kvx.Reference
