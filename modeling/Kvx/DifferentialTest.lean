import Kvx.Lib.SplitMix
import Kvx.RefMap
import Kvx.TableRun

/-!
# The differential test

`differential_stress` draws sets, lookups and deletes and makes each of them on the table and on the
reference map. Both hold the same map after every operation, so that the test finds no mismatch,
whatever it draws.
-/
namespace Kvx.Reference

open Kvx.Lib Kvx.Lib.Probing Kvx.Hashtable

variable {ι : Type}

inductive RefOp (ι : Type)
  | set (key : List UInt8) (val : ι)
  | get (key : List UInt8)
  | del (key : List UInt8)
  deriving DecidableEq, Repr

/-- The map after one call, and what `ref_get` returns. -/
def runRefOp (r : Ref ι) : RefOp ι → Option (Ref ι × Option ι)
  | .set key val => (refSet 1 r key val).map fun r => (r, none)
  | .get key => (refGet r key).map fun val => (r, val)
  | .del key => (refDel r key).map fun r => (r, none)

/-- The replies of a run, each with `len` after it. -/
def runRef : Ref ι → List (RefOp ι) → Option (List (Option ι × ℕ))
  | _, [] => some []
  | r, op :: ops => do
      let (r, reply) ← runRefOp r op
      let replies ← runRef r ops
      some ((reply, r.len) :: replies)

def mapRefOp (M : ItemMap ι) : RefOp ι → ItemMap ι
  | .set key val => Function.update M key (some val)
  | .get _ => M
  | .del key => Function.update M key none

def mapRefReply (M : ItemMap ι) : RefOp ι → Option ι
  | .get key => M key
  | _ => none

noncomputable def mapRef : ItemMap ι → List (RefOp ι) → List (Option ι × ℕ∞)
  | _, [] => []
  | M, op :: ops =>
      (mapRefReply M op, {k | mapRefOp M op k ≠ none}.encard) :: mapRef (mapRefOp M op) ops

theorem RefInv.len_eq {r : Ref ι} {M : ItemMap ι} (h : RefInv r M) :
    (r.len : ℕ∞) = {k | M k ≠ none}.encard := by
  rw [h.holds.encard h.ok, h.len]

theorem runRefOp_spec {r : Ref ι} {M : ItemMap ι} (h : RefInv r M) (op : RefOp ι) :
    ∃ r', runRefOp r op = some (r', mapRefReply M op) ∧ RefInv r' (mapRefOp M op) := by
  cases op with
  | set key val =>
    obtain ⟨r', hrun, h'⟩ := refSet_spec h key val
    exact ⟨r', by simp only [runRefOp, hrun, Option.map_some, mapRefReply], h'⟩
  | get key => exact ⟨r, by simp only [runRefOp, refGet_spec h, Option.map_some, mapRefReply], h⟩
  | del key =>
    obtain ⟨r', hrun, h'⟩ := refDel_spec h key
    exact ⟨r', by simp only [runRefOp, hrun, Option.map_some, mapRefReply], h'⟩

theorem runRef_spec {r : Ref ι} {M : ItemMap ι} (h : RefInv r M) (ops : List (RefOp ι)) :
    ∃ replies, runRef r ops = some replies ∧
      replies.map (fun reply => (reply.1, (reply.2 : ℕ∞))) = mapRef M ops := by
  induction ops generalizing r M with
  | nil => exact ⟨[], rfl, rfl⟩
  | cons op ops ih =>
    obtain ⟨r', hrun, h'⟩ := runRefOp_spec h op
    obtain ⟨replies, hrest, hmap⟩ := ih h'
    refine ⟨(mapRefReply M op, r'.len) :: replies, ?_, ?_⟩
    · simp only [runRef, hrun, hrest, Option.bind_eq_bind, Option.bind_some]
    · rw [List.map_cons, hmap, h'.len_eq]
      rfl

/-- From `ref_init` on every loop of the reference map ends, and it answers as a map does. -/
theorem ref_refines_map (k : ℕ) (ops : List (RefOp ι)) :
    ∃ replies, runRef (refInit (2 ^ (k + 1))) ops = some replies ∧
      replies.map (fun reply => (reply.1, (reply.2 : ℕ∞))) = mapRef (fun _ => none) ops :=
  runRef_spec (refInit_inv k) ops

def makeKey (i : ℕ) : List UInt8 :=
  (drawBytes (8 + i % 40) (0xC0FFEE00#64 + BitVec.ofNat 64 i)).2

/-- The items of the pool are numbered in the order in which they were made. -/
structure Stress where
  world : World ℕ
  ref : Ref ℕ
  state : BitVec 64
  count : ℕ := 0
  mismatches : ℕ := 0

def Stress.compare (s : Stress) (same : Bool) : Stress :=
  if same then s else { s with mismatches := s.mismatches + 1 }

/-- The body of the loop over the operations; `none` is a fault, such as a division by zero. -/
def stressStep (E : Env) (granted : Bool) (keySpace : ℕ) (s : Stress) : Option Stress := do
  let (state, roll) := splitmix64 s.state
  if keySpace = 0 then none
  let (state, draw) := splitmix64 state
  let key := makeKey (draw.toNat % keySpace)
  let s := { s with state := state }
  let s ←
    if roll.toNat % 10 ≤ 5 then do
      -- `make_item` comes before `hashtable_set`
      let item := s.count
      let keys := Function.update s.world.itemKey item key
      let (world, _) ← runOp E { s.world with itemKey := keys } (.set granted key item keys)
      let ref ← refSet 1 s.ref key item
      some { s with
        world := world
        ref := ref
        count := s.count + 1 }
    else if roll.toNat % 10 ≤ 8 then do
      let (_, a) ← runOp E s.world (.get key)
      let b ← refGet s.ref key
      some (s.compare (a.item == b))
    else do
      let (world, _) ← runOp E s.world (.delete key)
      let ref ← refDel s.ref key
      some { s with
        world := world
        ref := ref }
  some (s.compare (hashtableLen s.world.table == s.ref.len))

/-- `ops` operations are left; `granted` tells for each whether a new array can be mapped. -/
def stressLoop (E : Env) (granted : ℕ → Bool) (keySpace : ℕ) : ℕ → Stress → Option Stress
  | 0, s => some s
  | ops + 1, s =>
      if s.mismatches < 5 then do
        let s ← stressStep E (granted ops) keySpace s
        stressLoop E granted keySpace ops s
      else some s

/-- The keys from `i` on that the two maps do not agree on. -/
def sweepFrom (E : Env) (s : Stress) : ℕ → ℕ → ℕ → Option ℕ
  | 0, _, bad => some bad
  | left + 1, i, bad =>
      if bad < 5 then do
        let (_, a) ← runOp E s.world (.get (makeKey i))
        let b ← refGet s.ref (makeKey i)
        sweepFrom E s left (i + 1) (if a.item = b then bad else bad + 1)
      else some bad

/-- `mismatches` and `sweep_bad`. -/
def differentialStress (E : Env) (mapped : Bool) (leftover : ℕ) (granted : ℕ → Bool)
    (seed : BitVec 64) (ops keySpace : ℕ) : Option (ℕ × ℕ) := do
  let table ← hashtableInit E mapped leftover 64
  let s ← stressLoop E granted keySpace ops
    { world := ⟨table, fun _ => []⟩
      ref := refInit 1024
      state := seed }
  let sweepBad ← sweepFrom E s keySpace 0 0
  some (s.mismatches, sweepBad)

/-- Both maps hold `M`, and its items were made. -/
structure Agree (E : Env) (s : Stress) (M : ItemMap ℕ) : Prop where
  table : Refines E s.world M
  ref : RefInv s.ref M
  made : ∀ k item, M k = some item → item < s.count
  mismatches : s.mismatches = 0

variable {E : Env} {s : Stress} {M : ItemMap ℕ}

theorem Agree.compare_len (h : Agree E s M) :
    s.compare (hashtableLen s.world.table == s.ref.len) = s := by
  have hlen : (hashtableLen s.world.table : ℕ∞) = s.ref.len := h.table.len.trans h.ref.len_eq.symm
  have heq : hashtableLen s.world.table = s.ref.len := by exact_mod_cast hlen
  simp [Stress.compare, heq]

theorem Agree.makeItem (h : Agree E s M) (key : List UInt8) :
    Refines E { s.world with itemKey := Function.update s.world.itemKey s.count key } M := by
  have hsame : ∀ p ∈ s.world.table.bag,
      Function.update s.world.itemKey s.count key p = s.world.itemKey p := by
    intro p hp
    have hmade := h.made _ p (h.table.map.of_mem hp)
    exact Function.update_of_ne (Nat.ne_of_lt hmade) _ _
  exact ⟨h.table.inv.congr hsame, h.table.map.congr hsame⟩

theorem stressStep_agree (h : Agree E s M) (granted : Bool) {keySpace : ℕ} (hpos : keySpace ≠ 0) :
    ∃ s' M', stressStep E granted keySpace s = some s' ∧ Agree E s' M' := by
  unfold stressStep
  generalize splitmix64 s.state = first
  obtain ⟨state, roll⟩ := first
  dsimp only
  generalize splitmix64 state = second
  obtain ⟨state', draw⟩ := second
  dsimp only
  rw [if_neg hpos]
  generalize makeKey (draw.toNat % keySpace) = key
  have h' : Agree E { s with state := state' } M := ⟨h.table, h.ref, h.made, h.mismatches⟩
  split_ifs
  · -- a set
    have hmade := h'.makeItem key
    have hstores : Stores M (Function.update s.world.itemKey s.count key) (.set granted key s.count
        (Function.update s.world.itemKey s.count key)) :=
      ⟨Function.update_self _ _ _, fun k p _ _ => rfl⟩
    obtain ⟨w, out, hrun, -, href, -⟩ := set_refines hmade granted hstores
    obtain ⟨r, hset, hinv⟩ := refSet_spec h.ref key s.count
    have hagree : Agree E ⟨w, r, state', s.count + 1, s.mismatches⟩
        (Function.update M key (some s.count)) :=
      ⟨href, hinv, fun k item hk => by
        by_cases hkey : k = key
        · subst hkey
          rw [Function.update_self, Option.some.injEq] at hk
          exact hk ▸ Nat.lt_succ_self s.count
        · rw [Function.update_of_ne hkey] at hk
          exact Nat.lt_succ_of_lt (h.made k item hk), h.mismatches⟩
    refine ⟨_, _, ?_, hagree⟩
    simp only [hrun, hset, Option.bind_eq_bind, Option.bind_some, hagree.compare_len]
  · -- a lookup
    have hrun := get_refines h.table key
    have hget := refGet_spec h.ref key
    refine ⟨_, _, ?_, h'⟩
    simp only [hrun, hget, Option.bind_eq_bind, Option.bind_some, beq_self_eq_true]
    simp only [Stress.compare, if_true]
    exact congrArg some h'.compare_len
  · -- a delete
    obtain ⟨t, hrun, href⟩ := delete_refines h.table key
    obtain ⟨r, hdel, hinv⟩ := refDel_spec h.ref key
    have hagree : Agree E ⟨⟨t, s.world.itemKey⟩, r, state', s.count, s.mismatches⟩
        (Function.update M key none) :=
      ⟨href, hinv, fun k item hk => by
        by_cases hkey : k = key
        · subst hkey
          rw [Function.update_self] at hk
          cases hk
        · rw [Function.update_of_ne hkey] at hk
          exact h.made k item hk, h.mismatches⟩
    refine ⟨_, _, ?_, hagree⟩
    simp only [hrun, hdel, Option.bind_eq_bind, Option.bind_some, hagree.compare_len]

theorem stressLoop_agree (granted : ℕ → Bool) {keySpace : ℕ} (hpos : keySpace ≠ 0) (ops : ℕ)
    (h : Agree E s M) :
    ∃ s' M', stressLoop E granted keySpace ops s = some s' ∧ Agree E s' M' := by
  induction ops generalizing s M with
  | zero => exact ⟨s, M, rfl, h⟩
  | succ ops ih =>
    obtain ⟨s₁, M₁, hstep, h₁⟩ := stressStep_agree h (granted ops) hpos
    obtain ⟨s', M', hloop, h'⟩ := ih h₁
    refine ⟨s', M', ?_, h'⟩
    have hgoes : s.mismatches < 5 := by
      rw [h.mismatches]
      decide
    simp only [stressLoop, if_pos hgoes, hstep, Option.bind_eq_bind, Option.bind_some, hloop]

theorem sweepFrom_agree (h : Agree E s M) (left i : ℕ) : sweepFrom E s left i 0 = some 0 := by
  induction left generalizing i with
  | zero => rfl
  | succ left ih =>
    simp only [sweepFrom, get_refines h.table, refGet_spec h.ref, Option.bind_eq_bind,
      Option.bind_some, if_true, ih]
    rfl

/-- Whatever it draws, and whichever arrays can be mapped, the test finds no mismatch. -/
theorem differential_stress_passes {mapped : Bool} {leftover : ℕ} {keySpace : ℕ}
    (hinit : (hashtableInit (ι := ℕ) E mapped leftover 64).isSome) (hpos : keySpace ≠ 0)
    (granted : ℕ → Bool) (seed : BitVec 64) (ops : ℕ) :
    differentialStress E mapped leftover granted seed ops keySpace = some (0, 0) := by
  obtain ⟨table, htable⟩ := Option.isSome_iff_exists.mp hinit
  have hagree : Agree E ⟨⟨table, fun _ => []⟩, refInit 1024, seed, 0, 0⟩ fun _ => none :=
    ⟨init_refines (by decide) htable _, refInit_inv 9, by simp, rfl⟩
  obtain ⟨s, M, hloop, h⟩ := stressLoop_agree granted hpos ops hagree
  simp only [differentialStress, htable, Option.bind_eq_bind, Option.bind_some, hloop,
    sweepFrom_agree h, h.mismatches]

theorem differential_stress_passes_small :
    differentialStress lengthEnv true 0 (fun _ => true) 1 200000 500 = some (0, 0) :=
  differential_stress_passes (by decide) (by decide) _ _ _

end Kvx.Reference
