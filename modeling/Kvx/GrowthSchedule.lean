import Kvx.MigrationCost
import Mathlib.Algebra.Order.Floor.Div
import Mathlib.Data.Nat.Log

/-!
# When a table grows

While only new keys come in, the number of keys tells how large the array is and whether a migration
runs, whatever the keys are: the array has at most six keys for each bucket, and the migration to a
new array is over once that array has more than three and a half.
-/
namespace Kvx.Hashtable

variable {ι : Type} {E : Env} {M : ItemMap ι} {w w' : World ι} {op : Op ι} {ops : List (Op ι)}
  {c n k : ℕ}

/-- How often an array of `c` buckets has doubled once it has `n` keys. -/
def doublings (c n : ℕ) : ℕ := Nat.clog 2 (n ⌈/⌉ (6 * c))

def bucketsAfter (c n : ℕ) : ℕ := c * 2 ^ doublings c n

def migratingAfter (c n : ℕ) : Bool :=
  decide (c < bucketsAfter c n ∧ 2 * n ≤ 7 * bucketsAfter c n)

theorem mul_two_pow_succ (c k : ℕ) : c * 2 ^ (k + 1) = 2 * (c * 2 ^ k) := by ring

theorem doublings_le_iff (hc : 0 < c) : doublings c n ≤ k ↔ n ≤ 6 * (c * 2 ^ k) := by
  rw [doublings, Nat.clog_le_iff_le_pow (by decide), ceilDiv_le_iff_le_mul (by omega),
    Nat.mul_assoc]

theorem doublings_eq_zero (hc : 0 < c) (hn : n ≤ 6 * c) : doublings c n = 0 := by
  rwa [← Nat.le_zero, doublings_le_iff hc, Nat.pow_zero, Nat.mul_one]

theorem doublings_eq_succ (hc : 0 < c) (hlo : 6 * (c * 2 ^ k) < n) (hhi : n ≤ 12 * (c * 2 ^ k)) :
    doublings c n = k + 1 := by
  apply le_antisymm
  · rw [doublings_le_iff hc, mul_two_pow_succ]
    omega
  · rw [Nat.succ_le_iff, ← Nat.not_le, doublings_le_iff hc]
    omega

/-- The operation leaves the keys that are present, and sets only a key that is not. -/
def Adds (M : ItemMap ι) : Op ι → Prop
  | .set _ key _ _ => M key = none
  | .get _ => True
  | .delete _ => False

def AddsAll : ItemMap ι → List (Op ι) → Prop
  | _, [] => True
  | M, op :: ops => Adds M op ∧ AddsAll (mapOp M op) ops

instance (M : ItemMap ι) (op : Op ι) : Decidable (Adds M op) :=
  match op with
  | .set _ key _ _ => inferInstanceAs (Decidable (M key = none))
  | .get _ => .isTrue trivial
  | .delete _ => .isFalse id

def decidableAddsAll : (M : ItemMap ι) → (ops : List (Op ι)) → Decidable (AddsAll M ops)
  | _, [] => .isTrue trivial
  | M, op :: ops => @instDecidableAnd _ _ _ (decidableAddsAll (mapOp M op) ops)

instance (M : ItemMap ι) (ops : List (Op ι)) : Decidable (AddsAll M ops) := decidableAddsAll M ops

/-- A table of `c` buckets at first that has doubled its array `k` times, with `n` keys. -/
structure Scheduled (c n k : ℕ) (t : Table ι) : Prop where
  len : hashtableLen t = n
  count : t.oldBucketCount = c * 2 ^ k
  running : t.newBuckets.isSome → n = 6 * (c * 2 ^ k) + t.migrationPos + 1
  grown : k = 0 ∨ 7 * (c * 2 ^ (k - 1)) < n

theorem Refines.len_adds (h : Refines E w M) (h' : Refines E w' (mapOp M op)) (hadds : Adds M op) :
    hashtableLen w'.table = hashtableLen w.table + op.sets := by
  cases op with
  | set granted key item keys =>
    have hinsert : {k | Function.update M key (some item) k ≠ none} =
        insert key {k | M k ≠ none} := by
      ext k
      by_cases hkey : k = key
      · simp [hkey]
      · simp [hkey]
    have hnew : M key = none := hadds
    have hlen := h'.len
    rw [mapOp, hinsert, Set.encard_insert_of_notMem (by simpa using hnew), ← h.len] at hlen
    exact_mod_cast hlen
  | get key =>
    have hlen := h'.len.trans h.len.symm
    exact_mod_cast hlen
  | delete key => exact hadds.elim

theorem checkInit_oldBucketCount (t : Table ι) (granted : Bool) :
    (hashtableCheckInitMigration E granted t).oldBucketCount = t.oldBucketCount := by
  unfold hashtableCheckInitMigration
  split_ifs
  · rfl
  · dsimp only
    split <;> rfl

/-- Only the end of a migration changes the number of buckets of the old array. -/
theorem idle_oldBucketCount {out : Outcome ι} (hrun : runOp E w op = some (w', out))
    (hidle : w.table.newBuckets = none) :
    w'.table.oldBucketCount = w.table.oldBucketCount := by
  rcases runOp_cases hrun with ⟨-, rfl⟩ | ⟨-, t₁, hmaint, hcase⟩
  · rfl
  have hsame : t₁ = w.table := by
    rcases maintenance_cases hmaint with ⟨-, hsame⟩ | ⟨_, _, hsome, -⟩
    · exact hsame
    · simp [hidle] at hsome
  subst hsame
  rcases hcase with ⟨hkept, -⟩ | ⟨granted, key, item, keys, -, hkept⟩
  · exact hkept.oldBucketCount
  · exact hkept.oldBucketCount.trans (checkInit_oldBucketCount _ _)

section Operation

variable {out : Outcome ι}

theorem Scheduled.idle (h : Scheduled c n k w.table) (hrun : runOp E w op = some (w', out))
    (hstep : PacedStep E w op w' w.table.oldBucketCount)
    (hlen : hashtableLen w'.table = n + 1) (hidle : w.table.newBuckets = none) :
    Scheduled c (n + 1) k w'.table where
  len := hlen
  count := (idle_oldBucketCount hrun hidle).trans h.count
  running hsome := by
    obtain ⟨m, hm⟩ := Option.isSome_iff_exists.mp hsome
    obtain ⟨hfull, -, -, hpos⟩ := hstep.starts hidle m hm
    have hn := h.len
    have hcount := h.count
    omega
  grown := h.grown.imp_right Nat.lt_succ_of_lt

/-- A new key comes in while a migration runs: the step that goes with it may be the last one. -/
theorem Scheduled.migrates (h : Scheduled c n k w.table) (hinv : TableInv E w.itemKey w.table)
    (hop : op.Migrates) (hstep : PacedStep E w op w' w.table.oldBucketCount)
    (hlen : hashtableLen w'.table = n + 1) (hsome : w.table.newBuckets.isSome) :
    ∃ k', Scheduled c (n + 1) k' w'.table := by
  obtain ⟨m, hm⟩ := Option.isSome_iff_exists.mp hsome
  have hpos := (hinv.running m hm).pos
  have hn := h.running hsome
  have hcount := h.count
  by_cases hlast : w.table.migrationPos + 1 = w.table.oldBucketCount
  · obtain ⟨-, hnone, hcount', -⟩ := hstep.ends hsome hop hlast
    refine ⟨k + 1, hlen, ?_, fun hsome' => ?_, Or.inr ?_⟩
    · rw [hcount', hcount, mul_two_pow_succ]
    · simp [hnone] at hsome'
    · rw [Nat.add_sub_cancel]
      omega
  · obtain ⟨-, hcount', hpos'⟩ := hstep.moves hsome hop (by omega)
    refine ⟨k, hlen, hcount'.trans hcount, fun _ => ?_, h.grown.imp_right Nat.lt_succ_of_lt⟩
    omega

theorem scheduled_step (href : Refines E w M) (href' : Refines E w' (mapOp M op))
    (hadds : Adds M op) (hrun : runOp E w op = some (w', out))
    (hstep : PacedStep E w op w' w.table.oldBucketCount) (h : Scheduled c n k w.table) :
    ∃ k', Scheduled c (n + op.sets) k' w'.table := by
  have hlen := href.len_adds href' hadds
  rw [h.len] at hlen
  cases op with
  | set granted key item keys =>
    cases hm : w.table.newBuckets with
    | none => exact ⟨k, h.idle hrun hstep hlen hm⟩
    | some m =>
      have hop : (Op.set granted key item keys).Migrates := trivial
      exact h.migrates href.inv hop hstep hlen (by rw [hm]; rfl)
  | get key =>
    have hsame := hstep.rests id
    exact ⟨k, hsame ▸ h⟩
  | delete key => exact hadds.elim

end Operation

theorem Driven.scheduled (h : Driven E w M ops) (hadds : AddsAll M ops)
    (hs : Scheduled c n k w.table) :
    ∃ w' M' k', runTo E w ops = some w' ∧ Refines E w' M' ∧ Paced w'.table ∧
      Scheduled c (n + sets ops) k' w'.table := by
  induction ops generalizing w M n k with
  | nil => exact ⟨w, M, k, rfl, h.refines, h.paced, hs⟩
  | cons op ops ih =>
    obtain ⟨hop, hops⟩ := hadds
    obtain ⟨w₁, out, hrun, hstep, h₁⟩ := h.step
    obtain ⟨k₁, hs₁⟩ := scheduled_step h.refines h₁.refines hop hrun hstep hs
    obtain ⟨w', M', k', hrest, href, hpaced, hs'⟩ := ih h₁ hops hs₁
    refine ⟨w', M', k', ?_, href, hpaced, ?_⟩
    · rw [runTo, hrun]
      exact hrest
    · rwa [sets_cons, ← Nat.add_assoc]

structure OnSchedule (c n : ℕ) (t : Table ι) : Prop where
  len : hashtableLen t = n
  count : hashtableBucketCount t = bucketsAfter c n
  migrating : hashtableMigrating t = migratingAfter c n
  pos : hashtableMigrating t = true → t.migrationPos + 3 * bucketsAfter c n + 1 = n

theorem Scheduled.onSchedule {itemKey : ι → List UInt8} {t : Table ι}
    (h : Scheduled c n k t) (hinv : TableInv E itemKey t) (hp : Paced t) (hc : 0 < c) :
    OnSchedule c n t := by
  have hcount := h.count
  have hpow : 0 < c * 2 ^ k := Nat.mul_pos hc (Nat.two_pow_pos k)
  cases hm : t.newBuckets with
  | none =>
    have hload := hp.idle hm
    have hgrown := h.grown
    have hn := h.len
    have hbuckets : bucketsAfter c n = c * 2 ^ k := by
      cases k with
      | zero =>
        rw [bucketsAfter, doublings_eq_zero hc (by omega)]
      | succ k =>
        rw [Nat.add_sub_cancel] at hgrown
        rw [hcount, mul_two_pow_succ] at hload
        rw [bucketsAfter, doublings_eq_succ (k := k) hc (by omega) (by omega)]
    have hrests : migratingAfter c n = false := by
      rw [migratingAfter, hbuckets, decide_eq_false_iff_not]
      cases k with
      | zero => omega
      | succ k =>
        rw [Nat.add_sub_cancel] at hgrown
        rw [mul_two_pow_succ]
        omega
    have hnot : hashtableMigrating t = false := by simp [hashtableMigrating, hm]
    refine ⟨hn, ?_, hnot.trans hrests.symm, fun hmig => ?_⟩
    · rw [hashtableBucketCount, hm, hbuckets]
      exact hcount
    · simp [hnot] at hmig
  | some m =>
    have hr := hinv.running m hm
    have hpos := hr.pos
    have hn := h.running (by rw [hm]; rfl)
    have hbuckets : bucketsAfter c n = 2 * (c * 2 ^ k) := by
      rw [bucketsAfter, doublings_eq_succ (k := k) hc (by omega) (by omega), mul_two_pow_succ]
    have hruns : migratingAfter c n = true := by
      have hle : c ≤ c * 2 ^ k := Nat.le_mul_of_pos_right c (Nat.two_pow_pos k)
      rw [migratingAfter, hbuckets, decide_eq_true_eq]
      omega
    have hmig : hashtableMigrating t = true := by simp [hashtableMigrating, hm]
    refine ⟨h.len, ?_, hmig.trans hruns.symm, fun _ => ?_⟩
    · rw [hashtableBucketCount, hm, hbuckets, Option.isSome_some, if_pos rfl, hr.count, hcount]
    · rw [hbuckets]
      omega

/-- Where every array that is due is mapped, a table that takes only new keys, with lookups in
between, grows by the schedule. -/
theorem growth_schedule {granted : Bool} {leftover cap : ℕ} {t : Table ι}
    (hcap : cap < 2 ^ 64) (hinit : hashtableInit E granted leftover cap = some t)
    (itemKey : ι → List UInt8) (ops : List (Op ι))
    (hst : StoresAll (fun _ => none) itemKey ops) (hadds : AddsAll (fun _ => none) ops)
    (hgrants : ∀ s ∈ steps E ⟨t, itemKey⟩ ops, Grants E s.1 s.2) :
    ∃ w, runTo E ⟨t, itemKey⟩ ops = some w ∧
      OnSchedule (hashtableBucketCount t) (sets ops) w.table := by
  obtain ⟨hinv, hbag⟩ := init_spec hcap itemKey hinit
  have hnone : t.newBuckets = none := init_idle hinit
  have hcount : hashtableBucketCount t = t.oldBucketCount := by
    simp [hashtableBucketCount, hnone]
  have hpos : 0 < hashtableBucketCount t := by
    obtain ⟨j, hj⟩ := hinv.count_pow
    rw [hcount, hj]
    exact Nat.two_pow_pos j
  have hdriven : Driven E ⟨t, itemKey⟩ (fun _ => none) ops :=
    ⟨init_refines hcap hinit itemKey, init_paced hinv hbag hinit, hst, hgrants⟩
  have hstart : Scheduled (hashtableBucketCount t) 0 0 t := by
    refine ⟨?_, ?_, fun hsome => ?_, Or.inl rfl⟩
    · rw [hinv.len, hbag, Multiset.card_zero]
    · rw [Nat.pow_zero, Nat.mul_one, hcount]
    · simp [hnone] at hsome
  obtain ⟨w, M, k, hrun, href, hpaced, hs⟩ := hdriven.scheduled hadds hstart
  rw [Nat.zero_add] at hs
  exact ⟨w, hrun, hs.onSchedule href.inv hpaced hpos⟩

/-- The seventh of nine keys comes with a second bucket, and the eighth one ends the migration. -/
theorem growth_schedule_nineSets : ∃ w,
    runTo byteEnv ⟨oneBucketTable, id⟩ (byteSets 9) = some w ∧ OnSchedule 1 9 w.table := by
  have hcount : hashtableBucketCount oneBucketTable = 1 := by decide +kernel
  obtain ⟨w, hrun, hschedule⟩ := growth_schedule (by decide) oneBucketTable_init id (byteSets 9)
    (storesAll_byteSets 9 _) (by decide +kernel) (by decide +kernel)
  exact ⟨w, hrun, hcount ▸ hschedule⟩

end Kvx.Hashtable
