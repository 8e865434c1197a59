import Kvx.Migration

/-!
# The table invariant

The items of a table are those of its two arrays. While a migration runs, the chains
below `migrationPos` are drained and the new array holds just the items that hash to
one of them, so that a lookup knows the side of its key.
-/
namespace Kvx.Hashtable

open Kvx.Lib Kvx.Pages

variable {ι : Type} {E : Env} {itemKey itemKey' : ι → List UInt8}

def Table.newBag (table : Table ι) : Multiset ι :=
  match table.newBuckets with
  | some m => arrayBag m.chains
  | none => 0

def Table.bag (table : Table ι) : Multiset ι :=
  arrayBag table.oldBuckets.chains + table.newBag

/-- What holds of the new array `m` while a migration runs. -/
structure Running (E : Env) (itemKey : ι → List UInt8) (t : Table ι) (m : Mapping ι) : Prop where
  count : t.newBucketCount = 2 * t.oldBucketCount
  bound : t.newBucketCount * sizeofBucket < 2 ^ 60
  pos : t.migrationPos < t.oldBucketCount
  ok : ArrayOk E itemKey t.newBucketCount m.chains
  clean : AllClean m.chains
  size : t.newSize = (arrayBag m.chains).card
  drained : ∀ (j : ℕ) (c : Chain ι), j < t.migrationPos → t.oldBuckets.chains[j]? = some c → c.bag = 0
  routed : ∀ p ∈ arrayBag m.chains,
    bucketIdx (E.xxh3 (itemKey p)) t.oldBucketCount < t.migrationPos

structure TableInv (E : Env) (itemKey : ι → List UInt8) (t : Table ι) : Prop where
  count_pow : ∃ k, t.oldBucketCount = 2 ^ k
  count_bound : t.oldBucketCount * sizeofBucket < 2 ^ 60
  old_ok : ArrayOk E itemKey t.oldBucketCount t.oldBuckets.chains
  old_clean : ∀ (j : ℕ) (c : Chain ι), t.migrationPos ≤ j → t.oldBuckets.chains[j]? = some c → c.Clean
  old_size : t.oldSize = (arrayBag t.oldBuckets.chains).card
  nodup : (t.bag.map itemKey).Nodup
  idle : t.newBuckets = none → t.migrationPos = 0 ∧ t.newSize = 0
  running : ∀ m, t.newBuckets = some m → Running E itemKey t m

theorem Table.newBag_some {t : Table ι} {m : Mapping ι} (h : t.newBuckets = some m) :
    t.newBag = arrayBag m.chains := by
  rw [newBag, h]

theorem Table.newBag_none {t : Table ι} (h : t.newBuckets = none) : t.newBag = 0 := by
  rw [newBag, h]

theorem Table.bag_some {t : Table ι} {m : Mapping ι} (h : t.newBuckets = some m) :
    t.bag = arrayBag t.oldBuckets.chains + arrayBag m.chains := by
  rw [bag, newBag_some h]

theorem Table.bag_none {t : Table ι} (h : t.newBuckets = none) :
    t.bag = arrayBag t.oldBuckets.chains := by
  rw [bag, newBag_none h, add_zero]

theorem TableInv.len (h : TableInv E itemKey t) : hashtableLen t = t.bag.card := by
  rw [hashtableLen, h.old_size]
  cases hm : t.newBuckets with
  | none => rw [Table.bag_none hm, (h.idle hm).2, Nat.add_zero]
  | some m => rw [Table.bag_some hm, (h.running m hm).size, Multiset.card_add]

theorem TableInv.congr {t : Table ι} (h : TableInv E itemKey t)
    (hk : ∀ p ∈ t.bag, itemKey' p = itemKey p) : TableInv E itemKey' t where
  count_pow := h.count_pow
  count_bound := h.count_bound
  old_ok := h.old_ok.congr fun p hp => hk p (Multiset.mem_add.mpr (Or.inl hp))
  old_clean := h.old_clean
  old_size := h.old_size
  nodup := by
    rw [Multiset.map_congr rfl hk]
    exact h.nodup
  idle := h.idle
  running m hm := by
    have hr := h.running m hm
    rw [Table.bag_some hm] at hk
    have hnew : ∀ p ∈ arrayBag m.chains, itemKey' p = itemKey p := fun p hp =>
      hk p (Multiset.mem_add.mpr (Or.inr hp))
    exact { hr with
      ok := hr.ok.congr hnew
      routed := fun p hp => by
        rw [hnew p hp]
        exact hr.routed p hp }

/-- A power of two of buckets is mapped only if the size of the array does not wrap. -/
theorem mapped_bound {k n len : ℕ} {granted : Bool} (hk : k ≤ 64) (hn : n < 64)
    (h : pagesMap (2 ^ k) granted (sizeT (2 ^ n * sizeofBucket)) = some len) :
    2 ^ n * sizeofBucket < 2 ^ 60 ∧ 2 ^ n * sizeofBucket ≤ len := by
  obtain ⟨hle, hpos, hlt⟩ := pagesMap_some hk (Nat.mod_lt _ (by decide)) h
  revert hle hpos
  simp only [sizeofBucket]
  interval_cases n <;> omega

theorem allClean_zero (count : ℕ) : AllClean (List.replicate count (Chain.zero : Chain ι)) := by
  intro j c hc
  rw [List.eq_of_mem_replicate (List.mem_of_getElem? hc)]
  exact clean_zero

theorem init_spec {granted : Bool} {leftover cap : ℕ} {t : Table ι} (hcap : cap < 2 ^ 64)
    (itemKey : ι → List UInt8) (h : hashtableInit E granted leftover cap = some t) :
    TableInv E itemKey t ∧ t.bag = 0 := by
  obtain ⟨k, hk, hpage⟩ := E.page_pow
  simp only [hashtableInit, hpage] at h
  have hc0 : (if cap = 0 then hashtableInitCap else cap) ≠ 0 := by
    split_ifs with h0
    · decide
    · exact h0
  have hc64 : (if cap = 0 then hashtableInitCap else cap) < 2 ^ 64 := by
    split_ifs
    · decide
    · exact hcap
  revert hc0 hc64 h
  generalize (if cap = 0 then hashtableInitCap else cap) = c
  intro h hc0 hc64
  split_ifs at h with hpow
  obtain ⟨n, rfl⟩ := (Nat.and_sub_one_eq_zero_iff_isPowerOfTwo hc0).mp (not_not.mp hpow)
  have hn : n < 64 := (Nat.pow_lt_pow_iff_right (by decide)).mp hc64
  cases hm : pagesMap (2 ^ k) granted (sizeT (2 ^ n * sizeofBucket)) with
  | none => simp [hm] at h
  | some len =>
    simp only [hm, Option.some.injEq] at h
    subst h
    have hbag : arrayBag (List.replicate (2 ^ n) (Chain.zero : Chain ι)) = 0 := arrayBag_zero _
    refine ⟨?_, by simp [Table.bag, Table.newBag]⟩
    exact {
      count_pow := ⟨n, rfl⟩
      count_bound := (mapped_bound hk hn hm).1
      old_ok := arrayOk_zero E itemKey (Nat.two_pow_pos n)
      old_clean := fun j c _ hc => allClean_zero _ j c hc
      old_size := by simp
      nodup := by simp [Table.bag, Table.newBag]
      idle := fun _ => ⟨rfl, rfl⟩
      running := by simp }

theorem TableInv.started {t : Table ι} (h : TableInv E itemKey t) (hnone : t.newBuckets = none)
    {count : ℕ} (hcount : count = 2 * t.oldBucketCount) (hbound : count * sizeofBucket < 2 ^ 60)
    (len : ℕ) (trace : List Event) :
    TableInv E itemKey { t with
        newBuckets := some ⟨len, List.replicate count Chain.zero⟩
        newBucketCount := count
        newBytes := len
        trace := trace } ∧
      Table.bag { t with
        newBuckets := some ⟨len, List.replicate count Chain.zero⟩
        newBucketCount := count
        newBytes := len
        trace := trace } = t.bag := by
  have hbag : Table.bag { t with
      newBuckets := some ⟨len, List.replicate count Chain.zero⟩
      newBucketCount := count
      newBytes := len
      trace := trace } = t.bag := by
    rw [Table.bag_none hnone, Table.bag_some rfl]
    simp
  obtain ⟨hpos, hsize⟩ := h.idle hnone
  have hold := h.old_ok.pos
  have hnew : 0 < count := by omega
  refine ⟨?_, hbag⟩
  exact { h with
    nodup := by
      rw [hbag]
      exact h.nodup
    idle := by simp
    running := fun m hm => by
      simp only [Option.some.injEq] at hm
      subst hm
      exact {
        count := hcount
        bound := hbound
        pos := by
          simp only [hpos]
          exact hold
        ok := arrayOk_zero E itemKey hnew
        clean := allClean_zero count
        size := by simp [hsize]
        drained := by simp [hpos]
        routed := by simp } }

theorem checkInit_spec {t : Table ι} (h : TableInv E itemKey t) (granted : Bool) :
    TableInv E itemKey (hashtableCheckInitMigration E granted t) ∧
      (hashtableCheckInitMigration E granted t).bag = t.bag := by
  obtain ⟨k, hk, hpage⟩ := E.page_pow
  unfold hashtableCheckInitMigration
  split_ifs with hstay
  · exact ⟨h, rfl⟩
  · simp only [not_or, Bool.not_eq_true, Option.isSome_eq_false_iff, Option.isNone_iff_eq_none]
      at hstay
    obtain ⟨-, hnone⟩ := hstay
    rw [hpage]
    obtain ⟨n, hn⟩ := h.count_pow
    have hbound := h.count_bound
    simp only [hn, sizeofBucket] at hbound
    have hcap : sizeT (t.oldBucketCount * 2) = 2 ^ (n + 1) := by
      rw [sizeT, hn, ← Nat.pow_succ]
      apply Nat.mod_eq_of_lt
      omega
    have hn64 : n + 1 < 64 := by
      apply (Nat.pow_lt_pow_iff_right (a := 2) (by decide)).mp
      omega
    rw [hcap]
    dsimp only
    cases hm : pagesMap (2 ^ k) granted (sizeT (2 ^ (n + 1) * sizeofBucket)) with
    | none => exact ⟨h, rfl⟩
    | some len =>
      have hcount : 2 ^ (n + 1) = 2 * t.oldBucketCount := by rw [hn, Nat.pow_succ, Nat.mul_comm]
      exact h.started hnone hcount (mapped_bound hk hn64 hm).1 len _

end Kvx.Hashtable
