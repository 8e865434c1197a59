import Kvx.Chain

/-!
# What the searches over a chain return

A search either reads a `NULL` item, or finds a slot with the key, or passes every
slot with the tag. The second search then also names a slot to claim.
-/
namespace Kvx.Hashtable

variable {ι : Type} {itemKey : ι → List UInt8} {tag : BitVec 8} {key : List UInt8}

/-- What the first search returns on the buckets behind the first one. -/
inductive ChainedFound (itemKey : ι → List UInt8) (tag : BitVec 8) (key : List UInt8) (pos : ℕ)
    (next : List (Chained ι)) : Option (Option Loc) → Prop
  | null {c : Chained ι} {i : Fin 8} (mem : c ∈ next) (null : (c.bucket.slot i).Null) :
      ChainedFound itemKey tag key pos next none
  | hit {n : ℕ} {c : Chained ι} {i : Fin 8} (at_n : next[n]? = some c)
      (hits : (c.bucket.slot i).Hits itemKey key) :
      ChainedFound itemKey tag key pos next (some (some ⟨pos + n, i⟩))
  | miss (misses : ∀ c ∈ next, ∀ i, (c.bucket.slot i).Misses itemKey tag key) :
      ChainedFound itemKey tag key pos next (some none)

theorem findChained_spec (pos : ℕ) (next : List (Chained ι)) :
    ChainedFound itemKey tag key pos next
      (hashtableFindItemSlotInBucketChained itemKey tag key pos next) := by
  induction next generalizing pos with
  | nil => exact .miss (by simp)
  | cons c next ih =>
    have hscan : BucketScan itemKey tag key c.bucket (scanBucket itemKey c.bucket tag key) :=
      scanBucket_spec c.bucket tag key
    unfold hashtableFindItemSlotInBucketChained
    generalize scanBucket itemKey c.bucket tag key = r at hscan
    cases hscan with
    | null null => exact .null List.mem_cons_self null
    | hit hits => exact .hit (n := 0) rfl hits
    | miss misses =>
      have hrest := ih (pos + 1)
      simp only [Option.bind_eq_bind, Option.bind_some]
      generalize hashtableFindItemSlotInBucketChained itemKey tag key (pos + 1) next = r at hrest
      cases hrest with
      | null mem null => exact .null (List.mem_cons_of_mem _ mem) null
      | @hit n d i at_n hits =>
        rw [Nat.add_assoc, Nat.add_comm 1 n]
        exact .hit (by simpa using at_n) hits
      | miss rest => exact .miss (List.forall_mem_cons.mpr ⟨misses, rest⟩)

/-- What the first search returns on a whole chain. -/
inductive Found (itemKey : ι → List UInt8) (tag : BitVec 8) (key : List UInt8) (chain : Chain ι) :
    Option (Option Loc) → Prop
  | null {loc : Loc} {s : Slot ι} (at_loc : chain.slotAt loc = some s) (null : s.Null) :
      Found itemKey tag key chain none
  | hit {loc : Loc} {s : Slot ι} (at_loc : chain.slotAt loc = some s)
      (hits : s.Hits itemKey key) : Found itemKey tag key chain (some (some loc))
  | miss (misses : ∀ loc s, chain.slotAt loc = some s → s.Misses itemKey tag key) :
      Found itemKey tag key chain (some none)

theorem slotAt_mem {chain : Chain ι} {c : Chained ι} (h : c ∈ chain.next) (i : Fin 8) :
    ∃ loc, chain.slotAt loc = some (c.bucket.slot i) := by
  obtain ⟨n, hn⟩ := List.getElem?_of_mem h
  exact ⟨⟨n + 1, i⟩, by rw [slotAt_next, hn, Option.map_some]⟩

theorem slotAt_behind {chain : Chain ι} {n : ℕ} {c : Chained ι} (h : chain.next[n]? = some c)
    (i : Fin 8) : chain.slotAt ⟨1 + n, i⟩ = some (c.bucket.slot i) := by
  rw [Nat.add_comm, slotAt_next, h, Option.map_some]

theorem find_spec (chain : Chain ι) :
    Found itemKey tag key chain (hashtableFindItemSlotInBucket itemKey chain tag key) := by
  have hscan : BucketScan itemKey tag key chain.head (scanBucket itemKey chain.head tag key) :=
    scanBucket_spec chain.head tag key
  unfold hashtableFindItemSlotInBucket
  generalize scanBucket itemKey chain.head tag key = r at hscan
  cases hscan with
  | null null => exact .null (slotAt_head chain _) null
  | hit hits => exact .hit (slotAt_head chain _) hits
  | miss misses =>
    have hnext : ChainedFound itemKey tag key 1 chain.next
        (hashtableFindItemSlotInBucketChained itemKey tag key 1 chain.next) :=
      findChained_spec 1 chain.next
    simp only [Option.bind_eq_bind, Option.bind_some]
    generalize hashtableFindItemSlotInBucketChained itemKey tag key 1 chain.next = r at hnext
    cases hnext with
    | null mem null =>
      obtain ⟨loc, hloc⟩ := slotAt_mem mem _
      exact .null hloc null
    | hit at_n hits => exact .hit (slotAt_behind at_n _) hits
    | miss rest => exact .miss (forall_slots.mpr ⟨misses, rest⟩)

theorem find_null {chain : Chain ι}
    (h : hashtableFindItemSlotInBucket itemKey chain tag key = none) :
    ∃ loc s, chain.slotAt loc = some s ∧ s.Null := by
  have hfound : Found itemKey tag key chain none := h ▸ find_spec chain
  cases hfound with
  | null at_loc null => exact ⟨_, _, at_loc, null⟩

theorem find_hit {chain : Chain ι} {loc : Loc}
    (h : hashtableFindItemSlotInBucket itemKey chain tag key = some (some loc)) :
    ∃ s, chain.slotAt loc = some s ∧ s.Hits itemKey key := by
  have hfound : Found itemKey tag key chain (some (some loc)) := h ▸ find_spec chain
  cases hfound with
  | hit at_loc hits => exact ⟨_, at_loc, hits⟩

theorem find_miss {chain : Chain ι}
    (h : hashtableFindItemSlotInBucket itemKey chain tag key = some none) :
    ∀ loc s, chain.slotAt loc = some s → s.Misses itemKey tag key := by
  have hfound : Found itemKey tag key chain (some none) := h ▸ find_spec chain
  cases hfound with
  | miss misses => exact misses

/-- What the chained part of the second search returns, by the free slot it was given. -/
inductive ChainedOutcome (itemKey : ι → List UInt8) (tag : BitVec 8) (key : List UInt8)
    (freeSlot : Option Loc) (pos : ℕ) (next : List (Chained ι)) : Loc → Bool → Prop
  | hit {n : ℕ} {c : Chained ι} {i : Fin 8} (at_n : next[n]? = some c)
      (hits : (c.bucket.slot i).Hits itemKey key) :
      ChainedOutcome itemKey tag key freeSlot pos next ⟨pos + n, i⟩ false
  | kept {loc : Loc} (given : freeSlot = some loc)
      (misses : ∀ c ∈ next, ∀ i, (c.bucket.slot i).Misses itemKey tag key) :
      ChainedOutcome itemKey tag key freeSlot pos next loc false
  | free {n : ℕ} {c : Chained ι} {i : Fin 8} (given : freeSlot = none)
      (misses : ∀ c ∈ next, ∀ i, (c.bucket.slot i).Misses itemKey tag key)
      (at_n : next[n]? = some c) (empty : (c.bucket.slot i).state = .empty) :
      ChainedOutcome itemKey tag key freeSlot pos next ⟨pos + n, i⟩ false
  | grow (given : freeSlot = none)
      (misses : ∀ c ∈ next, ∀ i, (c.bucket.slot i).Misses itemKey tag key)
      (full : ∀ c ∈ next, ∀ i, (c.bucket.slot i).state = .busy) :
      ChainedOutcome itemKey tag key freeSlot pos next ⟨pos + next.length, 0⟩ true

theorem findOrFreeChained_null {freeSlot : Option Loc} {pos : ℕ} {next : List (Chained ι)}
    (h : hashtableFindItemSlotOrNextFreeSlotChained itemKey tag key freeSlot pos next = none) :
    ∃ c ∈ next, ∃ i, (c.bucket.slot i).Null := by
  induction next generalizing pos freeSlot with
  | nil => cases freeSlot <;> simp [hashtableFindItemSlotOrNextFreeSlotChained] at h
  | cons c next ih =>
    have hscan : BucketScan itemKey tag key c.bucket (scanBucket itemKey c.bucket tag key) :=
      scanBucket_spec c.bucket tag key
    unfold hashtableFindItemSlotOrNextFreeSlotChained at h
    generalize scanBucket itemKey c.bucket tag key = r at hscan h
    cases hscan with
    | null null => exact ⟨c, List.mem_cons_self, _, null⟩
    | hit hits => simp at h
    | miss misses =>
      simp only [Option.bind_eq_bind, Option.bind_some] at h
      obtain ⟨d, hd, hi⟩ := ih h
      exact ⟨d, List.mem_cons_of_mem _ hd, hi⟩

theorem findOrFreeChained_spec {freeSlot : Option Loc} {pos : ℕ} {next : List (Chained ι)}
    {loc : Loc} {grown : Bool}
    (h : hashtableFindItemSlotOrNextFreeSlotChained itemKey tag key freeSlot pos next =
      some (loc, grown)) :
    ChainedOutcome itemKey tag key freeSlot pos next loc grown := by
  induction next generalizing pos freeSlot with
  | nil =>
    cases freeSlot with
    | some free =>
      simp only [hashtableFindItemSlotOrNextFreeSlotChained, Option.some.injEq,
        Prod.mk.injEq] at h
      obtain ⟨rfl, rfl⟩ := h
      exact .kept rfl (by simp)
    | none =>
      simp only [hashtableFindItemSlotOrNextFreeSlotChained, Option.some.injEq,
        Prod.mk.injEq] at h
      obtain ⟨rfl, rfl⟩ := h
      exact .grow rfl (by simp) (by simp)
  | cons c next ih =>
    have hscan : BucketScan itemKey tag key c.bucket (scanBucket itemKey c.bucket tag key) :=
      scanBucket_spec c.bucket tag key
    unfold hashtableFindItemSlotOrNextFreeSlotChained at h
    generalize scanBucket itemKey c.bucket tag key = r at hscan h
    cases hscan with
    | null null => simp at h
    | hit hits =>
      simp only [Option.bind_eq_bind, Option.bind_some, Option.some.injEq, Prod.mk.injEq] at h
      obtain ⟨rfl, rfl⟩ := h
      exact .hit (n := 0) rfl hits
    | miss hc =>
      simp only [Option.bind_eq_bind, Option.bind_some] at h
      have hshift : ∀ n, pos + 1 + n = pos + (n + 1) := fun n => by omega
      cases ih h with
      | hit at_n hits => rw [hshift]; exact .hit (by simpa using at_n) hits
      | kept given misses =>
        cases freeSlot with
        | some free => exact .kept given (List.forall_mem_cons.mpr ⟨hc, misses⟩)
        | none =>
          -- the slot kept by the rest of the scan is the first free slot of this bucket
          obtain ⟨i, hi, rfl⟩ := Option.map_eq_some_iff.mp given
          exact .free (n := 0) rfl (List.forall_mem_cons.mpr ⟨hc, misses⟩) rfl
            (firstFreeSlot_some hi)
      | free given misses at_n empty =>
        cases freeSlot with
        | some free => simp at given
        | none =>
          rw [hshift]
          exact .free rfl (List.forall_mem_cons.mpr ⟨hc, misses⟩) (by simpa using at_n) empty
      | grow given misses full =>
        cases freeSlot with
        | some free => simp at given
        | none =>
          rw [hshift]
          have hfree : hashtableBucketFirstFreeSlot c.bucket = none := by simpa using given
          exact .grow rfl (List.forall_mem_cons.mpr ⟨hc, misses⟩)
            (List.forall_mem_cons.mpr ⟨firstFreeSlot_none hfree, full⟩)

/-- What the second search returns on a whole chain. -/
inductive FindOutcome (itemKey : ι → List UInt8) (tag : BitVec 8) (key : List UInt8)
    (chain : Chain ι) : Loc → Bool → Prop
  | hit {loc : Loc} {s : Slot ι} (at_loc : chain.slotAt loc = some s)
      (hits : s.Hits itemKey key) : FindOutcome itemKey tag key chain loc false
  | free {loc : Loc} {s : Slot ι}
      (misses : ∀ loc s, chain.slotAt loc = some s → s.Misses itemKey tag key)
      (at_loc : chain.slotAt loc = some s) (empty : s.state = .empty) :
      FindOutcome itemKey tag key chain loc false
  | grow (misses : ∀ loc s, chain.slotAt loc = some s → s.Misses itemKey tag key)
      (full : ∀ loc s, chain.slotAt loc = some s → s.state = .busy) :
      FindOutcome itemKey tag key chain ⟨chain.buckets.length, 0⟩ true

theorem findOrFree_null {chain : Chain ι}
    (h : hashtableFindItemSlotOrNextFreeSlotInBucket itemKey chain tag key = none) :
    ∃ loc s, chain.slotAt loc = some s ∧ s.Null := by
  have hscan : BucketScan itemKey tag key chain.head (scanBucket itemKey chain.head tag key) :=
    scanBucket_spec chain.head tag key
  unfold hashtableFindItemSlotOrNextFreeSlotInBucket at h
  generalize scanBucket itemKey chain.head tag key = r at hscan h
  cases hscan with
  | null null => exact ⟨_, _, slotAt_head chain _, null⟩
  | hit hits => simp at h
  | miss misses =>
    simp only [Option.bind_eq_bind, Option.bind_some] at h
    obtain ⟨c, hc, i, hi⟩ := findOrFreeChained_null h
    obtain ⟨loc, hloc⟩ := slotAt_mem hc i
    exact ⟨loc, _, hloc, hi⟩

theorem findOrFree_spec {chain : Chain ι} {loc : Loc} {grown : Bool}
    (h : hashtableFindItemSlotOrNextFreeSlotInBucket itemKey chain tag key = some (loc, grown)) :
    FindOutcome itemKey tag key chain loc grown := by
  have hscan : BucketScan itemKey tag key chain.head (scanBucket itemKey chain.head tag key) :=
    scanBucket_spec chain.head tag key
  unfold hashtableFindItemSlotOrNextFreeSlotInBucket at h
  generalize scanBucket itemKey chain.head tag key = r at hscan h
  cases hscan with
  | null null => simp at h
  | hit hits =>
    simp only [Option.bind_eq_bind, Option.bind_some, Option.some.injEq, Prod.mk.injEq] at h
    obtain ⟨rfl, rfl⟩ := h
    exact .hit (slotAt_head _ _) hits
  | miss hhead =>
    simp only [Option.bind_eq_bind, Option.bind_some] at h
    cases findOrFreeChained_spec h with
    | hit at_n hits => exact .hit (slotAt_behind at_n _) hits
    | kept given misses =>
      obtain ⟨i, hi, rfl⟩ := Option.map_eq_some_iff.mp given
      exact .free (forall_slots.mpr ⟨hhead, misses⟩) (slotAt_head _ _) (firstFreeSlot_some hi)
    | free given misses at_n empty =>
      exact .free (forall_slots.mpr ⟨hhead, misses⟩) (slotAt_behind at_n _) empty
    | grow given misses full =>
      have hfree : hashtableBucketFirstFreeSlot chain.head = none := by simpa using given
      have hlen : 1 + chain.next.length = chain.buckets.length := by
        simp [Chain.buckets, Nat.add_comm]
      rw [hlen]
      exact .grow (forall_slots.mpr ⟨hhead, misses⟩)
        (forall_slots.mpr ⟨firstFreeSlot_none hfree, full⟩)

end Kvx.Hashtable
