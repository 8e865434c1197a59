import Kvx.TableFrame

/-!
# The slots of a table

What the invariant on the bags of a table says about its single slots: where a BUSY slot
lies and what it holds, and what an EMPTY one holds before it is claimed.
-/
namespace Kvx.Hashtable

open Kvx.Lib

variable {ι : Type} {E : Env} {itemKey : ι → List UInt8}

def Table.slotAt (t : Table ι) (ref : SlotRef) : Option (Slot ι) := do
  let chains ← t.side ref.side
  let chain ← chains[ref.idx]?
  chain.slotAt ref.loc

def Table.count (t : Table ι) : Side → ℕ
  | .old => t.oldBucketCount
  | .new => t.newBucketCount

def Bucket.busySlots (bucket : Bucket ι) : ℕ :=
  (Finset.univ.filter fun i => hashtableBucketGetSlotState bucket i = .busy).card

def busySlots (chains : List (Chain ι)) : ℕ :=
  (chains.map fun chain => (chain.buckets.map Bucket.busySlots).sum).sum

/-- `H(k) >> 8`, from which both arrays take their indices. -/
def keyIdx (E : Env) (key : List UInt8) : ℕ := (E.xxh3 key >>> shardBits).toNat

/-- A set never hands out a slot of a chain that was migrated. -/
def Table.Claimable (t : Table ι) (ref : SlotRef) : Prop :=
  ref.side = .new ∨ t.migrationPos ≤ ref.idx

def Table.Holds (t : Table ι) (p : ι) : Prop :=
  ∃ ref s, t.slotAt ref = some s ∧ s.state = .busy ∧ s.item = some p

structure Represented (E : Env) (itemKey : ι → List UInt8) (t : Table ι) : Prop where
  busy : ∀ ref s, t.slotAt ref = some s → s.state = .busy → ∃ p, s.item = some p ∧
    s.tag = (E.xxh3 (itemKey p) >>> 56).setWidth 8 ∧
    ref.idx = keyIdx E (itemKey p) % t.count ref.side
  routed : t.newBuckets.isSome → ∀ ref s p, t.slotAt ref = some s → s.state = .busy →
    s.item = some p →
    (ref.side = .new ↔ keyIdx E (itemKey p) % t.oldBucketCount < t.migrationPos)
  once : ∀ ref₁ ref₂ s₁ s₂ p₁ p₂, t.slotAt ref₁ = some s₁ → t.slotAt ref₂ = some s₂ →
    s₁.state = .busy → s₂.state = .busy → s₁.item = some p₁ → s₂.item = some p₂ →
    itemKey p₁ = itemKey p₂ → ref₁ = ref₂
  old_size : t.oldSize = busySlots t.oldBuckets.chains
  new_size : t.newSize = (t.newBuckets.map fun m => busySlots m.chains).getD 0
  empty : ∀ ref s, t.slotAt ref = some s → s.state = .empty → t.Claimable ref → s.item = none
  -- what a set hands out: the slot of the key, or one that holds `NULL` if the key is absent
  claims : ∀ granted key t' ref, hashtableSet E itemKey granted t (E.xxh3 key) key =
    some (t', ref) → t'.Claimable ref ∧ ∃ found, t'.readSlot ref = some found ∧
      ∀ p, found = some p ↔ t.Holds p ∧ itemKey p = key
  removes : ∀ key t' p, hashtableDelete E itemKey t (E.xxh3 key) key = some (t', some p) →
    hashtableLen t' + 1 = hashtableLen t

theorem bucketIdx_eq_mod {n : ℕ} (h : ∃ k, n = 2 ^ k) (key : List UInt8) :
    bucketIdx (E.xxh3 key) n = keyIdx E key % n := by
  obtain ⟨k, rfl⟩ := h
  exact Nat.and_two_pow_sub_one_eq_mod _ k

theorem slotAt_old {t : Table ι} {idx : ℕ} {loc : Loc} {s : Slot ι}
    (h : t.slotAt ⟨.old, idx, loc⟩ = some s) :
    ∃ c, t.oldBuckets.chains[idx]? = some c ∧ c.slotAt loc = some s := by
  simpa [Table.slotAt, Table.side, Option.bind_eq_some_iff] using h

theorem slotAt_new {t : Table ι} {idx : ℕ} {loc : Loc} {s : Slot ι}
    (h : t.slotAt ⟨.new, idx, loc⟩ = some s) :
    ∃ m c, t.newBuckets = some m ∧ m.chains[idx]? = some c ∧ c.slotAt loc = some s := by
  simpa [Table.slotAt, Table.side, Option.bind_eq_some_iff] using h

theorem bucket_le (b : Bucket ι) (i : Fin 8) : (b.slot i).bag ≤ b.bag :=
  Finset.single_le_sum (f := fun k => (b.slot k).bag) (fun _ _ => Multiset.zero_le _)
    (Finset.mem_univ i)

theorem bucket_pair_le {b : Bucket ι} {i j : Fin 8} (hne : i ≠ j) :
    (b.slot i).bag + (b.slot j).bag ≤ b.bag :=
  pair_le_sum (fun k => (b.slot k).bag) hne

theorem chain_pair_le {c : Chain ι} {l₁ l₂ : Loc} {s₁ s₂ : Slot ι} (hne : l₁ ≠ l₂)
    (h₁ : c.slotAt l₁ = some s₁) (h₂ : c.slotAt l₂ = some s₂) : s₁.bag + s₂.bag ≤ c.bag := by
  obtain ⟨b₁, hb₁, rfl⟩ := slotAt_isSome h₁
  obtain ⟨b₂, hb₂, rfl⟩ := slotAt_isSome h₂
  by_cases hbucket : l₁.bucket = l₂.bucket
  · rw [← hbucket, hb₁, Option.some.injEq] at hb₂
    subst hb₂
    have hslot : l₁.slot ≠ l₂.slot := fun he => hne (by cases l₁; cases l₂; simp_all)
    exact (bucket_pair_le hslot).trans (le_sum_map Bucket.bag (List.mem_of_getElem? hb₁))
  · exact (add_le_add (bucket_le b₁ _) (bucket_le b₂ _)).trans
      (pair_le_sum_map Bucket.bag hbucket hb₁ hb₂)

theorem chain_le {c : Chain ι} {l : Loc} {s : Slot ι} (h : c.slotAt l = some s) :
    s.bag ≤ c.bag := by
  obtain ⟨b, hb, rfl⟩ := slotAt_isSome h
  exact (bucket_le b l.slot).trans (le_sum_map Bucket.bag (List.mem_of_getElem? hb))

theorem array_le {chains : List (Chain ι)} {j : ℕ} {c : Chain ι} {l : Loc} {s : Slot ι}
    (hc : chains[j]? = some c) (h : c.slotAt l = some s) : s.bag ≤ arrayBag chains :=
  (chain_le h).trans (le_sum_map Chain.bag (List.mem_of_getElem? hc))

theorem array_pair_le {chains : List (Chain ι)} {j₁ j₂ : ℕ} {c₁ c₂ : Chain ι} {l₁ l₂ : Loc}
    {s₁ s₂ : Slot ι} (hne : j₁ ≠ j₂ ∨ l₁ ≠ l₂) (hc₁ : chains[j₁]? = some c₁)
    (hc₂ : chains[j₂]? = some c₂) (h₁ : c₁.slotAt l₁ = some s₁) (h₂ : c₂.slotAt l₂ = some s₂) :
    s₁.bag + s₂.bag ≤ arrayBag chains := by
  by_cases hj : j₁ = j₂
  · subst hj
    rw [hc₁, Option.some.injEq] at hc₂
    subst hc₂
    exact (chain_pair_le (hne.resolve_left (not_not_intro rfl)) h₁ h₂).trans
      (le_sum_map Chain.bag (List.mem_of_getElem? hc₁))
  · exact (add_le_add (chain_le h₁) (chain_le h₂)).trans
      (pair_le_sum_map Chain.bag hj hc₁ hc₂)

/-- The items of two different slots are both counted in the bag of the table. -/
theorem table_pair_le {t : Table ι} {ref₁ ref₂ : SlotRef} {s₁ s₂ : Slot ι} (hne : ref₁ ≠ ref₂)
    (h₁ : t.slotAt ref₁ = some s₁) (h₂ : t.slotAt ref₂ = some s₂) :
    s₁.bag + s₂.bag ≤ t.bag := by
  obtain ⟨side₁, j₁, l₁⟩ := ref₁
  obtain ⟨side₂, j₂, l₂⟩ := ref₂
  have hdiff : side₁ = side₂ → j₁ ≠ j₂ ∨ l₁ ≠ l₂ := by
    rintro rfl
    by_contra hsame
    obtain ⟨hj, hl⟩ := not_or.mp hsame
    exact hne (by rw [not_not.mp hj, not_not.mp hl])
  cases side₁ with
  | old =>
    obtain ⟨c₁, hc₁, hs₁⟩ := slotAt_old h₁
    cases side₂ with
    | old =>
      obtain ⟨c₂, hc₂, hs₂⟩ := slotAt_old h₂
      exact (array_pair_le (hdiff rfl) hc₁ hc₂ hs₁ hs₂).trans (Multiset.le_add_right _ _)
    | new =>
      obtain ⟨m, c₂, hm, hc₂, hs₂⟩ := slotAt_new h₂
      rw [Table.bag_some hm]
      exact add_le_add (array_le hc₁ hs₁) (array_le hc₂ hs₂)
  | new =>
    obtain ⟨m, c₁, hm, hc₁, hs₁⟩ := slotAt_new h₁
    rw [Table.bag_some hm]
    cases side₂ with
    | old =>
      obtain ⟨c₂, hc₂, hs₂⟩ := slotAt_old h₂
      rw [add_comm]
      exact add_le_add (array_le hc₂ hs₂) (array_le hc₁ hs₁)
    | new =>
      obtain ⟨m₂, c₂, hm₂, hc₂, hs₂⟩ := slotAt_new h₂
      rw [hm, Option.some.injEq] at hm₂
      subst hm₂
      exact (array_pair_le (hdiff rfl) hc₁ hc₂ hs₁ hs₂).trans (Multiset.le_add_left _ _)

theorem busySlots_bucket {b : Bucket ι}
    (h : ∀ i, (b.slot i).state = .busy → ∃ p, (b.slot i).item = some p) :
    b.busySlots = b.bag.card := by
  rw [Bucket.busySlots, Finset.card_filter, Bucket.bag, Multiset.card_sum]
  refine Finset.sum_congr rfl fun i _ => ?_
  rw [getSlotState_eq_slot]
  by_cases hb : (b.slot i).state = .busy
  · obtain ⟨p, hp⟩ := h i hb
    rw [if_pos hb, slot_bag_busy hb hp, Multiset.card_singleton]
  · rw [if_neg hb, slot_bag_empty (slot_state_ne_busy.mp hb), Multiset.card_zero]

theorem sum_map_card {α : Type} (f : α → Multiset ι) (l : List α) :
    (l.map f).sum.card = (l.map fun a => (f a).card).sum := by
  induction l with
  | nil => rfl
  | cons a l ih => rw [List.map_cons, List.sum_cons, Multiset.card_add, ih]; rfl

theorem busySlots_array {n : ℕ} {chains : List (Chain ι)} (h : ArrayOk E itemKey n chains) :
    busySlots chains = (arrayBag chains).card := by
  rw [busySlots, arrayBag, sum_map_card]
  congr 1
  refine List.map_congr_left fun c hc => ?_
  rw [Chain.bag, sum_map_card]
  congr 1
  refine List.map_congr_left fun b hb => busySlots_bucket fun i hi => ?_
  obtain ⟨j, hj⟩ := List.getElem?_of_mem hc
  obtain ⟨k, hk⟩ := List.getElem?_of_mem hb
  obtain ⟨p, hp, -⟩ := h.chain j c hj ⟨k, i⟩ (b.slot i) (by simp [Chain.slotAt, hk]) hi
  exact ⟨p, hp⟩

theorem TableInv.count_pow_side {t : Table ι} (h : TableInv E itemKey t) {m : Mapping ι}
    (hm : t.newBuckets = some m) : ∃ k, t.newBucketCount = 2 ^ k := by
  obtain ⟨k, hk⟩ := h.count_pow
  exact ⟨k + 1, by rw [(h.running m hm).count, hk]; ring⟩

theorem TableInv.busy {t : Table ι} (h : TableInv E itemKey t) {ref : SlotRef} {s : Slot ι}
    (hs : t.slotAt ref = some s) (hb : s.state = .busy) : ∃ p, s.item = some p ∧
      s.tag = (E.xxh3 (itemKey p) >>> 56).setWidth 8 ∧
      ref.idx = keyIdx E (itemKey p) % t.count ref.side := by
  obtain ⟨side, j, l⟩ := ref
  cases side with
  | old =>
    obtain ⟨c, hc, hsl⟩ := slotAt_old hs
    obtain ⟨p, hp, htag, hidx⟩ := h.old_ok.chain j c hc l s hsl hb
    refine ⟨p, hp, htag, ?_⟩
    rw [← hidx, bucketIdx_eq_mod h.count_pow]
    rfl
  | new =>
    obtain ⟨m, c, hm, hc, hsl⟩ := slotAt_new hs
    obtain ⟨p, hp, htag, hidx⟩ := (h.running m hm).ok.chain j c hc l s hsl hb
    refine ⟨p, hp, htag, ?_⟩
    rw [← hidx, bucketIdx_eq_mod (h.count_pow_side hm)]
    rfl

theorem TableInv.routed {t : Table ι} (h : TableInv E itemKey t) {m : Mapping ι}
    (hm : t.newBuckets = some m) {ref : SlotRef} {s : Slot ι} {p : ι}
    (hs : t.slotAt ref = some s) (hb : s.state = .busy) (hp : s.item = some p) :
    ref.side = .new ↔ keyIdx E (itemKey p) % t.oldBucketCount < t.migrationPos := by
  have hr := h.running m hm
  obtain ⟨side, j, l⟩ := ref
  rw [← bucketIdx_eq_mod h.count_pow]
  cases side with
  | old =>
    obtain ⟨c, hc, hsl⟩ := slotAt_old hs
    have hmem : p ∈ c.bag := mem_chain_bag.mpr ⟨l, s, hsl, hb, hp⟩
    rw [(h.old_ok.chain j c hc).idx hmem]
    refine ⟨fun hside => by simp at hside, fun hlt => ?_⟩
    rw [hr.drained j c hlt hc] at hmem
    exact absurd hmem (Multiset.notMem_zero p)
  | new =>
    obtain ⟨m', c, hm', hc, hsl⟩ := slotAt_new hs
    rw [hm, Option.some.injEq] at hm'
    subst hm'
    refine ⟨fun _ => hr.routed p ?_, fun _ => rfl⟩
    exact mem_arrayBag.mpr ⟨j, c, hc, mem_chain_bag.mpr ⟨l, s, hsl, hb, hp⟩⟩

theorem TableInv.once {t : Table ι} (h : TableInv E itemKey t) {ref₁ ref₂ : SlotRef}
    {s₁ s₂ : Slot ι} {p₁ p₂ : ι} (h₁ : t.slotAt ref₁ = some s₁) (h₂ : t.slotAt ref₂ = some s₂)
    (hb₁ : s₁.state = .busy) (hb₂ : s₂.state = .busy) (hp₁ : s₁.item = some p₁)
    (hp₂ : s₂.item = some p₂) (hkey : itemKey p₁ = itemKey p₂) : ref₁ = ref₂ := by
  by_contra hne
  have hle := table_pair_le hne h₁ h₂
  rw [slot_bag_busy hb₁ hp₁, slot_bag_busy hb₂ hp₂] at hle
  have hnd := Multiset.nodup_of_le (Multiset.map_le_map hle) h.nodup
  rw [Multiset.singleton_add, Multiset.map_cons, Multiset.map_singleton, hkey,
    Multiset.nodup_cons] at hnd
  exact hnd.1 (Multiset.mem_singleton_self _)

theorem TableInv.empty {t : Table ι} (h : TableInv E itemKey t) {ref : SlotRef} {s : Slot ι}
    (hs : t.slotAt ref = some s) (he : s.state = .empty) (hclaim : t.Claimable ref) :
    s.item = none := by
  obtain ⟨side, j, l⟩ := ref
  cases side with
  | old =>
    obtain ⟨c, hc, hsl⟩ := slotAt_old hs
    exact h.old_clean j c (hclaim.resolve_left (by simp)) hc l s hsl he
  | new =>
    obtain ⟨m, c, hm, hc, hsl⟩ := slotAt_new hs
    exact (h.running m hm).clean j c hc l s hsl he

theorem holds_iff {t : Table ι} {p : ι} : t.Holds p ↔ p ∈ t.bag := by
  constructor
  · rintro ⟨⟨side, j, l⟩, s, hs, hb, hp⟩
    cases side with
    | old =>
      obtain ⟨c, hc, hsl⟩ := slotAt_old hs
      exact Multiset.mem_add.mpr (Or.inl (mem_arrayBag.mpr
        ⟨j, c, hc, mem_chain_bag.mpr ⟨l, s, hsl, hb, hp⟩⟩))
    | new =>
      obtain ⟨m, c, hm, hc, hsl⟩ := slotAt_new hs
      rw [Table.bag_some hm]
      exact Multiset.mem_add.mpr (Or.inr (mem_arrayBag.mpr
        ⟨j, c, hc, mem_chain_bag.mpr ⟨l, s, hsl, hb, hp⟩⟩))
  · intro hp
    rcases Multiset.mem_add.mp hp with hp | hp
    · obtain ⟨j, c, hc, hpc⟩ := mem_arrayBag.mp hp
      obtain ⟨l, s, hs, hb, hi⟩ := mem_chain_bag.mp hpc
      exact ⟨⟨.old, j, l⟩, s, by simp [Table.slotAt, Table.side, hc, hs], hb, hi⟩
    · rcases Option.eq_none_or_eq_some t.newBuckets with hm | ⟨m, hm⟩
      · rw [Table.newBag_none hm] at hp
        exact absurd hp (Multiset.notMem_zero p)
      · rw [Table.newBag_some hm] at hp
        obtain ⟨j, c, hc, hpc⟩ := mem_arrayBag.mp hp
        obtain ⟨l, s, hs, hb, hi⟩ := mem_chain_bag.mp hpc
        exact ⟨⟨.new, j, l⟩, s, by simp [Table.slotAt, Table.side, hm, hc, hs], hb, hi⟩

theorem setOld_claimable {t t' : Table ι} {ref : SlotRef} {key : List UInt8}
    (hle : t.migrationPos ≤ bucketIdx (E.xxh3 key) t.oldBucketCount)
    (h : hashtableSetOld itemKey t (E.xxh3 key) (hashTag (E.xxh3 key)) key = some (t', ref)) :
    t'.Claimable ref := by
  have hpos := (Kept.setOld h).migrationPos
  simp only [hashtableSetOld, Option.bind_eq_bind, Option.bind_eq_some_iff, Option.some.injEq,
    Prod.mk.injEq] at h
  obtain ⟨r, hr, -, rfl⟩ := h
  right
  rw [hpos]
  cases arraySet_outcome hr with
  | hit => exact hle
  | claim => exact hle

theorem setNew_claimable {t t' : Table ι} {ref : SlotRef} {hash : BitVec 64} {tag : BitVec 8}
    {key : List UInt8} (h : hashtableSetNew itemKey t hash tag key = some (t', ref)) :
    t'.Claimable ref := by
  simp only [hashtableSetNew, Option.bind_eq_bind, Option.bind_eq_some_iff, Option.some.injEq,
    Prod.mk.injEq] at h
  obtain ⟨m, -, r, -, -, rfl⟩ := h
  exact Or.inl rfl

theorem set_claimable {t t' : Table ι} {ref : SlotRef} {granted : Bool} {key : List UInt8}
    (h : TableInv E itemKey t)
    (hrun : hashtableSet E itemKey granted t (E.xxh3 key) key = some (t', ref)) :
    t'.Claimable ref := by
  simp only [hashtableSet, Option.bind_eq_bind, Option.bind_eq_some_iff] at hrun
  obtain ⟨t₁, hmaint, hrun⟩ := hrun
  obtain ⟨t₂, hmaint', hinv, -⟩ := maintenance_spec h
  rw [hmaint, Option.some.injEq] at hmaint'
  subst hmaint'
  split_ifs at hrun with hside
  · exact setNew_claimable hrun
  · exact setOld_claimable (checkInit_pos granted
      (inNew_false hinv (Bool.not_eq_true _ ▸ hside))) hrun

theorem TableInv.claims {t t' : Table ι} {ref : SlotRef} {granted : Bool} {key : List UInt8}
    (h : TableInv E itemKey t)
    (hrun : hashtableSet E itemKey granted t (E.xxh3 key) key = some (t', ref)) :
    t'.Claimable ref ∧ ∃ found, t'.readSlot ref = some found ∧
      ∀ p, found = some p ↔ t.Holds p ∧ itemKey p = key := by
  refine ⟨set_claimable h hrun, ?_⟩
  obtain ⟨t₂, ref₂, found, rest, hrun', hslot⟩ := set_spec h granted key
  rw [hrun, Option.some.injEq, Prod.mk.injEq] at hrun'
  obtain ⟨rfl, rfl⟩ := hrun'
  refine ⟨found, hslot.read, fun p => ?_⟩
  rw [holds_iff]
  cases found with
  | none =>
    obtain ⟨-, hne⟩ := hslot.absent rfl
    simp only [reduceCtorEq, false_iff, not_and]
    exact hne p
  | some q =>
    obtain ⟨hk, hbag⟩ := hslot.present q rfl
    rw [hbag, Multiset.mem_cons, Option.some.injEq]
    constructor
    · rintro rfl
      exact ⟨Or.inl rfl, hk⟩
    · rintro ⟨rfl | hp, hpk⟩
      · rfl
      · have hnd := h.nodup
        rw [hbag, Multiset.map_cons, Multiset.nodup_cons, hk, ← hpk] at hnd
        exact absurd (Multiset.mem_map_of_mem itemKey hp) hnd.1

theorem TableInv.removes {t t' : Table ι} {key : List UInt8} {p : ι} (h : TableInv E itemKey t)
    (hrun : hashtableDelete E itemKey t (E.xxh3 key) key = some (t', some p)) :
    hashtableLen t' + 1 = hashtableLen t := by
  obtain ⟨t₂, r, hrun', hinv, -, hhit⟩ := delete_spec h key
  rw [hrun, Option.some.injEq, Prod.mk.injEq] at hrun'
  obtain ⟨rfl, rfl⟩ := hrun'
  rw [h.len, (hhit p rfl).2, hinv.len, Multiset.card_cons]

theorem TableInv.represented {t : Table ι} (h : TableInv E itemKey t) :
    Represented E itemKey t where
  busy _ _ hs hb := h.busy hs hb
  routed hsome _ _ _ hs hb hp := by
    obtain ⟨m, hm⟩ := Option.isSome_iff_exists.mp hsome
    exact h.routed hm hs hb hp
  once _ _ _ _ _ _ h₁ h₂ hb₁ hb₂ hp₁ hp₂ hkey := h.once h₁ h₂ hb₁ hb₂ hp₁ hp₂ hkey
  old_size := by rw [h.old_size, busySlots_array h.old_ok]
  new_size := by
    cases hm : t.newBuckets with
    | none => exact (h.idle hm).2
    | some m =>
      have hr := h.running m hm
      rw [hr.size, ← busySlots_array hr.ok]
      rfl
  empty _ _ hs he hclaim := h.empty hs he hclaim
  claims _ _ _ _ hrun := h.claims hrun
  removes _ _ _ hrun := h.removes hrun

/-- The representation invariant holds after every run. -/
theorem table_represented {granted : Bool} {leftover cap : ℕ} {t : Table ι}
    (hcap : cap < 2 ^ 64) (hinit : hashtableInit E granted leftover cap = some t)
    (itemKey : ι → List UInt8) (ops : List (Op ι))
    (hst : StoresAll (fun _ => none) itemKey ops) :
    ∃ w, runTo E ⟨t, itemKey⟩ ops = some w ∧ Represented E w.itemKey w.table := by
  obtain ⟨w, M, hrun, href⟩ := runTo_refines (init_refines hcap hinit itemKey) hst
  exact ⟨w, hrun, href.inv.represented⟩

/-- A migration from one bucket to two has just ended. -/
theorem table_represented_nineSets : ∃ t, hashtableInit byteEnv true 0 1 = some t ∧
    ∃ w, runTo byteEnv ⟨t, id⟩ (byteSets 9) = some w ∧
      Represented byteEnv w.itemKey w.table :=
  ⟨(hashtableInit byteEnv true 0 1).get (by decide), (Option.some_get _).symm,
    table_represented (by decide) (Option.some_get _).symm id _ (storesAll_byteSets 9 _)⟩

end Kvx.Hashtable
