import Kvx.ChainOps

/-!
# One bucket array

`ArrayOk` says that every BUSY slot of the array holds an item, carries the tag of the
item's key and lies in the chain the key hashes to. Under it the three array operations
act on the bag of items as a finite map does.
-/
namespace Kvx.Hashtable

open Kvx.Lib

variable {ι : Type}

theorem bucketIdx_lt {hash : BitVec 64} {n : ℕ} (hn : 0 < n) : bucketIdx hash n < n := by
  have h : bucketIdx hash n ≤ n - 1 := Nat.and_le_right
  omega

/-- What a BUSY slot of chain `j` in an array of `n` chains must hold. -/
def SlotOk (E : Env) (itemKey : ι → List UInt8) (n j : ℕ) (s : Slot ι) : Prop :=
  s.state = .busy → ∃ p, s.item = some p ∧ s.tag = hashTag (E.xxh3 (itemKey p)) ∧
    bucketIdx (E.xxh3 (itemKey p)) n = j

def ChainOk (E : Env) (itemKey : ι → List UInt8) (n j : ℕ) (chain : Chain ι) : Prop :=
  ∀ loc s, chain.slotAt loc = some s → SlotOk E itemKey n j s

/-- A slot that can be claimed holds `NULL`. -/
def Chain.Clean (chain : Chain ι) : Prop :=
  ∀ loc s, chain.slotAt loc = some s → s.state = .empty → s.item = none

structure ArrayOk (E : Env) (itemKey : ι → List UInt8) (n : ℕ) (chains : List (Chain ι)) :
    Prop where
  length : chains.length = n
  pos : 0 < n
  chain : ∀ j c, chains[j]? = some c → ChainOk E itemKey n j c

def arrayBag (chains : List (Chain ι)) : Multiset ι := (chains.map Chain.bag).sum

theorem mem_arrayBag {chains : List (Chain ι)} {p : ι} :
    p ∈ arrayBag chains ↔ ∃ (j : ℕ) (c : Chain ι), chains[j]? = some c ∧ p ∈ c.bag := by
  rw [arrayBag, mem_sum_map]
  constructor
  · rintro ⟨c, hc, hp⟩
    obtain ⟨j, hj⟩ := List.getElem?_of_mem hc
    exact ⟨j, c, hj, hp⟩
  · rintro ⟨j, c, hj, hp⟩
    exact ⟨c, List.mem_of_getElem? hj, hp⟩

theorem arrayBag_set {chains : List (Chain ι)} {j : ℕ} {c : Chain ι} (d : Chain ι)
    (h : chains[j]? = some c) : arrayBag (chains.set j d) + c.bag = arrayBag chains + d.bag :=
  sum_map_set Chain.bag d h

@[simp] theorem arrayBag_zero (n : ℕ) :
    arrayBag (List.replicate n (Chain.zero : Chain ι)) = 0 := by
  simp [arrayBag]

theorem slotOk_empty {E : Env} {itemKey : ι → List UInt8} {n j : ℕ} {s : Slot ι}
    (h : s.state = .empty) : SlotOk E itemKey n j s := fun hb => by simp [h] at hb

theorem chainOk_zero (E : Env) (itemKey : ι → List UInt8) (n j : ℕ) :
    ChainOk E itemKey n j Chain.zero := fun _ s hs =>
  slotOk_empty (by rw [slotAt_zero hs])

theorem clean_zero : (Chain.zero : Chain ι).Clean := fun _ s hs _ => by rw [slotAt_zero hs]

theorem arrayOk_zero (E : Env) (itemKey : ι → List UInt8) {n : ℕ} (hn : 0 < n) :
    ArrayOk E itemKey n (List.replicate n Chain.zero) := by
  refine ⟨List.length_replicate, hn, fun j c hc => ?_⟩
  rw [List.eq_of_mem_replicate (List.mem_of_getElem? hc)]
  exact chainOk_zero E itemKey n j

section Keys

variable {E : Env} {itemKey itemKey' : ι → List UInt8} {n : ℕ} {chains : List (Chain ι)}

theorem ArrayOk.get (h : ArrayOk E itemKey n chains) (hash : BitVec 64) :
    ∃ c, chains[bucketIdx hash n]? = some c :=
  ⟨_, List.getElem?_eq_getElem (by rw [h.length]; exact bucketIdx_lt h.pos)⟩

theorem ArrayOk.set (h : ArrayOk E itemKey n chains) {j : ℕ} {d : Chain ι}
    (hd : ChainOk E itemKey n j d) : ArrayOk E itemKey n (chains.set j d) := by
  refine ⟨by rw [List.length_set, h.length], h.pos, fun i c hc => ?_⟩
  rw [List.getElem?_set] at hc
  split_ifs at hc with hij hlt
  · subst hij
    exact Option.some.inj hc ▸ hd
  · exact h.chain i c hc

theorem ChainOk.congr {j : ℕ} {c : Chain ι} (h : ChainOk E itemKey n j c)
    (hk : ∀ p ∈ c.bag, itemKey' p = itemKey p) : ChainOk E itemKey' n j c := by
  intro loc s hs hb
  obtain ⟨p, hp, ht, hj⟩ := h loc s hs hb
  have he := hk p (mem_chain_bag.mpr ⟨loc, s, hs, hb, hp⟩)
  exact ⟨p, hp, by rw [he]; exact ht, by rw [he]; exact hj⟩

theorem ArrayOk.congr (h : ArrayOk E itemKey n chains)
    (hk : ∀ p ∈ arrayBag chains, itemKey' p = itemKey p) : ArrayOk E itemKey' n chains :=
  ⟨h.length, h.pos, fun j c hc =>
    (h.chain j c hc).congr fun p hp => hk p (mem_arrayBag.mpr ⟨j, c, hc, hp⟩)⟩

theorem ChainOk.idx {j : ℕ} {c : Chain ι} (h : ChainOk E itemKey n j c) {p : ι}
    (hp : p ∈ c.bag) : bucketIdx (E.xxh3 (itemKey p)) n = j := by
  obtain ⟨loc, s, hs, hb, hi⟩ := mem_chain_bag.mp hp
  obtain ⟨q, hq, -, hj⟩ := h loc s hs hb
  rw [hi, Option.some.injEq] at hq
  rw [hq]
  exact hj

theorem ChainOk.not_null {j : ℕ} {c : Chain ι} (h : ChainOk E itemKey n j c) :
    ¬ ∃ loc s, c.slotAt loc = some s ∧ s.Null := by
  rintro ⟨loc, s, hs, hb, hn⟩
  obtain ⟨p, hp, -⟩ := h loc s hs hb
  simp [hn] at hp

theorem ArrayOk.mem_chain (h : ArrayOk E itemKey n chains) {p : ι} (hp : p ∈ arrayBag chains)
    {c : Chain ι} (hc : chains[bucketIdx (E.xxh3 (itemKey p)) n]? = some c) : p ∈ c.bag := by
  obtain ⟨j, d, hd, hpd⟩ := mem_arrayBag.mp hp
  rw [(h.chain j d hd).idx hpd, hd, Option.some.injEq] at hc
  exact hc ▸ hpd

/-- Passing every slot with the tag of a key means that the key is absent. -/
theorem ChainOk.absent {j : ℕ} {c : Chain ι} (h : ChainOk E itemKey n j c) {key : List UInt8}
    (hm : ∀ loc s, c.slotAt loc = some s → s.Misses itemKey (hashTag (E.xxh3 key)) key) :
    ∀ p ∈ c.bag, itemKey p ≠ key := by
  intro p hp he
  obtain ⟨loc, s, hs, hb, hi⟩ := mem_chain_bag.mp hp
  obtain ⟨q, hq, ht, -⟩ := h loc s hs hb
  rw [hi, Option.some.injEq] at hq
  subst hq
  obtain ⟨r, hr, hne⟩ := hm loc s hs hb (by rw [ht, he])
  rw [hi, Option.some.injEq] at hr
  exact hne (hr ▸ he)

theorem ArrayOk.absent (h : ArrayOk E itemKey n chains) {key : List UInt8} {c : Chain ι}
    (hc : chains[bucketIdx (E.xxh3 key) n]? = some c)
    (hm : ∀ loc s, c.slotAt loc = some s → s.Misses itemKey (hashTag (E.xxh3 key)) key) :
    ∀ p ∈ arrayBag chains, itemKey p ≠ key := by
  intro p hp he
  exact (h.chain _ c hc).absent hm p (h.mem_chain hp (by rw [he]; exact hc)) he

theorem arrayGet_spec (h : ArrayOk E itemKey n chains) (key : List UInt8) :
    ∃ r, arrayGet itemKey chains n (E.xxh3 key) (hashTag (E.xxh3 key)) key = some r ∧
      (∀ p, r = some p → p ∈ arrayBag chains ∧ itemKey p = key) ∧
      (r = none → ∀ p ∈ arrayBag chains, itemKey p ≠ key) := by
  obtain ⟨c, hc⟩ := h.get (E.xxh3 key)
  simp -implicitDefEqProofs only [arrayGet, hc, Option.bind_eq_bind, Option.bind_some]
  cases hf : hashtableFindItemSlotInBucket itemKey c (hashTag (E.xxh3 key)) key with
  | none => exact absurd (find_null hf) (h.chain _ c hc).not_null
  | some r =>
    cases r with
    | none => exact ⟨none, rfl, by simp, fun _ => h.absent hc (find_miss hf)⟩
    | some loc =>
      obtain ⟨s, hs, hb, p, hp, hk⟩ := find_hit hf
      obtain ⟨b, hbk, rfl⟩ := slotAt_isSome hs
      refine ⟨some p, by simp [hbk, hp], fun q hq => ?_, by simp⟩
      simp only [Option.some.injEq] at hq
      subst hq
      exact ⟨mem_arrayBag.mpr ⟨_, c, hc, mem_chain_bag.mpr ⟨loc, _, hs, hb, hp⟩⟩, hk⟩

/-- Emptying one BUSY slot takes its item out of the bag and keeps every other slot. -/
theorem ArrayOk.emptied (h : ArrayOk E itemKey n chains) {j : ℕ} {c d : Chain ι} {loc : Loc}
    {s t : Slot ι} {p : ι} (hc : chains[j]? = some c) (hs : c.slotAt loc = some s)
    (hb : s.state = .busy) (hp : s.item = some p) (ht : d.slotAt loc = some t)
    (hempty : t.state = .empty) (hoff : ∀ l, l ≠ loc → d.slotAt l = c.slotAt l) :
    ArrayOk E itemKey n (chains.set j d) ∧ arrayBag chains = p ::ₘ arrayBag (chains.set j d) := by
  constructor
  · apply h.set
    intro l u hu
    by_cases hl : l = loc
    · subst hl
      rw [ht, Option.some.injEq] at hu
      exact slotOk_empty (hu ▸ hempty)
    · rw [hoff l hl] at hu
      exact h.chain j c hc l u hu
  · have hbag := chain_bag_off hs ht hoff
    rw [slot_bag_busy hb hp, slot_bag_empty hempty, add_zero] at hbag
    have hset := arrayBag_set d hc
    rw [← hbag, add_comm _ ({p} : Multiset ι), ← add_assoc] at hset
    rw [← add_right_cancel hset, add_comm, Multiset.singleton_add]

/-- Filling one EMPTY slot with an item whose key belongs there adds it to the bag. -/
theorem ArrayOk.filled (h : ArrayOk E itemKey n chains) {c d : Chain ι} {loc : Loc}
    {s : Slot ι} {p : ι} (hc : chains[bucketIdx (E.xxh3 (itemKey p)) n]? = some c)
    (hs : c.slotAt loc = some s) (hempty : s.state = .empty)
    (hd : d.slotAt loc = some ⟨.busy, hashTag (E.xxh3 (itemKey p)), some p⟩)
    (hoff : ∀ l, l ≠ loc → d.slotAt l = c.slotAt l) :
    ArrayOk E itemKey n (chains.set (bucketIdx (E.xxh3 (itemKey p)) n) d) ∧
      arrayBag (chains.set (bucketIdx (E.xxh3 (itemKey p)) n) d) = p ::ₘ arrayBag chains := by
  constructor
  · apply h.set
    intro l u hu
    by_cases hl : l = loc
    · subst hl
      rw [hd, Option.some.injEq] at hu
      subst hu
      exact fun _ => ⟨p, rfl, rfl, rfl⟩
    · rw [hoff l hl] at hu
      exact h.chain _ c hc l u hu
  · have hbag := chain_bag_off hs hd hoff
    rw [slot_bag_empty hempty, add_zero, slot_bag_busy rfl rfl] at hbag
    have hset := arrayBag_set d hc
    rw [hbag, add_comm c.bag, ← add_assoc] at hset
    rw [add_right_cancel hset, add_comm, Multiset.singleton_add]

theorem arrayDelete_spec (h : ArrayOk E itemKey n chains) (key : List UInt8) :
    ∃ r, arrayDelete itemKey chains n (E.xxh3 key) (hashTag (E.xxh3 key)) key = some r ∧
      (r = none → ∀ p ∈ arrayBag chains, itemKey p ≠ key) ∧
      ∀ chains' item, r = some (chains', item) → ∃ p c d, item = some p ∧ itemKey p = key ∧
        arrayBag chains = p ::ₘ arrayBag chains' ∧ ArrayOk E itemKey n chains' ∧
        chains[bucketIdx (E.xxh3 key) n]? = some c ∧
        chains' = chains.set (bucketIdx (E.xxh3 key) n) d ∧ (c.Clean → d.Clean) := by
  obtain ⟨c, hc⟩ := h.get (E.xxh3 key)
  simp -implicitDefEqProofs only [arrayDelete, hc, Option.bind_eq_bind, Option.bind_some]
  cases hf : hashtableFindItemSlotInBucket itemKey c (hashTag (E.xxh3 key)) key with
  | none => exact absurd (find_null hf) (h.chain _ c hc).not_null
  | some r =>
    cases r with
    | none => exact ⟨none, rfl, fun _ => h.absent hc (find_miss hf), by simp⟩
    | some loc =>
      obtain ⟨s, hs, hb, p, hp, hk⟩ := find_hit hf
      obtain ⟨b, hbk, rfl⟩ := slotAt_isSome hs
      let f : Bucket ι → Bucket ι := fun _ => hashtableBucketSetSlotItem
        (hashtableBucketSetSlotHashTag (hashtableBucketSetSlotState b loc.slot .empty) loc.slot 0#8)
        loc.slot none
      have hwrite : ∀ l, (c.modify loc.bucket f).slotAt l =
          if l = loc then some ⟨.empty, 0#8, none⟩ else c.slotAt l := by
        intro l
        rw [slotAt_write (i := loc.slot) hbk fun j hj => by simp [f, hj]]
        simp [f]
      have hat := hwrite loc
      rw [if_pos rfl] at hat
      obtain ⟨hok, hbag⟩ := h.emptied hc hs hb hp hat rfl fun l hl => by rw [hwrite, if_neg hl]
      refine ⟨some (chains.set (bucketIdx (E.xxh3 key) n) (c.modify loc.bucket f), some p), ?_,
        by simp, ?_⟩
      · simp [hbk, hp, f]
      · intro chains' item hr
        simp only [Option.some.injEq, Prod.mk.injEq] at hr
        obtain ⟨rfl, rfl⟩ := hr
        refine ⟨p, c, c.modify loc.bucket f, rfl, hk, hbag, hok, rfl, rfl, ?_⟩
        intro hclean l u hu he
        rw [hwrite] at hu
        split_ifs at hu with hl
        · rw [← Option.some.inj hu]
        · exact hclean l u hu he

end Keys

end Kvx.Hashtable
