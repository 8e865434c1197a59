import Kvx.BucketArray

/-!
# Setting a key in one bucket array

`hashtable_set` only prepares a slot: the caller stores the item. The slot is the one
that holds the key, or an EMPTY slot that is now BUSY, carries the tag and still holds
whatever pointer it held.
-/
namespace Kvx.Hashtable

open Kvx.Lib

variable {ι : Type} {E : Env} {itemKey itemKey' : ι → List UInt8} {n : ℕ}
  {chains : List (Chain ι)} {key : List UInt8}

inductive ArraySetOutcome (E : Env) (itemKey : ι → List UInt8) (n : ℕ) (chains : List (Chain ι))
    (key : List UInt8) : ArraySet ι → Prop
  | hit {c : Chain ι} {loc : Loc} {s : Slot ι}
      (at_idx : chains[bucketIdx (E.xxh3 key) n]? = some c) (at_loc : c.slotAt loc = some s)
      (hits : s.Hits itemKey key) :
      ArraySetOutcome E itemKey n chains key
        ⟨chains.set (bucketIdx (E.xxh3 key) n) c, bucketIdx (E.xxh3 key) n, loc, false, false⟩
  | claim {c c' d : Chain ι} {loc : Loc} {s : Slot ι} {grown : Bool}
      (at_idx : chains[bucketIdx (E.xxh3 key) n]? = some c)
      (misses : ∀ l s, c.slotAt l = some s → s.Misses itemKey (hashTag (E.xxh3 key)) key)
      (ext : Extends c c') (at_loc : c'.slotAt loc = some s) (empty : s.state = .empty)
      (claimed : ∀ l, d.slotAt l =
        if l = loc then some ⟨.busy, hashTag (E.xxh3 key), s.item⟩ else c'.slotAt l) :
      ArraySetOutcome E itemKey n chains key
        ⟨chains.set (bucketIdx (E.xxh3 key) n) d, bucketIdx (E.xxh3 key) n, loc, grown, true⟩

theorem arraySet_outcome {addr : ℕ} {r : ArraySet ι}
    (h : arraySet itemKey addr chains n (E.xxh3 key) (hashTag (E.xxh3 key)) key = some r) :
    ArraySetOutcome E itemKey n chains key r := by
  simp only [arraySet, Option.bind_eq_bind, Option.bind_eq_some_iff] at h
  obtain ⟨c, hc, found, hf, b, hb, hr⟩ := h
  have hat : found.chain.slotAt found.loc = some (b.slot found.loc.slot) := by
    simp [Chain.slotAt, hb]
  cases locate_spec hf with
  | hit at_loc hits =>
    rw [at_loc, Option.some.injEq] at hat
    have hbusy := hits.1
    rw [hat] at hbusy
    rw [getSlotState_eq_slot, if_neg (by simp [hbusy]), Option.some.injEq] at hr
    subst hr
    exact .hit hc at_loc hits
  | claim misses ext at_loc empty =>
    rw [at_loc, Option.some.injEq] at hat
    rw [getSlotState_eq_slot, ← hat, if_pos empty, Option.some.injEq] at hr
    subst hr
    refine .claim hc misses ext at_loc empty fun l => ?_
    rw [slotAt_write (i := found.loc.slot) hb fun j hj => by simp [hj]]
    simp [hat]

/-- The array is indexed in range and no key is read through `NULL`. -/
theorem arraySet_total (h : ArrayOk E itemKey n chains) (addr : ℕ) (key : List UInt8) :
    ∃ r, arraySet itemKey addr chains n (E.xxh3 key) (hashTag (E.xxh3 key)) key = some r := by
  obtain ⟨c, hc⟩ := h.get (E.xxh3 key)
  cases hl : locate itemKey c addr (hashTag (E.xxh3 key)) key with
  | none => exact absurd (locate_null hl) (h.chain _ c hc).not_null
  | some found =>
    have hb : ∃ b, found.chain.buckets[found.loc.bucket]? = some b := by
      cases locate_spec hl with
      | hit at_loc _ => exact (slotAt_isSome at_loc).imp fun _ hb => hb.1
      | claim _ _ at_loc _ => exact (slotAt_isSome at_loc).imp fun _ hb => hb.1
    obtain ⟨b, hb⟩ := hb
    simp -implicitDefEqProofs only [arraySet, hc, hl, hb, Option.bind_eq_bind, Option.bind_some]
    split_ifs <;> exact ⟨_, rfl⟩

/-- `*item_slot_ptr = item` in terms of the chain that the slot lies in. -/
theorem writeChains_set {j : ℕ} {d : Chain ι} (hj : j < chains.length) (side : Side) (loc : Loc)
    (item : Option ι) :
    writeChains (chains.set j d) ⟨side, j, loc⟩ item =
      chains.set j
        (d.modify loc.bucket fun b => hashtableBucketSetSlotItem b loc.slot item) := by
  apply List.ext_getElem?
  intro m
  simp only [writeChains]
  rw [List.getElem?_modify, List.getElem?_set, List.getElem?_set]
  by_cases hm : j = m
  · subst hm
    simp [hj]
  · simp [hm]

theorem readChains_set {j : ℕ} {d : Chain ι} {loc : Loc} {s : Slot ι} (hj : j < chains.length)
    (hs : d.slotAt loc = some s) (side : Side) :
    readChains (chains.set j d) ⟨side, j, loc⟩ = some s.item := by
  obtain ⟨b, hb, rfl⟩ := slotAt_isSome hs
  simp [readChains, hj, hb]

theorem Chain.Clean.filled {c d : Chain ι} {loc : Loc} {tag : BitVec 8} {item : Option ι}
    (h : c.Clean)
    (hd : ∀ l, d.slotAt l = if l = loc then some ⟨.busy, tag, item⟩ else c.slotAt l) :
    d.Clean := by
  intro l u hu hue
  rw [hd] at hu
  split_ifs at hu with hl
  · rw [← Option.some.inj hu] at hue
    cases hue
  · exact h l u hu hue

theorem Extends.clean {c c' : Chain ι} (ext : Extends c c') (h : c.Clean) : c'.Clean := by
  intro l u hu hue
  rcases ext.added l u hu with hu | rfl
  · exact h l u hu hue
  · rfl

theorem ArrayOk.extended {idx : ℕ} {c c' : Chain ι} (h : ArrayOk E itemKey n chains)
    (hc : chains[idx]? = some c) (ext : Extends c c') :
    ArrayOk E itemKey n (chains.set idx c') ∧ arrayBag (chains.set idx c') = arrayBag chains := by
  constructor
  · apply h.set
    intro l u hu
    rcases ext.added l u hu with hu | rfl
    · exact h.chain _ c hc l u hu
    · exact slotOk_empty rfl
  · have hset := arrayBag_set c' hc
    rw [ext.bag_eq] at hset
    exact add_right_cancel hset

/-- What the array holds once the caller has stored an item in the prepared slot. -/
structure Stored (E : Env) (itemKey : ι → List UInt8) (n : ℕ) (chains : List (Chain ι))
    (key : List UInt8) (chains' : List (Chain ι)) (p : ι) (rest : Multiset ι) : Prop where
  ok : ArrayOk E itemKey n chains'
  bag : arrayBag chains' = p ::ₘ rest
  at_idx : ∃ d, chains' = chains.set (bucketIdx (E.xxh3 key) n) d ∧
    ∀ c, chains[bucketIdx (E.xxh3 key) n]? = some c → c.Clean → d.Clean

/-- The key was present: its item is read in the slot, and is replaced by the stored one. -/
theorem stored_of_hit (h : ArrayOk E itemKey n chains) {r : ArraySet ι}
    (hr : ArraySetOutcome E itemKey n chains key r) (hclaim : r.claimed = false) (side : Side) :
    ∃ q rest, arrayBag chains = q ::ₘ rest ∧ itemKey q = key ∧
      readChains r.chains ⟨side, r.idx, r.loc⟩ = some (some q) ∧
      ∀ (itemKey' : ι → List UInt8) (p : ι), itemKey' p = key →
        (∀ x ∈ rest, itemKey' x = itemKey x) →
        Stored E itemKey' n chains key (writeChains r.chains ⟨side, r.idx, r.loc⟩ (some p)) p
          rest := by
  cases hr with
  | claim _ _ _ _ _ _ => simp at hclaim
  | @hit c loc s at_idx at_loc hits =>
    obtain ⟨hb, q, hq, hk⟩ := hits
    -- the chain with the slot emptied carries the items that stay
    obtain ⟨b, hbk, rfl⟩ := slotAt_isSome at_loc
    let e := c.modify loc.bucket fun _ => hashtableBucketSetSlotState b loc.slot .empty
    have he : ∀ l, e.slotAt l =
        if l = loc then some { b.slot loc.slot with state := .empty } else c.slotAt l := by
      intro l
      rw [slotAt_write (i := loc.slot) hbk fun j hj => by simp [hj]]
      simp
    have hat := he loc
    rw [if_pos rfl] at hat
    obtain ⟨hok, hbag⟩ := h.emptied at_idx at_loc hb hq hat rfl fun l hl => by rw [he, if_neg hl]
    have hlt := (List.getElem?_eq_some_iff.mp at_idx).1
    refine ⟨q, _, hbag, hk, ?_, ?_⟩
    · rw [readChains_set hlt at_loc, hq]
    · intro itemKey' p hp hsame
      rw [writeChains_set hlt]
      have htag : (b.slot loc.slot).tag = hashTag (E.xxh3 (itemKey' p)) := by
        obtain ⟨q', hq', ht, -⟩ := h.chain _ c at_idx loc _ at_loc hb
        rw [hq, Option.some.injEq] at hq'
        rw [ht, ← hq', hk, hp]
      have hd : ∀ l, (c.modify loc.bucket fun b =>
          hashtableBucketSetSlotItem b loc.slot (some p)).slotAt l =
            if l = loc then some ⟨.busy, hashTag (E.xxh3 (itemKey' p)), some p⟩
            else c.slotAt l := by
        intro l
        rw [slotAt_setItem at_loc, ← htag, ← hb]
      have hdl := hd loc
      rw [if_pos rfl] at hdl
      have hset : (chains.set (bucketIdx (E.xxh3 key) n) e)[bucketIdx (E.xxh3 (itemKey' p)) n]? =
          some e := by rw [hp, List.getElem?_set_self hlt]
      obtain ⟨hfok, hfbag⟩ := (hok.congr hsame).filled hset hat rfl hdl
        fun l hl => by rw [hd, he, if_neg hl, if_neg hl]
      rw [hp, List.set_set] at hfok hfbag
      refine ⟨hfok, hfbag, _, rfl, fun c' hc' hclean => ?_⟩
      rw [at_idx, Option.some.injEq] at hc'
      subst hc'
      exact hclean.filled hd

/-- The key was absent: a clean chain gives a slot that holds `NULL`. -/
theorem stored_of_claim (h : ArrayOk E itemKey n chains) {r : ArraySet ι}
    (hr : ArraySetOutcome E itemKey n chains key r) (hclaim : r.claimed = true) (side : Side) :
    (∀ q ∈ arrayBag chains, itemKey q ≠ key) ∧
      ((∀ c, chains[bucketIdx (E.xxh3 key) n]? = some c → c.Clean) →
        readChains r.chains ⟨side, r.idx, r.loc⟩ = some none) ∧
      ∀ (itemKey' : ι → List UInt8) (p : ι), itemKey' p = key →
        (∀ x ∈ arrayBag chains, itemKey' x = itemKey x) →
        Stored E itemKey' n chains key (writeChains r.chains ⟨side, r.idx, r.loc⟩ (some p)) p
          (arrayBag chains) := by
  cases hr with
  | hit _ _ _ => simp at hclaim
  | @claim c c' d loc s grown at_idx misses ext at_loc empty claimed =>
    have hlt := (List.getElem?_eq_some_iff.mp at_idx).1
    have hdl := claimed loc
    rw [if_pos rfl] at hdl
    refine ⟨h.absent at_idx misses, ?_, ?_⟩
    · intro hclean
      rw [readChains_set hlt hdl, ext.clean (hclean c at_idx) loc s at_loc empty]
    · intro itemKey' p hp hsame
      rw [writeChains_set hlt]
      have hw : ∀ l, (d.modify loc.bucket fun b =>
          hashtableBucketSetSlotItem b loc.slot (some p)).slotAt l =
            if l = loc then some ⟨.busy, hashTag (E.xxh3 (itemKey' p)), some p⟩
            else c'.slotAt l := by
        intro l
        rw [slotAt_setItem hdl, hp]
        split_ifs with hl
        · rfl
        · rw [claimed, if_neg hl]
      have hwl := hw loc
      rw [if_pos rfl] at hwl
      obtain ⟨hext, hextbag⟩ := h.extended at_idx ext
      have hset : (chains.set (bucketIdx (E.xxh3 key) n) c')[bucketIdx (E.xxh3 (itemKey' p)) n]? =
          some c' := by rw [hp, List.getElem?_set_self hlt]
      obtain ⟨hfok, hfbag⟩ := (hext.congr (by rw [hextbag]; exact hsame)).filled hset at_loc empty
        hwl fun l hl => by rw [hw, if_neg hl]
      rw [hp, List.set_set] at hfok hfbag
      refine ⟨hfok, by rw [hfbag, hextbag], _, rfl, fun c₀ hc₀ hclean => ?_⟩
      rw [at_idx, Option.some.injEq] at hc₀
      subst hc₀
      exact (ext.clean hclean).filled hw

end Kvx.Hashtable
