import Kvx.TableOps

/-!
# Preparing a slot for a key

`hashtable_set` returns the slot of the key, or a claimed slot that holds `NULL`; the
invariant is whole again once the caller has stored an item with that key.
-/
namespace Kvx.Hashtable

open Kvx.Lib

variable {ι : Type} {E : Env} {itemKey : ι → List UInt8} {t : Table ι} {n : ℕ}
  {chains : List (Chain ι)} {key : List UInt8}

theorem noteCalloc_eq (t : Table ι) (grown : Bool) : t.noteCalloc grown =
    { t with fresh := (t.noteCalloc grown).fresh, trace := (t.noteCalloc grown).trace } := by
  cases grown <;> rfl

/-- What an array holds between the claim of a slot and the store: `item` is what is read in the
slot, `rest` are the items under other keys. -/
structure Prepared (E : Env) (itemKey : ι → List UInt8) (n : ℕ) (chains : List (Chain ι))
    (key : List UInt8) (side : Side) (r : ArraySet ι) (item : Option ι) (rest : Multiset ι) :
    Prop where
  read : readChains r.chains ⟨side, r.idx, r.loc⟩ = some item
  size : ∀ s, s = (arrayBag chains).card → (if r.claimed then s + 1 else s) = rest.card + 1
  absent : item = none → rest = arrayBag chains ∧ ∀ q ∈ arrayBag chains, itemKey q ≠ key
  present : ∀ q, item = some q → itemKey q = key ∧ arrayBag chains = q ::ₘ rest
  stored : ∀ (itemKey' : ι → List UInt8) (p : ι), itemKey' p = key →
    (∀ x ∈ rest, itemKey' x = itemKey x) →
    Stored E itemKey' n chains key (writeChains r.chains ⟨side, r.idx, r.loc⟩ (some p)) p rest

theorem arraySet_prepared (h : ArrayOk E itemKey n chains)
    (hclean : ∀ c, chains[bucketIdx (E.xxh3 key) n]? = some c → c.Clean) (addr : ℕ)
    (side : Side) :
    ∃ r item rest,
      arraySet itemKey addr chains n (E.xxh3 key) (hashTag (E.xxh3 key)) key = some r ∧
      Prepared E itemKey n chains key side r item rest := by
  obtain ⟨r, hrun⟩ := arraySet_total h addr key
  have hout := arraySet_outcome hrun
  cases hcl : r.claimed with
  | true =>
    obtain ⟨habs, hread, hst⟩ := stored_of_claim h hout hcl side
    refine ⟨r, none, arrayBag chains, hrun, hread hclean, ?_, fun _ => ⟨rfl, habs⟩, by simp, hst⟩
    rintro s rfl
    rw [if_pos hcl]
  | false =>
    obtain ⟨q, rest, hbag, hk, hread, hst⟩ := stored_of_hit h hout hcl side
    refine ⟨r, some q, rest, hrun, hread, ?_, by simp, fun p hp => ?_, hst⟩
    · rintro s rfl
      rw [hcl, hbag, Multiset.card_cons]
      rfl
    · rw [Option.some.injEq] at hp
      exact hp ▸ ⟨hk, hbag⟩

theorem modify_id (chain : Chain ι) (n : ℕ) : chain.modify n id = chain := by
  cases n with
  | zero => rfl
  | succ n =>
    obtain ⟨head, next⟩ := chain
    simp only [Chain.modify, id_eq, Chain.mk.injEq, true_and]
    exact List.modify_id n next

theorem writeChains_read {ref : SlotRef} {item : Option ι}
    (h : readChains chains ref = some item) : writeChains chains ref item = chains := by
  simp only [readChains, Option.bind_eq_bind, Option.bind_eq_some_iff, Option.some.injEq] at h
  obtain ⟨c, hc, b, hb, rfl⟩ := h
  have hset : hashtableBucketSetSlotItem b ref.loc.slot
      (hashtableBucketGetSlotItem b ref.loc.slot) = b := by
    obtain ⟨states, tags, items⟩ := b
    simp only [hashtableBucketSetSlotItem, hashtableBucketGetSlotItem, Bucket.mk.injEq, true_and]
    exact Vector.set_getElem_self _
  apply List.ext_getElem?
  intro m
  rw [writeChains, List.getElem?_modify]
  by_cases hm : ref.idx = m
  · subst hm
    rw [hc]
    simp only [↓reduceIte, Option.map_eq_map, Option.map_some, Option.some.injEq]
    exact (modify_congr hb (by rw [hset]; rfl)).trans (modify_id c ref.loc.bucket)
  · simp [hm]

theorem writeSlot_read {ref : SlotRef} {item : Option ι} (h : t.readSlot ref = some item) :
    t.writeSlot ref item = t := by
  simp only [Table.readSlot, Option.bind_eq_bind, Option.bind_eq_some_iff] at h
  obtain ⟨chains, hside, hread⟩ := h
  unfold Table.writeSlot
  cases hs : ref.side with
  | old =>
    rw [hs, Table.side, Option.some.injEq] at hside
    subst hside
    simp only [writeChains_read hread]
  | new =>
    rw [hs, Table.side, Option.map_eq_some_iff] at hside
    obtain ⟨m, hm, rfl⟩ := hside
    simp only [hm, Option.map_some, writeChains_read hread]
    rw [← hm]

/-- What a table holds between `hashtable_set` and the store of its caller. -/
structure SlotFor (E : Env) (itemKey : ι → List UInt8) (t : Table ι) (key : List UInt8)
    (t' : Table ι) (ref : SlotRef) (item : Option ι) (rest : Multiset ι) : Prop where
  read : t'.readSlot ref = some item
  absent : item = none → rest = t.bag ∧ ∀ p ∈ t.bag, itemKey p ≠ key
  present : ∀ q, item = some q → itemKey q = key ∧ t.bag = q ::ₘ rest
  stored : ∀ (itemKey' : ι → List UInt8) (p : ι), itemKey' p = key →
    (∀ x ∈ rest, itemKey' x = itemKey x) →
    TableInv E itemKey' (t'.writeSlot ref (some p)) ∧
      (t'.writeSlot ref (some p)).bag = p ::ₘ rest

theorem SlotFor.of_bag {t₀ t' : Table ι} {ref : SlotRef} {item : Option ι} {rest : Multiset ι}
    (h : SlotFor E itemKey t key t' ref item rest) (hb : t.bag = t₀.bag) :
    SlotFor E itemKey t₀ key t' ref item rest :=
  ⟨h.read, hb ▸ h.absent, hb ▸ h.present, h.stored⟩

theorem SlotFor.mem_rest {t' : Table ι} {ref : SlotRef} {item : Option ι} {rest : Multiset ι}
    (h : SlotFor E itemKey t key t' ref item rest) (hnd : (t.bag.map itemKey).Nodup) {q : ι} :
    q ∈ rest ↔ q ∈ t.bag ∧ itemKey q ≠ key := by
  cases hf : item with
  | none =>
    obtain ⟨rfl, hne⟩ := h.absent hf
    exact ⟨fun hq => ⟨hq, hne q hq⟩, fun hq => hq.1⟩
  | some r =>
    obtain ⟨hk, hbag⟩ := h.present r hf
    rw [hbag, Multiset.map_cons, Multiset.nodup_cons, hk] at hnd
    rw [hbag, Multiset.mem_cons]
    constructor
    · exact fun hq => ⟨Or.inr hq, fun he => hnd.1 (Multiset.mem_map.mpr ⟨q, hq, he⟩)⟩
    · rintro ⟨rfl | hq, hne⟩
      · exact absurd hk hne
      · exact hq

/-- An item stored under a key that no other item has keeps the keys distinct. -/
theorem nodup_stored {s rest : Multiset ι} {itemKey' : ι → List UInt8} {item : Option ι} {p : ι}
    (hnd : (s.map itemKey).Nodup)
    (habs : item = none → rest = s ∧ ∀ q ∈ s, itemKey q ≠ key)
    (hpres : ∀ q, item = some q → itemKey q = key ∧ s = q ::ₘ rest) (hp : itemKey' p = key)
    (hsame : ∀ x ∈ rest, itemKey' x = itemKey x) : ((p ::ₘ rest).map itemKey').Nodup := by
  have hrest : (rest.map itemKey).Nodup ∧ key ∉ rest.map itemKey := by
    cases item with
    | none =>
      obtain ⟨rfl, hne⟩ := habs rfl
      refine ⟨hnd, fun hm => ?_⟩
      obtain ⟨q, hq, he⟩ := Multiset.mem_map.mp hm
      exact hne q hq he
    | some q =>
      obtain ⟨hk, rfl⟩ := hpres q rfl
      rw [Multiset.map_cons, Multiset.nodup_cons, hk] at hnd
      exact ⟨hnd.2, hnd.1⟩
  rw [Multiset.map_cons, hp, Multiset.map_congr rfl hsame, Multiset.nodup_cons]
  exact ⟨hrest.2, hrest.1⟩

theorem prepared_bags {s u rest : Multiset ι} {item : Option ι}
    (hu : ∀ q ∈ u, itemKey q ≠ key)
    (habs : item = none → rest = s ∧ ∀ q ∈ s, itemKey q ≠ key)
    (hpres : ∀ q, item = some q → itemKey q = key ∧ s = q ::ₘ rest) :
    (item = none → rest + u = s + u ∧ ∀ q ∈ s + u, itemKey q ≠ key) ∧
      ∀ q, item = some q → itemKey q = key ∧ s + u = q ::ₘ (rest + u) := by
  refine ⟨fun hn => ?_, fun q hq => ?_⟩
  · obtain ⟨rfl, hne⟩ := habs hn
    refine ⟨rfl, fun q hq => ?_⟩
    rcases Multiset.mem_add.mp hq with hq | hq
    · exact hne q hq
    · exact hu q hq
  · obtain ⟨hk, rfl⟩ := hpres q hq
    exact ⟨hk, Multiset.cons_add q rest u⟩

theorem setOld_spec (h : TableInv E itemKey t)
    (hle : t.migrationPos ≤ bucketIdx (E.xxh3 key) t.oldBucketCount) :
    ∃ t' ref item rest,
      hashtableSetOld itemKey t (E.xxh3 key) (hashTag (E.xxh3 key)) key = some (t', ref) ∧
      SlotFor E itemKey t key t' ref item rest := by
  obtain ⟨r, item, rest, hrun, hprep⟩ := arraySet_prepared h.old_ok
    (fun c hc => h.old_clean _ c hle hc) t.fresh .old
  obtain ⟨habs, hpres⟩ := prepared_bags (h.absent_new hle) hprep.absent hprep.present
  simp -implicitDefEqProofs only [hashtableSetOld, hrun, Option.bind_eq_bind, Option.bind_some]
  refine ⟨_, _, item, rest + t.newBag, rfl, ?_, habs, hpres, fun itemKey' p hp hsame => ?_⟩
  · simp only [Table.readSlot, Table.side, Option.bind_eq_bind, Option.bind_some]
    exact hprep.read
  · have hst := hprep.stored itemKey' p hp fun x hx => hsame x (Multiset.mem_add.mpr (Or.inl hx))
    obtain ⟨d, hd, hclean⟩ := hst.at_idx
    have hok := hst.ok
    have hbag := hst.bag
    obtain ⟨c, hc⟩ := h.old_ok.get (E.xxh3 key)
    have hnd := nodup_stored h.nodup habs hpres hp hsame
    rw [← Multiset.cons_add, ← hbag] at hnd
    have hsize : (if r.claimed = true then t.oldSize + 1 else t.oldSize) =
        (arrayBag (t.oldBuckets.chains.set (bucketIdx (E.xxh3 key) t.oldBucketCount) d)).card := by
      rw [hprep.size _ h.old_size, ← hd, hbag, Multiset.card_cons]
    rw [noteCalloc_eq]
    simp only [Table.writeSlot, hsize, hd]
    rw [hd] at hok hbag hnd
    constructor
    · exact h.withOld hle hc (hclean c hc) hok
        (fun x hx => hsame x (Multiset.mem_add.mpr (Or.inr hx))) hnd _ _
    · rw [← Multiset.cons_add, ← hbag]
      rfl

theorem setNew_spec {m : Mapping ι} (h : TableInv E itemKey t) (hm : t.newBuckets = some m)
    (hlt : bucketIdx (E.xxh3 key) t.oldBucketCount < t.migrationPos) :
    ∃ t' ref item rest,
      hashtableSetNew itemKey t (E.xxh3 key) (hashTag (E.xxh3 key)) key = some (t', ref) ∧
      SlotFor E itemKey t key t' ref item rest := by
  have hr := h.running m hm
  obtain ⟨r, item, rest, hrun, hprep⟩ := arraySet_prepared hr.ok
    (fun c hc => hr.clean _ c hc) t.fresh .new
  obtain ⟨habs, hpres⟩ := prepared_bags (h.absent_old hm hlt) hprep.absent hprep.present
  have hcomm : arrayBag m.chains + arrayBag t.oldBuckets.chains = t.bag := by
    rw [Table.bag_some hm, add_comm]
  rw [hcomm] at habs hpres
  simp -implicitDefEqProofs only [hashtableSetNew, hm, hrun, Option.bind_eq_bind,
    Option.bind_some]
  refine ⟨_, _, item, rest + arrayBag t.oldBuckets.chains, rfl, ?_, habs, hpres,
    fun itemKey' p hp hsame => ?_⟩
  · simp only [Table.readSlot, Table.side, Option.map_some, Option.bind_eq_bind, Option.bind_some]
    exact hprep.read
  · have hst := hprep.stored itemKey' p hp fun x hx => hsame x (Multiset.mem_add.mpr (Or.inl hx))
    obtain ⟨d, hd, hclean⟩ := hst.at_idx
    have hok := hst.ok
    have hbag := hst.bag
    have hnd := nodup_stored h.nodup habs hpres hp hsame
    rw [← Multiset.cons_add, ← hbag, add_comm] at hnd
    have hsize : (if r.claimed = true then t.newSize + 1 else t.newSize) =
        (arrayBag (writeChains r.chains ⟨.new, r.idx, r.loc⟩ (some p))).card := by
      rw [hprep.size _ hr.size, hbag, Multiset.card_cons]
    have hrest : ∀ x ∈ rest, x ∈ arrayBag m.chains := by
      intro x hx
      cases item with
      | none => rwa [← (hprep.absent rfl).1]
      | some q =>
        rw [(hprep.present q rfl).2]
        exact Multiset.mem_cons_of_mem hx
    rw [noteCalloc_eq]
    simp only [Table.writeSlot, Option.map_some, hsize]
    constructor
    · refine h.withNew hm (fun hall => ?_) hok
        (fun x hx => hsame x (Multiset.mem_add.mpr (Or.inr hx))) (fun x hx => ?_) hnd _ _
      · rw [hd]
        exact hall.set hclean
      · rw [hbag, Multiset.mem_cons] at hx
        rcases hx with rfl | hx
        · rw [hp]
          exact hlt
        · rw [hsame x (Multiset.mem_add.mpr (Or.inl hx))]
          exact hr.routed x (hrest x hx)
    · rw [← Multiset.cons_add, ← hbag]
      exact add_comm _ _

theorem checkInit_pos (granted : Bool)
    (hle : t.migrationPos ≤ bucketIdx (E.xxh3 key) t.oldBucketCount) :
    (hashtableCheckInitMigration E granted t).migrationPos ≤
      bucketIdx (E.xxh3 key) (hashtableCheckInitMigration E granted t).oldBucketCount := by
  unfold hashtableCheckInitMigration
  split_ifs
  · exact hle
  · dsimp only
    split <;> exact hle

theorem set_spec (h : TableInv E itemKey t) (granted : Bool) (key : List UInt8) :
    ∃ t' ref item rest, hashtableSet E itemKey granted t (E.xxh3 key) key = some (t', ref) ∧
      SlotFor E itemKey t key t' ref item rest := by
  obtain ⟨t₁, hrun₁, hinv₁, hbag₁⟩ := maintenance_spec h
  simp -implicitDefEqProofs only [hashtableSet, hrun₁, Option.bind_eq_bind, Option.bind_some]
  cases hside : hashtableItemInNewBucket t₁ (E.xxh3 key) with
  | true =>
    obtain ⟨⟨m, hm⟩, hlt⟩ := inNew_true hside
    obtain ⟨t', ref, item, rest, hrun, hslot⟩ := setNew_spec hinv₁ hm hlt
    exact ⟨t', ref, item, rest, hrun, hslot.of_bag hbag₁⟩
  | false =>
    have hle := inNew_false hinv₁ hside
    obtain ⟨hinv₂, hbag₂⟩ := checkInit_spec hinv₁ granted
    have hpos := checkInit_pos granted hle
    obtain ⟨t', ref, item, rest, hrun, hslot⟩ := setOld_spec hinv₂ hpos
    exact ⟨t', ref, item, rest, hrun, hslot.of_bag (hbag₂.trans hbag₁)⟩

end Kvx.Hashtable
