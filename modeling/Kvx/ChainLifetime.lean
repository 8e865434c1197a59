import Kvx.ChainLedger

/-!
# Each chained bucket is freed once

Migration frees the chains it has walked over, and `hashtable_destroy` frees those that the
two arrays still lead to. Nothing is lost when an old array is unmapped in between.
-/
namespace Kvx.Hashtable

open Kvx.Lib

variable {ι : Type} {E : Env} {itemKey : ι → List UInt8} {t t' : Table ι}

/-- The old array as `hashtable_finish_migration` should find it. -/
structure Emptied (t : Table ι) : Prop where
  heads : ∀ chain ∈ t.oldBuckets.chains,
    (∀ i, hashtableBucketGetSlotState chain.head i = .empty) ∧ chain.next = []
  size : t.oldSize = 0

/-- What becomes of the chained buckets of a table, should it be destroyed now. -/
structure FreedOnce (E : Env) (w : World ι) : Prop where
  once : ∀ addr, .calloc addr ∈ hashtableDestroy w.table →
    (hashtableDestroy w.table).count (.calloc addr) = 1 ∧
    (hashtableDestroy w.table).count (.free addr) = 1
  only : ∀ addr, .free addr ∈ hashtableDestroy w.table → .calloc addr ∈ hashtableDestroy w.table
  unreachable : ∀ addr, .free addr ∈ w.table.trace → addr ∉ w.table.addrs
  -- the table that the next migration step hands to `hashtable_finish_migration`
  emptied : w.table.newBuckets.isSome → ∀ t, hashtableMigrateBucket E w.itemKey
      { w.table with migrationPos := w.table.migrationPos + 1 } w.table.migrationPos = some t →
    t.migrationPos = t.oldBucketCount → Emptied t

/-- All chained buckets are accounted for, and migrated buckets have none. -/
structure ChainsInv (t : Table ι) : Prop where
  balanced : Balanced t 0
  drained : ∀ (j : ℕ) (c : Chain ι), j < t.migrationPos → t.oldBuckets.chains[j]? = some c →
    c.addrs = 0

/-- The old array after its chain at `migrationPos` was drained. -/
theorem ChainsInv.migrateBucket (h : ChainsInv t)
    (hrun : hashtableMigrateBucket E itemKey { t with migrationPos := t.migrationPos + 1 }
      t.migrationPos = some t') :
    Balanced t' 0 ∧ ∀ (j : ℕ) (c : Chain ι), j < t.migrationPos + 1 →
      t'.oldBuckets.chains[j]? = some c → c.addrs = 0 := by
  have hbal : Balanced { t with migrationPos := t.migrationPos + 1 } 0 :=
    h.balanced.of_eq rfl rfl rfl rfl
  obtain ⟨hbal', head, hchains⟩ := hbal.migrateBucket hrun
  refine ⟨hbal', fun j c hj hc => ?_⟩
  rw [hchains, List.getElem?_set] at hc
  split_ifs at hc with he
  · rw [← Option.some.inj hc]
    rfl
  · exact h.drained j c (by omega) hc

theorem arrayAddrs_eq_zero {chains : List (Chain ι)} (h : ∀ c ∈ chains, c.addrs = 0) :
    arrayAddrs chains = 0 := by
  apply List.sum_eq_zero
  intro a ha
  obtain ⟨c, hc, rfl⟩ := List.mem_map.mp ha
  exact h c hc

theorem ChainsInv.maintenance (h : ChainsInv t) (hinv : TableInv E itemKey t)
    (hrun : hashtableMaintenance E itemKey t = some t') : ChainsInv t' := by
  rcases maintenance_cases hrun with ⟨hnone, rfl⟩ | ⟨t₁, m₁, hsome, h₁, hm₁, rfl⟩
  · exact h
  have hkept := Kept.migrateBucket h₁
  obtain ⟨hbal₁, hdrained₁⟩ := h.migrateBucket h₁
  split_ifs with hlast
  · -- all chains of the old array are empty, and it goes away
    obtain ⟨-, head, hchains⟩ := (h.balanced.of_eq rfl rfl rfl rfl :
      Balanced { t with migrationPos := t.migrationPos + 1 } 0).migrateBucket h₁
    have hold : arrayAddrs t₁.oldBuckets.chains = 0 := by
      refine arrayAddrs_eq_zero fun c hc => ?_
      obtain ⟨j, hj⟩ := List.getElem?_of_mem hc
      have hlt := (List.getElem?_eq_some_iff.mp hj).1
      rw [hchains, List.length_set, hinv.old_ok.length] at hlt
      exact hdrained₁ j c (by omega) hj
    refine ⟨hbal₁.of_eq (zero_add _) (zero_add _) rfl ?_,
      fun j c hj => absurd hj (Nat.not_lt_zero j)⟩
    rw [Table.addrs, Table.addrs, hold, hm₁, zero_add]
    exact add_zero _
  · refine ⟨hbal₁, fun j c hj hc => hdrained₁ j c ?_ hc⟩
    rwa [hkept.migrationPos] at hj

theorem ChainsInv.checkInit (h : ChainsInv t) (granted : Bool) :
    ChainsInv (hashtableCheckInitMigration E granted t) := by
  unfold hashtableCheckInitMigration
  split_ifs with hstay
  · exact h
  dsimp only
  split
  · exact h
  · next bytes _ =>
    have hnone : t.newBuckets = none := by simpa using (not_or.mp hstay).2
    refine ⟨h.balanced.of_eq (zero_add _) (zero_add _) rfl ?_, h.drained⟩
    have hzero : arrayAddrs (List.replicate (Pages.sizeT (t.oldBucketCount * 2))
        (Chain.zero : Chain ι)) = 0 :=
      arrayAddrs_eq_zero fun c hc => by rw [List.eq_of_mem_replicate hc]; rfl
    simp only [Table.addrs, Option.elim_some, hzero, hnone, Option.elim_none]

theorem ChainsInv.of_old (h : ChainsInv t) (hbal : Balanced t' 0)
    (hpos : t'.migrationPos = t.migrationPos)
    (hold : ∀ (j : ℕ) (d : Chain ι), j < t.migrationPos → t'.oldBuckets.chains[j]? = some d →
      ∃ c, t.oldBuckets.chains[j]? = some c ∧ d.addrs = c.addrs) : ChainsInv t' := by
  refine ⟨hbal, fun j d hj hd => ?_⟩
  rw [hpos] at hj
  obtain ⟨c, hc, he⟩ := hold j d hj hd
  exact he.trans (h.drained j c hj hc)

theorem same_addrs {chains chains' : List (Chain ι)}
    (h : chains'.map Chain.addrs = chains.map Chain.addrs) {j : ℕ} {d : Chain ι}
    (hd : chains'[j]? = some d) : ∃ c, chains[j]? = some c ∧ d.addrs = c.addrs := by
  have hj := congrArg (·[j]?) h
  simp only [List.getElem?_map, hd, Option.map_some] at hj
  obtain ⟨c, hc, he⟩ := Option.map_eq_some_iff.mp hj.symm
  exact ⟨c, hc, he.symm⟩

theorem ChainsInv.setOld {hash : BitVec 64} {tag : BitVec 8} {key : List UInt8} {ref : SlotRef}
    (h : ChainsInv t) (hle : t.migrationPos ≤ bucketIdx hash t.oldBucketCount)
    (hrun : hashtableSetOld itemKey t hash tag key = some (t', ref)) : ChainsInv t' := by
  have hkept := Kept.setOld hrun
  simp only [hashtableSetOld, Option.bind_eq_bind, Option.bind_eq_some_iff, Option.some.injEq,
    Prod.mk.injEq] at hrun
  obtain ⟨r, hr, rfl, -⟩ := hrun
  obtain ⟨c, d, hc, hchains, hd⟩ := addrs_arraySet hr
  refine h.of_old (h.balanced.grow r.grown rfl rfl ?_) hkept.migrationPos fun j e hj he => ?_
  · have hset := arrayAddrs_set hc hd
    rw [← hchains] at hset
    rw [noteCalloc_eq]
    simp only [Table.addrs, hset]
    exact add_right_comm _ _ _
  · have hne : bucketIdx hash t.oldBucketCount ≠ j := by omega
    simp only [hchains, List.getElem?_set, if_neg hne] at he
    exact ⟨e, he, rfl⟩

theorem ChainsInv.setNew {hash : BitVec 64} {tag : BitVec 8} {key : List UInt8} {ref : SlotRef}
    (h : ChainsInv t) (hrun : hashtableSetNew itemKey t hash tag key = some (t', ref)) :
    ChainsInv t' := by
  have hkept := Kept.setNew hrun
  simp only [hashtableSetNew, Option.bind_eq_bind, Option.bind_eq_some_iff, Option.some.injEq,
    Prod.mk.injEq] at hrun
  obtain ⟨m, hm, r, hr, rfl, -⟩ := hrun
  obtain ⟨c, d, hc, hchains, hd⟩ := addrs_arraySet hr
  refine h.of_old (h.balanced.grow r.grown rfl rfl ?_) hkept.migrationPos fun j e _ he => ?_
  · have hset := arrayAddrs_set hc hd
    rw [← hchains] at hset
    rw [noteCalloc_eq]
    simp only [Table.addrs, hm, Option.elim_some, hset]
    exact (add_assoc _ _ _).symm
  · rw [noteCalloc_eq] at he
    exact ⟨e, he, rfl⟩

theorem ChainsInv.writeSlot (h : ChainsInv t) (ref : SlotRef) (item : Option ι) :
    ChainsInv (t.writeSlot ref item) := by
  unfold Table.writeSlot
  cases ref.side with
  | old =>
    refine h.of_old (h.balanced.of_eq rfl rfl rfl ?_) rfl fun j d _ hd =>
      same_addrs (addrs_writeChains _ ref item) hd
    simp only [Table.addrs, arrayAddrs, addrs_writeChains]
  | new =>
    refine h.of_old (h.balanced.of_eq rfl rfl rfl ?_) rfl fun j d _ hd => ⟨d, hd, rfl⟩
    cases hm : t.newBuckets <;> simp [Table.addrs, arrayAddrs, hm, addrs_writeChains]

theorem ChainsInv.deleteOld {hash : BitVec 64} {tag : BitVec 8} {key : List UInt8}
    {item : Option ι} (h : ChainsInv t)
    (hrun : hashtableDeleteOld itemKey t hash tag key = some (t', item)) : ChainsInv t' := by
  have hkept := Kept.deleteOld hrun
  simp only [hashtableDeleteOld, Option.bind_eq_bind, Option.bind_eq_some_iff] at hrun
  obtain ⟨r, hr, hrun⟩ := hrun
  cases r with
  | none =>
    simp only [Option.some.injEq, Prod.mk.injEq] at hrun
    exact hrun.1 ▸ h
  | some r =>
    simp only [Option.some.injEq, Prod.mk.injEq] at hrun
    obtain ⟨rfl, -⟩ := hrun
    have hsame := addrs_arrayDelete hr
    refine h.of_old (h.balanced.of_eq rfl rfl rfl ?_) hkept.migrationPos fun j d _ hd => same_addrs hsame hd
    simp only [Table.addrs, arrayAddrs, hsame]

theorem ChainsInv.deleteNew {hash : BitVec 64} {tag : BitVec 8} {key : List UInt8}
    {item : Option ι} (h : ChainsInv t)
    (hrun : hashtableDeleteNew itemKey t hash tag key = some (t', item)) : ChainsInv t' := by
  have hkept := Kept.deleteNew hrun
  simp only [hashtableDeleteNew, Option.bind_eq_bind, Option.bind_eq_some_iff] at hrun
  obtain ⟨m, hm, r, hr, hrun⟩ := hrun
  cases r with
  | none =>
    simp only [Option.some.injEq, Prod.mk.injEq] at hrun
    exact hrun.1 ▸ h
  | some r =>
    simp only [Option.some.injEq, Prod.mk.injEq] at hrun
    obtain ⟨rfl, -⟩ := hrun
    have hsame := addrs_arrayDelete hr
    refine h.of_old (h.balanced.of_eq rfl rfl rfl ?_) hkept.migrationPos fun j d _ hd => ⟨d, hd, rfl⟩
    simp only [Table.addrs, arrayAddrs, hm, Option.elim_some, hsame]

theorem ChainsInv.set {ref : SlotRef} {granted : Bool} {key : List UInt8} (h : ChainsInv t)
    (hinv : TableInv E itemKey t)
    (hrun : hashtableSet E itemKey granted t (E.xxh3 key) key = some (t', ref)) :
    ChainsInv t' := by
  simp only [hashtableSet, Option.bind_eq_bind, Option.bind_eq_some_iff] at hrun
  obtain ⟨t₁, hmaint, hrun⟩ := hrun
  have h₁ := h.maintenance hinv hmaint
  obtain ⟨t₂, hmaint', hinv₁, -⟩ := maintenance_spec hinv
  rw [hmaint, Option.some.injEq] at hmaint'
  subst hmaint'
  split_ifs at hrun with hside
  · exact h₁.setNew hrun
  · have hle := inNew_false hinv₁ (Bool.not_eq_true _ ▸ hside)
    exact (h₁.checkInit granted).setOld (checkInit_pos granted hle) hrun

theorem ChainsInv.delete {key : List UInt8} {item : Option ι} (h : ChainsInv t)
    (hinv : TableInv E itemKey t)
    (hrun : hashtableDelete E itemKey t (E.xxh3 key) key = some (t', item)) : ChainsInv t' := by
  simp only [hashtableDelete, Option.bind_eq_bind, Option.bind_eq_some_iff] at hrun
  obtain ⟨t₁, hmaint, hrun⟩ := hrun
  have h₁ := h.maintenance hinv hmaint
  split_ifs at hrun
  · exact h₁.deleteNew hrun
  · exact h₁.deleteOld hrun

theorem ChainsInv.runOp {w w' : World ι} {op : Op ι} {out : Outcome ι}
    (h : ChainsInv w.table) (hinv : TableInv E w.itemKey w.table)
    (hrun : runOp E w op = some (w', out)) : ChainsInv w'.table := by
  cases op with
  | get key =>
    simp only [Hashtable.runOp, Option.bind_eq_bind, Option.bind_eq_some_iff, Option.some.injEq,
      Prod.mk.injEq] at hrun
    obtain ⟨found, -, rfl, -⟩ := hrun
    exact h
  | set granted key item keys =>
    simp only [Hashtable.runOp, Option.bind_eq_bind, Option.bind_eq_some_iff, Option.some.injEq,
      Prod.mk.injEq] at hrun
    obtain ⟨⟨t', ref⟩, hset, found, -, rfl, -⟩ := hrun
    exact (h.set hinv hset).writeSlot ref (some item)
  | delete key =>
    simp only [Hashtable.runOp, Option.bind_eq_bind, Option.bind_eq_some_iff, Option.some.injEq,
      Prod.mk.injEq] at hrun
    obtain ⟨⟨t', item⟩, hdel, rfl, -⟩ := hrun
    exact h.delete hinv hdel

theorem ChainsInv.runTo {w : World ι} {M : ItemMap ι} (h : ChainsInv w.table)
    (href : Refines E w M) {ops : List (Op ι)} (hst : StoresAll M w.itemKey ops) :
    ∃ w' M', runTo E w ops = some w' ∧ ChainsInv w'.table ∧ Refines E w' M' := by
  induction ops generalizing w M with
  | nil => exact ⟨w, M, rfl, h, href⟩
  | cons op ops ih =>
    obtain ⟨hop, hops⟩ := hst
    obtain ⟨w₁, out, hrun, hkeys, href₁, -⟩ := runOp_refines href hop
    obtain ⟨w', M', hrest, h', href'⟩ := ih (h.runOp href.inv hrun) href₁ (hkeys ▸ hops)
    refine ⟨w', M', ?_, h', href'⟩
    rw [Hashtable.runTo, hrun]
    exact hrest

theorem init_chains {granted : Bool} {leftover cap : ℕ}
    (hinit : hashtableInit E granted leftover cap = some t) : ChainsInv t := by
  simp only [hashtableInit] at hinit
  split_ifs at hinit
  all_goals
    split at hinit
    · simp at hinit
    · rw [Option.some.injEq] at hinit
      subst hinit
      refine ⟨⟨?_, Multiset.nodup_zero, fun addr haddr => ?_⟩,
        fun j c hj => absurd hj (Nat.not_lt_zero j)⟩
      · have hzero : ∀ n, arrayAddrs (List.replicate n (Chain.zero : Chain ι)) = 0 := fun n =>
          arrayAddrs_eq_zero fun c hc => by rw [List.eq_of_mem_replicate hc]; rfl
        simp [Table.addrs, hzero, callocs, frees, Event.calloced, Event.freed]
      · exact absurd haddr (Multiset.notMem_zero addr)

theorem count_callocs (trace : List Event) (addr : ℕ) :
    (callocs trace).count addr = trace.count (.calloc addr) := by
  induction trace with
  | nil => rfl
  | cons e trace ih =>
    rw [callocs, List.map_cons, List.sum_cons, Multiset.count_add, List.count_cons, ← ih, callocs,
      Nat.add_comm]
    congr 1
    cases e with
    | calloc a => by_cases ha : addr = a <;> simp [Event.calloced, ha, Ne.symm]
    | map => rfl
    | unmap => rfl
    | free => rfl

theorem count_frees (trace : List Event) (addr : ℕ) :
    (frees trace).count addr = trace.count (.free addr) := by
  induction trace with
  | nil => rfl
  | cons e trace ih =>
    rw [frees, List.map_cons, List.sum_cons, Multiset.count_add, List.count_cons, ← ih, frees,
      Nat.add_comm]
    congr 1
    cases e with
    | free a => by_cases ha : addr = a <;> simp [Event.freed, ha, Ne.symm]
    | map => rfl
    | unmap => rfl
    | calloc => rfl

theorem callocs_append (a b : List Event) : callocs (a ++ b) = callocs a + callocs b := by
  rw [callocs, List.map_append, List.sum_append, callocs, callocs]

theorem frees_append (a b : List Event) : frees (a ++ b) = frees a + frees b := by
  rw [frees, List.map_append, List.sum_append, frees, frees]

theorem chain_frees (next : List (Chained ι)) :
    callocs (next.map fun c => Event.free c.addr) = 0 ∧
      frees (next.map fun c => Event.free c.addr) = ↑(next.map Chained.addr) := by
  induction next with
  | nil => exact ⟨rfl, rfl⟩
  | cons c next ih =>
    refine ⟨(zero_add _).trans ih.1, ?_⟩
    rw [List.map_cons, List.map_cons, ← Multiset.cons_coe, ← ih.2]
    exact Multiset.singleton_add _ _

theorem array_frees (chains : List (Chain ι)) :
    callocs (chains.flatMap fun chain => chain.next.map fun c => Event.free c.addr) = 0 ∧
      frees (chains.flatMap fun chain => chain.next.map fun c => Event.free c.addr) =
        arrayAddrs chains := by
  induction chains with
  | nil => exact ⟨rfl, rfl⟩
  | cons chain chains ih =>
    obtain ⟨hcallocs, hfrees⟩ := chain_frees chain.next
    rw [List.flatMap_cons, callocs_append, frees_append, hcallocs, hfrees, ih.1, ih.2]
    exact ⟨rfl, rfl⟩

theorem destroyBuckets_chains (trace : List Event) {buckets : Mapping ι} {count : ℕ}
    (hcount : buckets.chains.length ≤ count) (bytes : ℕ) :
    callocs (hashtableDestroyBuckets trace buckets count bytes) = callocs trace ∧
      frees (hashtableDestroyBuckets trace buckets count bytes) =
        frees trace + arrayAddrs buckets.chains := by
  obtain ⟨hcallocs, hfrees⟩ := array_frees buckets.chains
  have hreverse : ∀ events : List Event,
      callocs events.reverse = callocs events ∧ frees events.reverse = frees events :=
    fun events => ⟨((List.reverse_perm events).map _).sum_eq,
      ((List.reverse_perm events).map _).sum_eq⟩
  unfold hashtableDestroyBuckets
  rw [List.take_of_length_le hcount]
  constructor
  · refine (zero_add _).trans ?_
    change callocs (List.reverse _ ++ trace) = callocs trace
    rw [callocs_append, (hreverse _).1, hcallocs, zero_add]
  · refine (zero_add _).trans ?_
    change frees (List.reverse _ ++ trace) = _
    rw [frees_append, (hreverse _).2, hfrees, add_comm]

theorem destroy_chains (h : TableInv E itemKey t) :
    callocs (hashtableDestroy t) = callocs t.trace ∧
      frees (hashtableDestroy t) = frees t.trace + t.addrs := by
  have hold := h.old_ok.length.le
  unfold hashtableDestroy Table.addrs
  rcases Option.eq_none_or_eq_some t.newBuckets with hm | ⟨m, hm⟩
  · rw [hm]
    obtain ⟨hcallocs, hfrees⟩ := destroyBuckets_chains t.trace hold t.oldBytes
    exact ⟨hcallocs, hfrees.trans (congrArg _ (add_zero _).symm)⟩
  · rw [hm]
    obtain ⟨hcallocs₁, hfrees₁⟩ :=
      destroyBuckets_chains t.trace (h.running m hm).ok.length.le t.newBytes
    obtain ⟨hcallocs, hfrees⟩ := destroyBuckets_chains
      (hashtableDestroyBuckets t.trace m t.newBucketCount t.newBytes) hold t.oldBytes
    refine ⟨hcallocs.trans hcallocs₁, hfrees.trans ?_⟩
    rw [hfrees₁, Option.elim_some, add_assoc, add_comm (arrayAddrs m.chains)]

/-- The last step of a migration leaves nothing behind in the old array. -/
theorem migrateBucket_emptied (h : ChainsInv t) (hinv : TableInv E itemKey t)
    (hsome : t.newBuckets.isSome)
    (hrun : hashtableMigrateBucket E itemKey { t with migrationPos := t.migrationPos + 1 }
      t.migrationPos = some t')
    (hlast : t'.migrationPos = t'.oldBucketCount) : Emptied t' := by
  obtain ⟨m, hm⟩ := Option.isSome_iff_exists.mp hsome
  obtain ⟨c, t₁, head, hc, hrun₁, hempty, hmv⟩ := drain_total hinv hm
  rw [hrun, Option.some.injEq] at hrun₁
  subst hrun₁
  obtain ⟨m₁, hd⟩ := drained_spec hinv hm hc hempty hmv
  obtain ⟨-, hdrained⟩ := h.migrateBucket hrun
  refine ⟨fun chain hchain => ?_, ?_⟩
  · obtain ⟨j, hj⟩ := List.getElem?_of_mem hchain
    have hlt := (List.getElem?_eq_some_iff.mp hj).1
    rw [hd.chains, List.length_set, hinv.old_ok.length, ← hd.oldCount, ← hlast] at hlt
    refine ⟨fun i => hd.slots_empty hinv hm hlt hj ⟨0, i⟩ _ (slotAt_head chain i), ?_⟩
    rw [hd.pos] at hlt
    have hnil := hdrained j chain hlt hj
    exact List.map_eq_nil_iff.mp (Multiset.coe_eq_zero _ |>.mp hnil)
  · rw [hd.oldSize, hd.old_empty hinv hm hlast, Multiset.card_zero]

theorem ChainsInv.freedOnce {w : World ι} (h : ChainsInv w.table)
    (hinv : TableInv E w.itemKey w.table) : FreedOnce E w := by
  obtain ⟨hcallocs, hfrees⟩ := destroy_chains hinv
  have hbalance := h.balanced.balance
  have hnodup := h.balanced.nodup
  rw [add_zero] at hbalance
  -- at the end every allocated bucket has been freed
  have hsame : callocs (hashtableDestroy w.table) = frees (hashtableDestroy w.table) := by
    rw [hcallocs, hfrees, hbalance]
  have hcount : ∀ addr, (hashtableDestroy w.table).count (.calloc addr) =
      (hashtableDestroy w.table).count (.free addr) := fun addr => by
    rw [← count_callocs, ← count_frees, hsame]
  refine ⟨fun addr haddr => ?_, fun addr haddr => ?_, fun addr haddr hreach => ?_,
    fun hsome t ht hlast => migrateBucket_emptied h hinv hsome ht hlast⟩
  · have hpos : 0 < (hashtableDestroy w.table).count (.calloc addr) :=
      List.count_pos_iff.mpr haddr
    have hle : (callocs (hashtableDestroy w.table)).count addr ≤ 1 := by
      rw [hcallocs]
      exact Multiset.nodup_iff_count_le_one.mp hnodup addr
    rw [count_callocs] at hle
    have hone : (hashtableDestroy w.table).count (.calloc addr) = 1 := by omega
    exact ⟨hone, hcount addr ▸ hone⟩
  · rw [← List.count_pos_iff, hcount]
    exact List.count_pos_iff.mpr haddr
  · rw [hbalance, Multiset.nodup_add] at hnodup
    have hfreed : addr ∈ frees w.table.trace := by
      rw [← Multiset.count_pos, count_frees]
      exact List.count_pos_iff.mpr haddr
    exact Multiset.disjoint_left.mp hnodup.2.2 hfreed hreach

/-- After every run each chained bucket is freed, or will be when the table is destroyed. -/
theorem chains_freed_once {granted : Bool} {leftover cap : ℕ} {t : Table ι}
    (hcap : cap < 2 ^ 64) (hinit : hashtableInit E granted leftover cap = some t)
    (itemKey : ι → List UInt8) (ops : List (Op ι))
    (hst : StoresAll (fun _ => none) itemKey ops) :
    ∃ w, runTo E ⟨t, itemKey⟩ ops = some w ∧ FreedOnce E w := by
  have hstart : ChainsInv (World.table ⟨t, itemKey⟩) := init_chains hinit
  obtain ⟨w, M, hrun, h, href⟩ := hstart.runTo (init_refines hcap hinit itemKey) hst
  exact ⟨w, hrun, h.freedOnce href.inv⟩

/-- Twelve keys of one length chain a bucket, and the migration that follows frees it. -/
theorem chains_freed_once_collisions : ∃ w,
    runTo lengthEnv ⟨lengthTable, id⟩ (byteSets 15) = some w ∧ FreedOnce lengthEnv w :=
  chains_freed_once (by decide) (Option.some_get _).symm id _ (storesAll_byteSets 15 _)

end Kvx.Hashtable
