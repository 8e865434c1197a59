import Kvx.TableInv

/-!
# One migration step

A step drains the chain at `migrationPos` into the new array. It keeps the table
invariant and the bag of items; the last step makes the new array the old one.
-/
namespace Kvx.Hashtable

open Kvx.Lib

variable {ι : Type} {E : Env} {itemKey : ι → List UInt8}

theorem Moved.withOld {t t' : Table ι} {a : Multiset ι} (h : Moved E itemKey t t' a)
    (old : Mapping ι) : Moved E itemKey { t with oldBuckets := old }
      { t' with oldBuckets := old } a :=
  ⟨by conv_lhs => rw [h.frame], h.new⟩

theorem chain_bag_eq (c : Chain ι) :
    c.bag = c.head.bag + (c.next.map fun d => d.bucket.bag).sum := by
  simp [Chain.bag, Chain.buckets, Function.comp_def]

/-- The items of one chain move, and the chain is left with one empty bucket. -/
theorem migrateBucket_spec {t : Table ι} {m : Mapping ι} {n pos : ℕ} {c : Chain ι}
    (hm : t.newBuckets = some m) (hok : ArrayOk E itemKey t.newBucketCount m.chains)
    (hc : t.oldBuckets.chains[pos]? = some c) (hcok : ChainOk E itemKey n pos c)
    (hkeys : ((c.bag + arrayBag m.chains).map itemKey).Nodup) :
    ∃ t' head, hashtableMigrateBucket E itemKey t pos = some t' ∧
      (∀ i, (head.slot i).state = .empty) ∧
      Moved E itemKey { t with oldBuckets :=
        { t.oldBuckets with chains := t.oldBuckets.chains.set pos ⟨head, []⟩ } } t' c.bag := by
  obtain ⟨hhead, hnext⟩ := forall_slots.mp hcok
  rw [chain_bag_eq] at hkeys ⊢
  have hle : c.head.bag + arrayBag m.chains ≤
      c.head.bag + (c.next.map fun d => d.bucket.bag).sum + arrayBag m.chains :=
    add_le_add_left (Multiset.le_add_right _ _) _
  obtain ⟨t₁, head, hrun₁, hmv₁, hempty⟩ := migrateSlots_spec hm hok hhead
    (Multiset.nodup_of_le (Multiset.map_le_map hle) hkeys)
  obtain ⟨m₁, hm₁, hok₁, hbag₁⟩ := hmv₁.new_ok hm
  have hold : t₁.oldBuckets = t.oldBuckets := by rw [hmv₁.frame]
  let old := { t.oldBuckets with chains := t.oldBuckets.chains.set pos ⟨head, []⟩ }
  obtain ⟨t', hrun, hmv⟩ := migrateChained_spec (t := { t₁ with oldBuckets := old }) hm₁ hok₁ hnext
    (by rw [hbag₁]; convert hkeys using 2; abel)
  refine ⟨t', head, ?_, hempty, (hmv₁.withOld old).trans hmv⟩
  simp -implicitDefEqProofs only [hashtableMigrateBucket, hc, hrun₁, hold, Option.bind_eq_bind,
    Option.bind_some]
  exact hrun

theorem slots_of_empty {head : Bucket ι} (h : ∀ i, (head.slot i).state = .empty) (loc : Loc)
    (s : Slot ι) (hs : (⟨head, []⟩ : Chain ι).slotAt loc = some s) : s.state = .empty := by
  revert loc s
  rw [forall_slots (P := fun s => s.state = .empty)]
  exact ⟨h, by simp⟩

theorem bag_of_empty {head : Bucket ι} (h : ∀ i, (head.slot i).state = .empty) :
    (⟨head, []⟩ : Chain ι).bag = 0 :=
  chain_bag_eq_zero (slots_of_empty h)

/-- The table `t'` is `t` after its chain at `migrationPos` was drained into `m'`, before it is
decided whether the migration is over. -/
structure Drained (E : Env) (itemKey : ι → List UInt8) (t t' : Table ι) (m m' : Mapping ι)
    (c : Chain ι) (head : Bucket ι) : Prop where
  chain : t.oldBuckets.chains[t.migrationPos]? = some c
  empty : ∀ i, (head.slot i).state = .empty
  new : t'.newBuckets = some m'
  clean : AllClean m'.chains
  ok : ArrayOk E itemKey t'.newBucketCount m'.chains
  newCount : t'.newBucketCount = t.newBucketCount
  oldCount : t'.oldBucketCount = t.oldBucketCount
  pos : t'.migrationPos = t.migrationPos + 1
  chains : t'.oldBuckets.chains = t.oldBuckets.chains.set t.migrationPos ⟨head, []⟩
  oldBag : arrayBag t.oldBuckets.chains = arrayBag t'.oldBuckets.chains + c.bag
  newBag : arrayBag m'.chains = c.bag + arrayBag m.chains
  oldSize : t'.oldSize = (arrayBag t'.oldBuckets.chains).card
  newSize : t'.newSize = (arrayBag m'.chains).card

theorem drained_spec {t t' : Table ι} {m : Mapping ι} {c : Chain ι} {head : Bucket ι}
    (h : TableInv E itemKey t) (hm : t.newBuckets = some m)
    (hc : t.oldBuckets.chains[t.migrationPos]? = some c)
    (hempty : ∀ i, (head.slot i).state = .empty)
    (hmv : Moved E itemKey { t with
      migrationPos := t.migrationPos + 1
      oldBuckets := { t.oldBuckets with
        chains := t.oldBuckets.chains.set t.migrationPos ⟨head, []⟩ } } t' c.bag) :
    ∃ m', Drained E itemKey t t' m m' c head := by
  have hr := h.running m hm
  obtain ⟨m', hm', -, hok, hbag, hclean⟩ := hmv.new m hm
  have hold : t'.oldBuckets.chains = t.oldBuckets.chains.set t.migrationPos ⟨head, []⟩ := by
    rw [hmv.frame]
  have hset := arrayBag_set ⟨head, []⟩ hc
  rw [← hold, bag_of_empty hempty, add_zero] at hset
  exact ⟨m', {
    chain := hc
    empty := hempty
    new := hm'
    clean := hclean hr.clean
    ok := by
      rw [hmv.newBucketCount]
      exact hok
    newCount := by rw [hmv.newBucketCount]
    oldCount := by rw [hmv.frame]
    pos := by rw [hmv.frame]
    chains := hold
    oldBag := hset.symm
    newBag := hbag
    oldSize := by
      have hsize : t'.oldSize = t.oldSize - c.bag.card := by rw [hmv.frame]
      rw [hsize, h.old_size, ← hset, Multiset.card_add, Nat.add_sub_cancel]
    newSize := by
      have hsize : t'.newSize = t.newSize + c.bag.card := by rw [hmv.frame]
      rw [hsize, hr.size, hbag, Multiset.card_add, Nat.add_comm] }⟩

theorem drain_total {t : Table ι} {m : Mapping ι} (h : TableInv E itemKey t)
    (hm : t.newBuckets = some m) :
    ∃ c t₁ head, t.oldBuckets.chains[t.migrationPos]? = some c ∧
      hashtableMigrateBucket E itemKey { t with migrationPos := t.migrationPos + 1 }
        t.migrationPos = some t₁ ∧
      (∀ i, (head.slot i).state = .empty) ∧
      Moved E itemKey { t with
        migrationPos := t.migrationPos + 1
        oldBuckets := { t.oldBuckets with
          chains := t.oldBuckets.chains.set t.migrationPos ⟨head, []⟩ } } t₁ c.bag := by
  have hr := h.running m hm
  have hlt : t.migrationPos < t.oldBuckets.chains.length := by
    rw [h.old_ok.length]
    exact hr.pos
  obtain ⟨c, hc⟩ : ∃ c, t.oldBuckets.chains[t.migrationPos]? = some c :=
    ⟨_, List.getElem?_eq_getElem hlt⟩
  have hkeys : ((c.bag + arrayBag m.chains).map itemKey).Nodup := by
    have hn := h.nodup
    rw [Table.bag_some hm] at hn
    refine Multiset.nodup_of_le (Multiset.map_le_map (add_le_add_left ?_ _)) hn
    exact le_sum_map Chain.bag (List.mem_of_getElem? hc)
  obtain ⟨t₁, head, hrun, hempty, hmv⟩ := migrateBucket_spec
    (t := { t with migrationPos := t.migrationPos + 1 }) hm hr.ok hc (h.old_ok.chain _ c hc) hkeys
  exact ⟨c, t₁, head, hc, hrun, hempty, hmv⟩

theorem TableInv.drained_empty {t : Table ι} {m : Mapping ι} (h : TableInv E itemKey t)
    (hm : t.newBuckets = some m) {j : ℕ} {c : Chain ι} (hj : j < t.migrationPos)
    (hc : t.oldBuckets.chains[j]? = some c) (loc : Loc) (s : Slot ι)
    (hs : c.slotAt loc = some s) : s.state = .empty := by
  rw [← slot_state_ne_busy]
  intro hb
  obtain ⟨p, hp, -⟩ := h.old_ok.chain j c hc loc s hs hb
  have hmem : p ∈ c.bag := mem_chain_bag.mpr ⟨loc, s, hs, hb, hp⟩
  rw [(h.running m hm).drained j c hj hc] at hmem
  exact Multiset.notMem_zero p hmem

section Drained

variable {t t' : Table ι} {m m' : Mapping ι} {c : Chain ι} {head : Bucket ι}

theorem Drained.bag (hd : Drained E itemKey t t' m m' c head) (hm : t.newBuckets = some m) :
    t'.bag = t.bag := by
  rw [Table.bag_some hd.new, Table.bag_some hm, hd.oldBag, hd.newBag, add_assoc]

theorem Drained.slots_empty (hd : Drained E itemKey t t' m m' c head) (h : TableInv E itemKey t)
    (hm : t.newBuckets = some m) {j : ℕ} {d : Chain ι} (hj : j < t'.migrationPos)
    (hchain : t'.oldBuckets.chains[j]? = some d) :
    ∀ loc s, d.slotAt loc = some s → s.state = .empty := by
  rw [hd.pos] at hj
  rw [hd.chains, List.getElem?_set] at hchain
  split_ifs at hchain with he
  · rw [← Option.some.inj hchain]
    exact slots_of_empty hd.empty
  · exact h.drained_empty hm (by omega) hchain

theorem Drained.old_empty (hd : Drained E itemKey t t' m m' c head) (h : TableInv E itemKey t)
    (hm : t.newBuckets = some m) (hlast : t'.migrationPos = t'.oldBucketCount) :
    arrayBag t'.oldBuckets.chains = 0 := by
  apply Multiset.eq_zero_of_forall_notMem
  intro p hp
  obtain ⟨j, d, hj, hpd⟩ := mem_arrayBag.mp hp
  have hlt := (List.getElem?_eq_some_iff.mp hj).1
  rw [hd.chains, List.length_set, h.old_ok.length, ← hd.oldCount, ← hlast] at hlt
  rw [chain_bag_eq_zero (hd.slots_empty h hm hlt hj)] at hpd
  exact Multiset.notMem_zero p hpd

theorem Drained.finish (hd : Drained E itemKey t t' m m' c head) (h : TableInv E itemKey t)
    (hm : t.newBuckets = some m) (hlast : t'.migrationPos = t'.oldBucketCount) :
    TableInv E itemKey (hashtableFinishMigration t' m') ∧
      (hashtableFinishMigration t' m').bag = t.bag := by
  have hr := h.running m hm
  have hbag : (hashtableFinishMigration t' m').bag = t.bag := by
    rw [← hd.bag hm, Table.bag_some hd.new, hd.old_empty h hm hlast, zero_add]
    exact Table.bag_none rfl
  refine ⟨?_, hbag⟩
  exact {
    count_pow := by
      obtain ⟨k, hk⟩ := h.count_pow
      exact ⟨k + 1, by simp only [hashtableFinishMigration]; rw [hd.newCount, hr.count, hk]; ring⟩
    count_bound := by
      simp only [hashtableFinishMigration]
      rw [hd.newCount]
      exact hr.bound
    old_ok := hd.ok
    old_clean := fun j d _ hj => hd.clean j d hj
    old_size := hd.newSize
    nodup := by
      rw [hbag]
      exact h.nodup
    idle := fun _ => ⟨rfl, rfl⟩
    running := by simp [hashtableFinishMigration] }

theorem Drained.running (hd : Drained E itemKey t t' m m' c head) (h : TableInv E itemKey t)
    (hm : t.newBuckets = some m) (hgoes : t'.migrationPos ≠ t'.oldBucketCount) :
    Running E itemKey t' m' := by
  have hr := h.running m hm
  exact {
    count := by rw [hd.newCount, hd.oldCount, hr.count]
    bound := by
      rw [hd.newCount]
      exact hr.bound
    pos := by
      have := hr.pos
      rw [hd.pos, hd.oldCount] at hgoes ⊢
      omega
    ok := hd.ok
    clean := hd.clean
    size := hd.newSize
    drained := fun j d hj hchain => chain_bag_eq_zero (hd.slots_empty h hm hj hchain)
    routed := fun p hp => by
      rw [hd.newBag, Multiset.mem_add] at hp
      rw [hd.oldCount, hd.pos]
      rcases hp with hp | hp
      · rw [(h.old_ok.chain _ c hd.chain).idx hp]
        omega
      · have := hr.routed p hp
        omega }

theorem Drained.inv (hd : Drained E itemKey t t' m m' c head) (h : TableInv E itemKey t)
    (hm : t.newBuckets = some m) (hgoes : t'.migrationPos ≠ t'.oldBucketCount) :
    TableInv E itemKey t' where
  count_pow := by
    rw [hd.oldCount]
    exact h.count_pow
  count_bound := by
    rw [hd.oldCount]
    exact h.count_bound
  old_ok := by
    rw [hd.oldCount, hd.chains]
    apply h.old_ok.set
    exact fun loc s hs => slotOk_empty (slots_of_empty hd.empty loc s hs)
  old_clean j d hj hchain := by
    rw [hd.pos] at hj
    rw [hd.chains, List.getElem?_set, if_neg (by omega)] at hchain
    exact h.old_clean j d (by omega) hchain
  old_size := hd.oldSize
  nodup := by
    rw [hd.bag hm]
    exact h.nodup
  idle := by simp [hd.new]
  running m₂ hm₂ := by
    rw [hd.new, Option.some.injEq] at hm₂
    exact hm₂ ▸ hd.running h hm hgoes

end Drained

theorem processStep_spec {t : Table ι} {m : Mapping ι} (h : TableInv E itemKey t)
    (hm : t.newBuckets = some m) :
    ∃ t', hashtableProcessMigrationStep E itemKey t = some t' ∧ TableInv E itemKey t' ∧
      t'.bag = t.bag := by
  obtain ⟨c, t₁, head, hc, hrun, hempty, hmv⟩ := drain_total h hm
  obtain ⟨m₁, hd⟩ := drained_spec h hm hc hempty hmv
  have hrun' : hashtableProcessMigrationStep E itemKey t =
      if t₁.migrationPos = t₁.oldBucketCount then some (hashtableFinishMigration t₁ m₁)
      else some t₁ := by
    simp -implicitDefEqProofs only [hashtableProcessMigrationStep, hrun, hd.new,
      Option.bind_eq_bind, Option.bind_some]
  rw [hrun']
  split_ifs with hlast
  · exact ⟨_, rfl, hd.finish h hm hlast⟩
  · exact ⟨t₁, rfl, hd.inv h hm hlast, hd.bag hm⟩

theorem maintenance_spec {t : Table ι} (h : TableInv E itemKey t) :
    ∃ t', hashtableMaintenance E itemKey t = some t' ∧ TableInv E itemKey t' ∧
      t'.bag = t.bag := by
  unfold hashtableMaintenance hashtableMigrationRunning
  cases hm : t.newBuckets with
  | none => exact ⟨t, rfl, h, rfl⟩
  | some m => exact processStep_spec h hm

end Kvx.Hashtable
