import Kvx.MigrationStep

/-!
# The table operations on the bag of items

Each operation takes its migration step and then works in the array the key is routed
to. Under the invariant it acts on the bag of all items as one step of a finite map.
-/
namespace Kvx.Hashtable

open Kvx.Lib

variable {ι : Type} {E : Env} {itemKey itemKey' : ι → List UInt8} {t : Table ι}
  {key : List UInt8}

theorem inNew_true (h : hashtableItemInNewBucket t (E.xxh3 key) = true) :
    (∃ m, t.newBuckets = some m) ∧ bucketIdx (E.xxh3 key) t.oldBucketCount < t.migrationPos := by
  unfold hashtableItemInNewBucket at h
  split_ifs at h with hn
  refine ⟨?_, of_decide_eq_true h⟩
  rw [Option.isNone_iff_eq_none] at hn
  exact Option.ne_none_iff_exists'.mp hn

theorem inNew_false (hinv : TableInv E itemKey t)
    (h : hashtableItemInNewBucket t (E.xxh3 key) = false) :
    t.migrationPos ≤ bucketIdx (E.xxh3 key) t.oldBucketCount := by
  unfold hashtableItemInNewBucket at h
  split_ifs at h with hn
  · rw [Option.isNone_iff_eq_none] at hn
    rw [(hinv.idle hn).1]
    exact Nat.zero_le _
  · simpa using h

theorem TableInv.absent_old (h : TableInv E itemKey t) {m : Mapping ι}
    (hm : t.newBuckets = some m)
    (hlt : bucketIdx (E.xxh3 key) t.oldBucketCount < t.migrationPos) :
    ∀ p ∈ arrayBag t.oldBuckets.chains, itemKey p ≠ key := by
  intro p hp he
  obtain ⟨c, hc⟩ := h.old_ok.get (E.xxh3 key)
  have hpc := h.old_ok.mem_chain hp (by rw [he]; exact hc)
  rw [(h.running m hm).drained _ c hlt hc] at hpc
  exact Multiset.notMem_zero p hpc

theorem TableInv.absent_new (h : TableInv E itemKey t)
    (hle : t.migrationPos ≤ bucketIdx (E.xxh3 key) t.oldBucketCount) :
    ∀ p ∈ t.newBag, itemKey p ≠ key := by
  intro p hp he
  cases hm : t.newBuckets with
  | none =>
    rw [Table.newBag_none hm] at hp
    exact Multiset.notMem_zero p hp
  | some m =>
    rw [Table.newBag_some hm] at hp
    have hr := (h.running m hm).routed p hp
    rw [he] at hr
    omega

theorem get_spec (h : TableInv E itemKey t) (key : List UInt8) :
    ∃ r, hashtableGet itemKey t (E.xxh3 key) key = some r ∧
      (∀ p, r = some p → p ∈ t.bag ∧ itemKey p = key) ∧
      (r = none → ∀ p ∈ t.bag, itemKey p ≠ key) := by
  unfold hashtableGet
  cases hside : hashtableItemInNewBucket t (E.xxh3 key) with
  | true =>
    obtain ⟨⟨m, hm⟩, hlt⟩ := inNew_true hside
    obtain ⟨r, hrun, hhit, hmiss⟩ := arrayGet_spec (h.running m hm).ok key
    have habs := h.absent_old hm hlt
    rw [Table.bag_some hm]
    refine ⟨r, ?_, fun p hp => ?_, fun hn p hp => ?_⟩
    · simp only [↓reduceIte, hashtableGetNew, hm, Option.bind_eq_bind, Option.bind_some]
      exact hrun
    · obtain ⟨hmem, hk⟩ := hhit p hp
      exact ⟨Multiset.mem_add.mpr (Or.inr hmem), hk⟩
    · rcases Multiset.mem_add.mp hp with hp | hp
      · exact habs p hp
      · exact hmiss hn p hp
  | false =>
    obtain ⟨r, hrun, hhit, hmiss⟩ := arrayGet_spec h.old_ok key
    have habs := h.absent_new (inNew_false h hside)
    refine ⟨r, hrun, fun p hp => ?_, fun hn p hp => ?_⟩
    · obtain ⟨hmem, hk⟩ := hhit p hp
      exact ⟨Multiset.mem_add.mpr (Or.inl hmem), hk⟩
    · rcases Multiset.mem_add.mp hp with hp | hp
      · exact hmiss hn p hp
      · exact habs p hp

theorem TableInv.withOld (h : TableInv E itemKey t) {idx : ℕ} {c d : Chain ι}
    (hidx : t.migrationPos ≤ idx) (hc : t.oldBuckets.chains[idx]? = some c)
    (hclean : c.Clean → d.Clean)
    (hok : ArrayOk E itemKey' t.oldBucketCount (t.oldBuckets.chains.set idx d))
    (hsame : ∀ x ∈ t.newBag, itemKey' x = itemKey x)
    (hnd : ((arrayBag (t.oldBuckets.chains.set idx d) + t.newBag).map itemKey').Nodup)
    (fresh : ℕ) (trace : List Event) :
    TableInv E itemKey' { t with
      oldBuckets := { t.oldBuckets with chains := t.oldBuckets.chains.set idx d }
      oldSize := (arrayBag (t.oldBuckets.chains.set idx d)).card
      fresh := fresh
      trace := trace } where
  count_pow := h.count_pow
  count_bound := h.count_bound
  old_ok := hok
  old_clean j e hj he := by
    simp only [List.getElem?_set] at he
    split_ifs at he with heq
    · rw [← Option.some.inj he]
      exact hclean (h.old_clean idx c hidx hc)
    · exact h.old_clean j e hj he
  old_size := rfl
  nodup := hnd
  idle := h.idle
  running m hm := by
    have hr := h.running m hm
    rw [Table.newBag_some (t := t) hm] at hsame
    exact { hr with
      ok := hr.ok.congr hsame
      drained := fun j e hj he => by
        simp only at hj
        simp only [List.getElem?_set] at he
        rw [if_neg (by omega)] at he
        exact hr.drained j e hj he
      routed := fun p hp => by
        rw [hsame p hp]
        exact hr.routed p hp }

theorem TableInv.withNew (h : TableInv E itemKey t) {m : Mapping ι} (hm : t.newBuckets = some m)
    {chains' : List (Chain ι)} (hclean : AllClean m.chains → AllClean chains')
    (hok : ArrayOk E itemKey' t.newBucketCount chains')
    (hsame : ∀ x ∈ arrayBag t.oldBuckets.chains, itemKey' x = itemKey x)
    (hrouted : ∀ x ∈ arrayBag chains',
      bucketIdx (E.xxh3 (itemKey' x)) t.oldBucketCount < t.migrationPos)
    (hnd : ((arrayBag t.oldBuckets.chains + arrayBag chains').map itemKey').Nodup)
    (fresh : ℕ) (trace : List Event) :
    TableInv E itemKey' { t with
      newBuckets := some { m with chains := chains' }
      newSize := (arrayBag chains').card
      fresh := fresh
      trace := trace } where
  count_pow := h.count_pow
  count_bound := h.count_bound
  old_ok := h.old_ok.congr hsame
  old_clean := h.old_clean
  old_size := h.old_size
  nodup := hnd
  idle hn := by simp at hn
  running m' hm' := by
    simp only [Option.some.injEq] at hm'
    subst hm'
    have hr := h.running m hm
    exact { hr with
      ok := hok
      clean := hclean hr.clean
      size := rfl
      routed := hrouted }

/-- The table and the item after the key was deleted. -/
structure Deleted (E : Env) (itemKey : ι → List UInt8) (t : Table ι) (key : List UInt8)
    (t' : Table ι) (r : Option ι) : Prop where
  inv : TableInv E itemKey t'
  miss : r = none → t'.bag = t.bag ∧ ∀ p ∈ t.bag, itemKey p ≠ key
  hit : ∀ p, r = some p → itemKey p = key ∧ t.bag = p ::ₘ t'.bag

theorem deleteNew_spec (h : TableInv E itemKey t) {key : List UInt8}
    (hside : hashtableItemInNewBucket t (E.xxh3 key) = true) :
    ∃ t' r, hashtableDeleteNew itemKey t (E.xxh3 key) (hashTag (E.xxh3 key)) key = some (t', r) ∧
      Deleted E itemKey t key t' r := by
  obtain ⟨⟨m, hm⟩, hlt⟩ := inNew_true hside
  have hr := h.running m hm
  obtain ⟨r, hrun, hmiss, hhit⟩ := arrayDelete_spec hr.ok key
  have habs := h.absent_old hm hlt
  simp -implicitDefEqProofs only [hashtableDeleteNew, hm, hrun, Option.bind_eq_bind,
    Option.bind_some]
  cases r with
  | none =>
    refine ⟨t, none, rfl, h, fun _ => ⟨rfl, fun p hp => ?_⟩, by simp⟩
    rw [Table.bag_some hm] at hp
    rcases Multiset.mem_add.mp hp with hp | hp
    · exact habs p hp
    · exact hmiss rfl p hp
  | some r =>
    obtain ⟨chains', item⟩ := r
    obtain ⟨p, c, d, rfl, hk, hbag, hok, hc, rfl, hcd⟩ := hhit chains' item rfl
    have hsize : t.newSize - 1 =
        (arrayBag (m.chains.set (bucketIdx (E.xxh3 key) t.newBucketCount) d)).card := by
      rw [hr.size, hbag, Multiset.card_cons, Nat.add_sub_cancel]
    have hle : arrayBag (m.chains.set (bucketIdx (E.xxh3 key) t.newBucketCount) d) ≤
        arrayBag m.chains := by
      rw [hbag]
      exact Multiset.le_cons_self _ _
    refine ⟨_, some p, rfl, ?_, by simp, fun q hq => ?_⟩
    · rw [hsize]
      refine h.withNew hm (fun hall => hall.set fun c' hc' hcl => ?_) hok (fun _ _ => rfl)
        (fun x hx => hr.routed x (Multiset.mem_of_le hle hx)) ?_ t.fresh t.trace
      · rw [hc, Option.some.injEq] at hc'
        exact hcd (hc' ▸ hcl)
      · have hn := h.nodup
        rw [Table.bag_some hm] at hn
        exact Multiset.nodup_of_le (Multiset.map_le_map (add_le_add_right hle _)) hn
    · simp only [Option.some.injEq] at hq
      subst hq
      refine ⟨hk, ?_⟩
      rw [Table.bag_some hm, Table.bag_some rfl, hbag, Multiset.add_cons]

theorem deleteOld_spec (h : TableInv E itemKey t) {key : List UInt8}
    (hside : hashtableItemInNewBucket t (E.xxh3 key) = false) :
    ∃ t' r, hashtableDeleteOld itemKey t (E.xxh3 key) (hashTag (E.xxh3 key)) key = some (t', r) ∧
      Deleted E itemKey t key t' r := by
  obtain ⟨r, hrun, hmiss, hhit⟩ := arrayDelete_spec h.old_ok key
  have hle := inNew_false h hside
  have habs := h.absent_new hle
  simp -implicitDefEqProofs only [hashtableDeleteOld, hrun, Option.bind_eq_bind, Option.bind_some]
  cases r with
  | none =>
    refine ⟨t, none, rfl, h, fun _ => ⟨rfl, fun p hp => ?_⟩, by simp⟩
    rcases Multiset.mem_add.mp hp with hp | hp
    · exact hmiss rfl p hp
    · exact habs p hp
  | some r =>
    obtain ⟨chains', item⟩ := r
    obtain ⟨p, c, d, rfl, hk, hbag, hok, hc, rfl, hcd⟩ := hhit chains' item rfl
    have hsize : t.oldSize - 1 =
        (arrayBag (t.oldBuckets.chains.set (bucketIdx (E.xxh3 key) t.oldBucketCount) d)).card := by
      rw [h.old_size, hbag, Multiset.card_cons, Nat.add_sub_cancel]
    refine ⟨_, some p, rfl, ?_, by simp, fun q hq => ?_⟩
    · rw [hsize]
      refine h.withOld hle hc hcd hok (fun _ _ => rfl) ?_ t.fresh t.trace
      refine Multiset.nodup_of_le (Multiset.map_le_map (add_le_add_left ?_ _)) h.nodup
      rw [hbag]
      exact Multiset.le_cons_self _ _
    · simp only [Option.some.injEq] at hq
      subst hq
      refine ⟨hk, ?_⟩
      rw [Table.bag, hbag, Multiset.cons_add]
      rfl

theorem delete_spec (h : TableInv E itemKey t) (key : List UInt8) :
    ∃ t' r, hashtableDelete E itemKey t (E.xxh3 key) key = some (t', r) ∧
      Deleted E itemKey t key t' r := by
  obtain ⟨t₁, hrun₁, hinv₁, hbag₁⟩ := maintenance_spec h
  have hfrom : ∃ t' r, (if hashtableItemInNewBucket t₁ (E.xxh3 key) then
        hashtableDeleteNew itemKey t₁ (E.xxh3 key) (hashTag (E.xxh3 key)) key
      else hashtableDeleteOld itemKey t₁ (E.xxh3 key) (hashTag (E.xxh3 key)) key) = some (t', r) ∧
      Deleted E itemKey t₁ key t' r := by
    split_ifs with hside
    · exact deleteNew_spec hinv₁ hside
    · exact deleteOld_spec hinv₁ (Bool.not_eq_true _ ▸ hside)
  obtain ⟨t', r, hrun, hinv, hmiss, hhit⟩ := hfrom
  rw [hbag₁] at hmiss hhit
  refine ⟨t', r, ?_, hinv, hmiss, hhit⟩
  simp -implicitDefEqProofs only [hashtableDelete, hrun₁, Option.bind_eq_bind, Option.bind_some]
  exact hrun

end Kvx.Hashtable
