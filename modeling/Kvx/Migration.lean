import Kvx.ArraySet

/-!
# Moving the items of a bucket to the new array

Migration rehashes the items of one chain into the new array. `Moved` records what that
does to a table: some items entered the new array, both sizes follow, and nothing else
that a lookup depends on has changed.
-/
namespace Kvx.Hashtable

open Kvx.Lib

variable {ι : Type} {E : Env} {itemKey : ι → List UInt8}

def AllClean (chains : List (Chain ι)) : Prop := ∀ (j : ℕ) (c : Chain ι), chains[j]? = some c → c.Clean

theorem AllClean.set {chains : List (Chain ι)} (h : AllClean chains) {j : ℕ} {d : Chain ι}
    (hd : ∀ c, chains[j]? = some c → c.Clean → d.Clean) : AllClean (chains.set j d) := by
  intro i c hc
  rw [List.getElem?_set] at hc
  split_ifs at hc with hij hlt
  · subst hij
    have hget := List.getElem?_eq_getElem hlt
    exact Option.some.inj hc ▸ hd _ hget (h _ _ hget)
  · exact h i c hc

/-- `t'` is `t` after the items in `bag` were put into the new array. -/
structure Moved (E : Env) (itemKey : ι → List UInt8) (t t' : Table ι) (bag : Multiset ι) :
    Prop where
  frame : t' = { t with
    oldSize := t.oldSize - bag.card
    newSize := t.newSize + bag.card
    newBuckets := t'.newBuckets
    fresh := t'.fresh
    trace := t'.trace }
  new : ∀ m, t.newBuckets = some m → ∃ m', t'.newBuckets = some m' ∧ m'.len = m.len ∧
    ArrayOk E itemKey t.newBucketCount m'.chains ∧
    arrayBag m'.chains = bag + arrayBag m.chains ∧ (AllClean m.chains → AllClean m'.chains)

theorem Moved.refl {t : Table ι} (h : ∀ m, t.newBuckets = some m →
    ArrayOk E itemKey t.newBucketCount m.chains) : Moved E itemKey t t 0 :=
  ⟨by simp, fun m hm => ⟨m, hm, rfl, h m hm, by simp, id⟩⟩

theorem Moved.newBucketCount {t t' : Table ι} {a : Multiset ι} (h : Moved E itemKey t t' a) :
    t'.newBucketCount = t.newBucketCount := by rw [h.frame]

theorem Moved.trans {t t' t'' : Table ι} {a b : Multiset ι} (h : Moved E itemKey t t' a)
    (h' : Moved E itemKey t' t'' b) : Moved E itemKey t t'' (a + b) := by
  refine ⟨?_, fun m hm => ?_⟩
  · rw [h'.frame, h.frame]
    simp only [Multiset.card_add, Nat.sub_sub, Nat.add_assoc]
  · obtain ⟨m', hm', hl, -, hbag, hclean⟩ := h.new m hm
    obtain ⟨m'', hm'', hl', hok', hbag', hclean'⟩ := h'.new m' hm'
    refine ⟨m'', hm'', hl'.trans hl, h.newBucketCount ▸ hok', ?_, fun hc => hclean' (hclean hc)⟩
    rw [hbag', hbag]
    abel

/-- Migrating a slot is setting the item's key in the new array and storing the item if the
slot was EMPTY. -/
theorem migrateSlot_eq {t : Table ι} {m : Mapping ι} (hm : t.newBuckets = some m) (i : Fin 8)
    (b : Bucket ι) (p : ι) {r : ArraySet ι}
    (hr : arraySet itemKey t.fresh m.chains t.newBucketCount (E.xxh3 (itemKey p))
      (hashTag (E.xxh3 (itemKey p))) (itemKey p) = some r) :
    hashtableMigrateSlot E itemKey t i b (some p) =
      some ({ Table.noteCalloc { t with oldSize := t.oldSize - 1 } r.grown with
        newBuckets := some { m with chains :=
          if r.claimed then writeChains r.chains ⟨.new, r.idx, r.loc⟩ (some p) else r.chains }
        newSize := if r.claimed then t.newSize + 1 else t.newSize },
        hashtableBucketSetSlotState b i .empty) := by
  simp only [arraySet, Option.bind_eq_bind, Option.bind_eq_some_iff] at hr
  obtain ⟨c, hc, found, hf, nb, hb, hr⟩ := hr
  have hlt := (List.getElem?_eq_some_iff.mp hc).1
  simp -implicitDefEqProofs only [hashtableMigrateSlot, Option.map_some, hm, hc, hf, hb,
    Option.bind_eq_bind, Option.bind_some]
  split_ifs at hr with he
  · rw [if_pos he]
    rw [Option.some.injEq] at hr
    subst hr
    simp only [↓reduceIte, writeChains_set hlt, modify_modify, Function.comp_def]
    cases found.grown <;> simp [Table.noteCalloc]
  · rw [if_neg he]
    rw [Option.some.injEq] at hr
    subst hr
    cases found.grown <;> simp [Table.noteCalloc]

theorem migrateSlot_spec {t : Table ι} {m : Mapping ι} (hm : t.newBuckets = some m)
    (hok : ArrayOk E itemKey t.newBucketCount m.chains) (i : Fin 8) (b : Bucket ι) {p : ι}
    (hp : ∀ q ∈ arrayBag m.chains, itemKey q ≠ itemKey p) :
    ∃ t', hashtableMigrateSlot E itemKey t i b (some p) =
        some (t', hashtableBucketSetSlotState b i .empty) ∧ Moved E itemKey t t' {p} := by
  obtain ⟨r, hr⟩ := arraySet_total hok t.fresh (itemKey p)
  have hout := arraySet_outcome hr
  rw [migrateSlot_eq hm i b p hr]
  refine ⟨_, rfl, ?_⟩
  cases hcl : r.claimed with
  | false =>
    obtain ⟨q, rest, hbag, hk, -⟩ := stored_of_hit hok hout hcl .new
    exact absurd hk (hp q (by rw [hbag]; exact Multiset.mem_cons_self q rest))
  | true =>
    obtain ⟨-, -, hst⟩ := stored_of_claim hok hout hcl .new
    have hst := hst itemKey p rfl fun _ _ => rfl
    refine ⟨?_, fun m' hm' => ?_⟩
    · cases r.grown <;> simp [Table.noteCalloc]
    · rw [hm, Option.some.injEq] at hm'
      subst hm'
      refine ⟨_, rfl, rfl, hst.ok, by simpa using hst.bag, fun hall => ?_⟩
      obtain ⟨d, hd, hclean⟩ := hst.at_idx
      simp only [↓reduceIte]
      rw [hd]
      exact hall.set hclean

theorem Moved.new_ok {t t' : Table ι} {a : Multiset ι} (h : Moved E itemKey t t' a)
    {m : Mapping ι} (hm : t.newBuckets = some m) :
    ∃ m', t'.newBuckets = some m' ∧ ArrayOk E itemKey t'.newBucketCount m'.chains ∧
      arrayBag m'.chains = a + arrayBag m.chains := by
  obtain ⟨m', hm', -, hok, hbag, -⟩ := h.new m hm
  exact ⟨m', hm', h.newBucketCount ▸ hok, hbag⟩

theorem migrateSlot_bucket {t t' : Table ι} {i : Fin 8} {b b' : Bucket ι} {item : Option ι}
    (hrun : hashtableMigrateSlot E itemKey t i b item = some (t', b')) :
    b' = hashtableBucketSetSlotState b i .empty := by
  simp only [hashtableMigrateSlot, Option.bind_eq_bind, Option.bind_eq_some_iff] at hrun
  obtain ⟨k, -, m, -, c, -, found, -, nb, -, h⟩ := hrun
  split_ifs at h
  · exact (Prod.mk.inj (Option.some.inj h)).2.symm
  · exact (Prod.mk.inj (Option.some.inj h)).2.symm

theorem migrateSlotsFrom_slots {slots : List (Fin 8)} {t t' : Table ι} {b b' : Bucket ι}
    (hrun : migrateSlotsFrom E itemKey slots t b = some (t', b')) (k : Fin 8) :
    b'.slot k = if k ∈ slots then { b.slot k with state := .empty } else b.slot k := by
  induction slots generalizing t b with
  | nil =>
    simp only [migrateSlotsFrom, Option.some.injEq, Prod.mk.injEq] at hrun
    rw [if_neg List.not_mem_nil, hrun.2]
  | cons i slots ih =>
    unfold migrateSlotsFrom at hrun
    cases hst : (b.slot i).state with
    | empty =>
      rw [if_pos (by simp [hst])] at hrun
      rw [ih hrun]
      by_cases hk : k = i
      · subst hk
        simp [← hst]
      · simp [hk]
    | busy =>
      rw [if_neg (by simp [hst])] at hrun
      simp only [Option.bind_eq_bind, Option.bind_eq_some_iff] at hrun
      obtain ⟨⟨t₁, b₁⟩, h₁, hrun⟩ := hrun
      rw [ih hrun, migrateSlot_bucket h₁]
      by_cases hk : k = i
      · subst hk
        simp
      · simp [hk]

theorem migrateSlots_empty {t t' : Table ι} {b b' : Bucket ι}
    (hrun : hashtableMigrateSlots E itemKey t b = some (t', b')) (i : Fin 8) :
    (b'.slot i).state = .empty := by
  rw [migrateSlotsFrom_slots hrun, if_pos (List.mem_finRange i)]

theorem migrateSlotsFrom_spec {n j : ℕ} {slots : List (Fin 8)} (hnd : slots.Nodup)
    {t : Table ι} {m : Mapping ι} {b : Bucket ι} (hm : t.newBuckets = some m)
    (hok : ArrayOk E itemKey t.newBucketCount m.chains)
    (hb : ∀ i ∈ slots, SlotOk E itemKey n j (b.slot i))
    (hkeys : (((slots.map fun i => (b.slot i).bag).sum + arrayBag m.chains).map itemKey).Nodup) :
    ∃ t' b', migrateSlotsFrom E itemKey slots t b = some (t', b') ∧
      Moved E itemKey t t' (slots.map fun i => (b.slot i).bag).sum := by
  induction slots generalizing t m b with
  | nil =>
    refine ⟨t, b, rfl, ?_⟩
    apply Moved.refl
    intro m' hm'
    rw [hm, Option.some.injEq] at hm'
    exact hm' ▸ hok
  | cons i slots ih =>
    obtain ⟨hi, hnd⟩ := List.nodup_cons.mp hnd
    simp only [List.map_cons, List.sum_cons] at hkeys ⊢
    have htail : ∀ k ∈ slots, SlotOk E itemKey n j (b.slot k) := fun k hk =>
      hb k (List.mem_cons_of_mem _ hk)
    cases hst : (b.slot i).state with
    | empty =>
      rw [slot_bag_empty hst, zero_add] at hkeys ⊢
      obtain ⟨t', b', hrun, hmv⟩ := ih hnd hm hok htail hkeys
      refine ⟨t', b', ?_, hmv⟩
      rw [migrateSlotsFrom, if_pos (by simp [hst]), hrun]
    | busy =>
      obtain ⟨p, hp, -, -⟩ := hb i (by simp) hst
      rw [slot_bag_busy hst hp] at hkeys ⊢
      have hpk : ∀ q ∈ arrayBag m.chains, itemKey q ≠ itemKey p := by
        intro q hq he
        rw [add_assoc, Multiset.singleton_add, Multiset.map_cons, Multiset.nodup_cons] at hkeys
        exact hkeys.1 (Multiset.mem_map.mpr ⟨q, Multiset.mem_add.mpr (Or.inr hq), he⟩)
      obtain ⟨t₁, hrun₁, hmv₁⟩ := migrateSlot_spec hm hok i b hpk
      obtain ⟨m₁, hm₁, hok₁, hbag₁⟩ := hmv₁.new_ok hm
      -- the slots to come do not see that slot `i` was cleared
      have hsame : ∀ k ∈ slots, (hashtableBucketSetSlotState b i .empty).slot k = b.slot k := by
        intro k hk
        have hne : k ≠ i := fun he => hi (he ▸ hk)
        simp [hne]
      have hmap : (slots.map fun k => ((hashtableBucketSetSlotState b i .empty).slot k).bag) =
          slots.map fun k => (b.slot k).bag :=
        List.map_congr_left fun k hk => by rw [hsame k hk]
      obtain ⟨t', b', hrun, hmv⟩ := ih hnd hm₁ hok₁
        (fun k hk => by rw [hsame k hk]; exact htail k hk)
        (by rw [hmap, hbag₁]; convert hkeys using 2; abel)
      rw [hmap] at hmv
      refine ⟨t', b', ?_, hmv₁.trans hmv⟩
      rw [migrateSlotsFrom, if_neg (by simp [hst]), getSlotItem_eq, hp, hrun₁]
      exact hrun

theorem migrateSlots_spec {n j : ℕ} {t : Table ι} {m : Mapping ι} {b : Bucket ι}
    (hm : t.newBuckets = some m) (hok : ArrayOk E itemKey t.newBucketCount m.chains)
    (hb : ∀ i, SlotOk E itemKey n j (b.slot i))
    (hkeys : ((b.bag + arrayBag m.chains).map itemKey).Nodup) :
    ∃ t' b', hashtableMigrateSlots E itemKey t b = some (t', b') ∧ Moved E itemKey t t' b.bag ∧
      ∀ i, (b'.slot i).state = .empty := by
  have hbag : b.bag = ((List.finRange 8).map fun i => (b.slot i).bag).sum :=
    Fin.sum_univ_def _
  rw [hbag] at hkeys ⊢
  obtain ⟨t', b', hrun, hmv⟩ :=
    migrateSlotsFrom_spec (List.nodup_finRange 8) hm hok (fun i _ => hb i) hkeys
  exact ⟨t', b', hrun, hmv, migrateSlots_empty hrun⟩

theorem migrateChained_spec {n j : ℕ} {next : List (Chained ι)} {t : Table ι} {m : Mapping ι}
    (hm : t.newBuckets = some m) (hok : ArrayOk E itemKey t.newBucketCount m.chains)
    (hb : ∀ c ∈ next, ∀ i, SlotOk E itemKey n j (c.bucket.slot i))
    (hkeys : (((next.map fun c => c.bucket.bag).sum + arrayBag m.chains).map itemKey).Nodup) :
    ∃ t', migrateChained E itemKey next t = some t' ∧
      Moved E itemKey t t' (next.map fun c => c.bucket.bag).sum := by
  induction next generalizing t m with
  | nil =>
    refine ⟨t, rfl, Moved.refl fun m' hm' => ?_⟩
    rw [hm, Option.some.injEq] at hm'
    exact hm' ▸ hok
  | cons c next ih =>
    simp only [List.map_cons, List.sum_cons] at hkeys ⊢
    have hle : c.bucket.bag + arrayBag m.chains ≤
        c.bucket.bag + (next.map fun c => c.bucket.bag).sum + arrayBag m.chains :=
      add_le_add_left (Multiset.le_add_right _ _) _
    obtain ⟨t₁, b₁, hrun₁, hmv₁, -⟩ := migrateSlots_spec hm hok (hb c (by simp))
      (Multiset.nodup_of_le (Multiset.map_le_map hle) hkeys)
    obtain ⟨m₁, hm₁, hok₁, hbag₁⟩ := hmv₁.new_ok hm
    obtain ⟨t', hrun, hmv⟩ := ih (t := { t₁ with trace := .free c.addr :: t₁.trace }) hm₁ hok₁
      (fun d hd => hb d (List.mem_cons_of_mem _ hd))
      (by rw [hbag₁]; convert hkeys using 2; abel)
    refine ⟨t', ?_, ?_⟩
    · rw [migrateChained, hrun₁]
      exact hrun
    · have hfree : Moved E itemKey t { t₁ with trace := .free c.addr :: t₁.trace } c.bucket.bag :=
        ⟨by conv_lhs => rw [hmv₁.frame], hmv₁.new⟩
      exact hfree.trans hmv

end Kvx.Hashtable
