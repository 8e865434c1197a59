import Kvx.TableFrame

/-!
# A claimed slot without an item

`hashtable_set` marks the slot of an absent key BUSY before an item is there. Until the
caller stores one the slot is a hole: no migration step fills or moves it, and a lookup
of the key reads through its `NULL`.
-/
namespace Kvx.Hashtable

open Kvx.Lib

variable {ι : Type} {E : Env} {itemKey : ι → List UInt8} {key : List UInt8}

def Chain.Holed (chain : Chain ι) (tag : BitVec 8) : Prop :=
  ∃ loc s, chain.slotAt loc = some s ∧ s.state = .busy ∧ s.item = none ∧ s.tag = tag

def NoKey (itemKey : ι → List UInt8) (key : List UInt8) (s : Multiset ι) : Prop :=
  ∀ p ∈ s, itemKey p ≠ key

/-- The search for the key meets the hole. -/
theorem find_holed {chain : Chain ι} {tag : BitVec 8} (h : chain.Holed tag)
    (hno : NoKey itemKey key chain.bag) :
    hashtableFindItemSlotInBucket itemKey chain tag key = none := by
  obtain ⟨loc, s, hs, hb, hi, ht⟩ := h
  cases hf : hashtableFindItemSlotInBucket itemKey chain tag key with
  | none => rfl
  | some r =>
    cases r with
    | none =>
      obtain ⟨p, hp, -⟩ := find_miss hf loc s hs hb ht
      simp [hi] at hp
    | some found =>
      obtain ⟨u, hu, hub, p, hp, hk⟩ := find_hit hf
      exact absurd hk (hno p (mem_chain_bag.mpr ⟨found, u, hu, hub, hp⟩))

theorem arrayDelete_holed {chains : List (Chain ι)} {n : ℕ} {c : Chain ι}
    (hc : chains[bucketIdx (E.xxh3 key) n]? = some c) (h : c.Holed (hashTag (E.xxh3 key)))
    (hno : NoKey itemKey key (arrayBag chains)) :
    arrayDelete itemKey chains n (E.xxh3 key) (hashTag (E.xxh3 key)) key = none := by
  have hfind := find_holed h fun p hp => hno p (mem_arrayBag.mpr ⟨_, c, hc, hp⟩)
  rw [arrayDelete]
  simp -implicitDefEqProofs only [hc, hfind, Option.bind_eq_bind, Option.bind_some,
    Option.bind_none]

def BusyKept (chains chains' : List (Chain ι)) : Prop :=
  ∀ (j : ℕ) (c : Chain ι), chains[j]? = some c → ∃ c', chains'[j]? = some c' ∧
    ∀ loc s, c.slotAt loc = some s → s.state = .busy → c'.slotAt loc = some s

theorem BusyKept.refl (chains : List (Chain ι)) : BusyKept chains chains :=
  fun _ c hc => ⟨c, hc, fun _ _ hs _ => hs⟩

theorem BusyKept.trans {a b c : List (Chain ι)} (h : BusyKept a b) (h' : BusyKept b c) :
    BusyKept a c := by
  intro j x hx
  obtain ⟨y, hy, hxy⟩ := h j x hx
  obtain ⟨z, hz, hyz⟩ := h' j y hy
  exact ⟨z, hz, fun loc s hs hb => hyz loc s (hxy loc s hs hb) hb⟩

theorem BusyKept.set {chains : List (Chain ι)} {j : ℕ} {c d : Chain ι} (hc : chains[j]? = some c)
    (h : ∀ loc s, c.slotAt loc = some s → s.state = .busy → d.slotAt loc = some s) :
    BusyKept chains (chains.set j d) := by
  intro i x hx
  rw [List.getElem?_set]
  by_cases hij : j = i
  · subst hij
    rw [hc, Option.some.injEq] at hx
    subst hx
    exact ⟨d, by rw [if_pos rfl, if_pos (List.getElem?_eq_some_iff.mp hc).1], h⟩
  · exact ⟨x, by rw [if_neg hij, hx], fun _ _ hs _ => hs⟩

theorem BusyKept.holed {chains chains' : List (Chain ι)} (h : BusyKept chains chains') {j : ℕ}
    {c : Chain ι} {tag : BitVec 8} (hc : chains[j]? = some c) (hh : c.Holed tag) :
    ∃ c', chains'[j]? = some c' ∧ c'.Holed tag := by
  obtain ⟨c', hc', hkeep⟩ := h j c hc
  obtain ⟨loc, s, hs, hb, hi, ht⟩ := hh
  exact ⟨c', hc', loc, s, hkeep loc s hs hb, hb, hi, ht⟩

/-- The items of a changed chain were in the array, or were put in the slot `loc`. -/
theorem mem_arrayBag_set {chains : List (Chain ι)} {j : ℕ} {c d : Chain ι}
    (hc : chains[j]? = some c) {P : ι → Prop}
    (h : ∀ loc s p, d.slotAt loc = some s → s.state = .busy → s.item = some p →
      p ∈ c.bag ∨ P p) {p : ι} (hp : p ∈ arrayBag (chains.set j d)) :
    p ∈ arrayBag chains ∨ P p := by
  obtain ⟨i, x, hx, hpx⟩ := mem_arrayBag.mp hp
  rw [List.getElem?_set] at hx
  split_ifs at hx with hij
  · rw [← Option.some.inj hx] at hpx
    obtain ⟨loc, s, hs, hb, hi⟩ := mem_chain_bag.mp hpx
    exact (h loc s p hs hb hi).imp_left fun hm => mem_arrayBag.mpr ⟨j, c, hc, hm⟩
  · exact Or.inl (mem_arrayBag.mpr ⟨i, x, hx, hpx⟩)

theorem Extends.busy_mem {c d : Chain ι} (h : Extends c d) {loc : Loc} {s : Slot ι} {p : ι}
    (hs : d.slotAt loc = some s) (hb : s.state = .busy) (hi : s.item = some p) : p ∈ c.bag := by
  rw [← h.bag_eq]
  exact mem_chain_bag.mpr ⟨loc, s, hs, hb, hi⟩

theorem NoKey.extended {chains : List (Chain ι)} {j : ℕ} {c d : Chain ι}
    (hno : NoKey itemKey key (arrayBag chains)) (hc : chains[j]? = some c) (hext : Extends c d) :
    NoKey itemKey key (arrayBag (chains.set j d)) := by
  intro p hp
  refine hno p ((mem_arrayBag_set (P := fun _ => False) hc (fun l s q hs hb hi => ?_)
    hp).resolve_right id)
  exact Or.inl (hext.busy_mem hs hb hi)

/-- The chain of a key that was absent has a hole once its slot is claimed. -/
theorem arraySet_holed {n addr : ℕ} {chains : List (Chain ι)} {r : ArraySet ι} {side : Side}
    (hok : ArrayOk E itemKey n chains)
    (hrun : arraySet itemKey addr chains n (E.xxh3 key) (hashTag (E.xxh3 key)) key = some r)
    (hread : readChains r.chains ⟨side, r.idx, r.loc⟩ = some none) :
    (∃ d, r.chains[bucketIdx (E.xxh3 key) n]? = some d ∧ d.Holed (hashTag (E.xxh3 key))) ∧
      NoKey itemKey key (arrayBag r.chains) := by
  cases arraySet_outcome hrun with
  | @hit c loc s at_idx at_loc hits =>
    obtain ⟨-, q, hq, -⟩ := hits
    rw [readChains_set (List.getElem?_eq_some_iff.mp at_idx).1 at_loc, hq] at hread
    simp at hread
  | @claim c c' d loc s grown at_idx misses ext at_loc empty claimed =>
    have hdl := claimed loc
    rw [if_pos rfl] at hdl
    rw [readChains_set (List.getElem?_eq_some_iff.mp at_idx).1 hdl, Option.some.injEq] at hread
    have hlt := (List.getElem?_eq_some_iff.mp at_idx).1
    refine ⟨⟨d, List.getElem?_set_self hlt, loc, _, hdl, rfl, hread, rfl⟩, ?_⟩
    have habs := hok.absent at_idx misses
    intro p hp
    refine habs p ?_
    refine (mem_arrayBag_set (P := fun _ => False) at_idx (fun l u q hu hb hi => ?_) hp).resolve_right
      id
    left
    rw [claimed] at hu
    split_ifs at hu with hl
    · rw [← Option.some.inj hu] at hi
      exact absurd (hi.symm.trans hread) (by simp)
    · exact ext.busy_mem hu hb hi

/-- Where the hole of a key lies: in the array its lookup goes to. -/
inductive Holed (E : Env) (itemKey : ι → List UInt8) (key : List UInt8) (t : Table ι) : Prop
  | old {c : Chain ι} (at_idx : t.oldBuckets.chains[bucketIdx (E.xxh3 key) t.oldBucketCount]? = some c)
      (hole : c.Holed (hashTag (E.xxh3 key)))
      (old : NoKey itemKey key (arrayBag t.oldBuckets.chains))
      (pos : t.migrationPos ≤ bucketIdx (E.xxh3 key) t.oldBucketCount)
      (idx_lt : t.newBuckets ≠ none → bucketIdx (E.xxh3 key) t.oldBucketCount < t.oldBucketCount)
  | new {m : Mapping ι} {c : Chain ι} (running : t.newBuckets = some m)
      (at_idx : m.chains[bucketIdx (E.xxh3 key) t.newBucketCount]? = some c)
      (hole : c.Holed (hashTag (E.xxh3 key)))
      (old : NoKey itemKey key (arrayBag t.oldBuckets.chains))
      (new : NoKey itemKey key (arrayBag m.chains))
      (pos : bucketIdx (E.xxh3 key) t.oldBucketCount < t.migrationPos)

theorem set_holed {t t' : Table ι} {ref : SlotRef} {granted : Bool} (h : TableInv E itemKey t)
    (hrun : hashtableSet E itemKey granted t (E.xxh3 key) key = some (t', ref))
    (hread : t'.readSlot ref = some none) : Holed E itemKey key t' := by
  obtain ⟨t₁, hrun₁, hinv₁, -⟩ := maintenance_spec h
  simp -implicitDefEqProofs only [hashtableSet, hrun₁, Option.bind_eq_bind, Option.bind_some]
    at hrun
  cases hside : hashtableItemInNewBucket t₁ (E.xxh3 key) with
  | true =>
    obtain ⟨⟨m, hm⟩, hlt⟩ := inNew_true hside
    rw [hside, if_pos rfl] at hrun
    simp only [hashtableSetNew, Option.bind_eq_bind, Option.bind_eq_some_iff, Option.some.injEq,
      Prod.mk.injEq] at hrun
    obtain ⟨m', hm', r, hr, rfl, rfl⟩ := hrun
    rw [hm, Option.some.injEq] at hm'
    subst hm'
    simp only [Table.readSlot, Table.side, Option.map_some, Option.bind_eq_bind,
      Option.bind_some] at hread
    obtain ⟨⟨d, hd, hhole⟩, hno⟩ := arraySet_holed (hinv₁.running m hm).ok hr hread
    rw [noteCalloc_eq]
    exact .new rfl hd hhole (hinv₁.absent_old hm hlt) hno hlt
  | false =>
    obtain ⟨hinv₂, -⟩ := checkInit_spec hinv₁ granted
    have hpos := checkInit_pos granted (inNew_false hinv₁ hside)
    rw [hside, if_neg Bool.false_ne_true] at hrun
    simp only [hashtableSetOld, Option.bind_eq_bind, Option.bind_eq_some_iff, Option.some.injEq,
      Prod.mk.injEq] at hrun
    obtain ⟨r, hr, rfl, rfl⟩ := hrun
    simp only [Table.readSlot, Table.side, Option.bind_eq_bind, Option.bind_some] at hread
    obtain ⟨⟨d, hd, hhole⟩, hno⟩ := arraySet_holed hinv₂.old_ok hr hread
    rw [noteCalloc_eq]
    exact .old hd hhole hno hpos fun _ => bucketIdx_lt hinv₂.old_ok.pos

/-- A migration that was not stopped by a `NULL` item: no item with the key came in. -/
structure Absorbs (itemKey : ι → List UInt8) (key : List UInt8) (t t' : Table ι) : Prop where
  old : t'.oldBuckets = t.oldBuckets
  new : ∀ m, t.newBuckets = some m → ∃ m', t'.newBuckets = some m' ∧
    BusyKept m.chains m'.chains ∧
    (NoKey itemKey key (arrayBag m.chains) → NoKey itemKey key (arrayBag m'.chains))

theorem Absorbs.refl (t : Table ι) : Absorbs itemKey key t t :=
  ⟨rfl, fun m hm => ⟨m, hm, BusyKept.refl _, id⟩⟩

theorem Absorbs.trans {t t' t'' : Table ι} (h : Absorbs itemKey key t t')
    (h' : Absorbs itemKey key t' t'') : Absorbs itemKey key t t'' := by
  refine ⟨h'.old.trans h.old, fun m hm => ?_⟩
  obtain ⟨m', hm', hb, hn⟩ := h.new m hm
  obtain ⟨m'', hm'', hb', hn'⟩ := h'.new m' hm'
  exact ⟨m'', hm'', hb.trans hb', fun hno => hn' (hn hno)⟩

theorem migrateSlot_absorbs (key : List UInt8) {t t' : Table ι} {i : Fin 8} {b b' : Bucket ι}
    {item : Option ι} (hrun : hashtableMigrateSlot E itemKey t i b item = some (t', b')) :
    ∃ p, item = some p ∧ (itemKey p ≠ key → Absorbs itemKey key t t') := by
  simp only [hashtableMigrateSlot, Option.bind_eq_bind, Option.bind_eq_some_iff,
    Option.map_eq_some_iff] at hrun
  obtain ⟨k, ⟨p, rfl, rfl⟩, m, hm, c, hc, found, hf, nb, hb, h⟩ := hrun
  have hold : ∀ g, (Table.noteCalloc { t with oldSize := t.oldSize - 1 } g).oldBuckets =
      t.oldBuckets := by
    intro g
    cases g <;> rfl
  have hext := (locate_spec hf).extends
  split_ifs at h with hempty
  · simp only [Option.some.injEq, Prod.mk.injEq] at h
    obtain ⟨rfl, rfl⟩ := h
    refine ⟨p, rfl, fun hne => ⟨hold _, fun m₁ hm₁ => ?_⟩⟩
    rw [hm, Option.some.injEq] at hm₁
    subst hm₁
    rw [getSlotState_eq_slot] at hempty
    have hat : found.chain.slotAt found.loc = some (nb.slot found.loc.slot) := by
      simp [Chain.slotAt, hb]
    let f : Bucket ι → Bucket ι := fun _ => hashtableBucketSetSlotItem
      (hashtableBucketSetSlotHashTag (hashtableBucketSetSlotState nb found.loc.slot .busy)
        found.loc.slot (hashTag (E.xxh3 (itemKey p)))) found.loc.slot (some p)
    have hwrite : ∀ l, (found.chain.modify found.loc.bucket f).slotAt l =
        if l = found.loc then some ⟨.busy, hashTag (E.xxh3 (itemKey p)), some p⟩
        else found.chain.slotAt l := by
      intro l
      rw [slotAt_write (i := found.loc.slot) hb fun j hj => by simp [f, hj]]
      simp [f]
    refine ⟨_, rfl, BusyKept.set hc fun l s hs hbusy => ?_, fun hno q hq => ?_⟩
    · rw [hwrite, if_neg, hext.keeps l s hs]
      rintro rfl
      rw [hext.keeps _ s hs, Option.some.injEq] at hat
      rw [hat, hempty] at hbusy
      simp at hbusy
    · have hnew : ∀ l s q, (found.chain.modify found.loc.bucket f).slotAt l = some s →
          s.state = .busy → s.item = some q → q ∈ c.bag ∨ q = p := by
        intro l s q hs hbusy hi
        rw [hwrite] at hs
        split_ifs at hs with hl
        · rw [← Option.some.inj hs] at hi
          exact Or.inr (Option.some.inj hi).symm
        · exact Or.inl (hext.busy_mem hs hbusy hi)
      rcases mem_arrayBag_set (P := fun q => q = p) hc hnew hq with hq | rfl
      · exact hno q hq
      · exact hne
  · simp only [Option.some.injEq, Prod.mk.injEq] at h
    obtain ⟨rfl, rfl⟩ := h
    refine ⟨p, rfl, fun _ => ⟨hold _, fun m₁ hm₁ => ?_⟩⟩
    rw [hm, Option.some.injEq] at hm₁
    subst hm₁
    exact ⟨_, rfl, BusyKept.set hc fun l s hs _ => hext.keeps l s hs,
      fun hno => hno.extended hc hext⟩

/-- A slot that a migration passes without a fault. -/
def Slot.Passes (itemKey : ι → List UInt8) (key : List UInt8) (s : Slot ι) : Prop :=
  ∀ p, s.state = .busy → s.item = some p → itemKey p ≠ key

theorem migrateSlotsFrom_absorbs {slots : List (Fin 8)} (hnd : slots.Nodup) {t t' : Table ι}
    {b b' : Bucket ι} (hb : ∀ i ∈ slots, (b.slot i).Passes itemKey key)
    (hrun : migrateSlotsFrom E itemKey slots t b = some (t', b')) :
    Absorbs itemKey key t t' ∧ ∀ i ∈ slots, ¬ (b.slot i).Null := by
  induction slots generalizing t b with
  | nil =>
    simp only [migrateSlotsFrom, Option.some.injEq, Prod.mk.injEq] at hrun
    obtain ⟨rfl, rfl⟩ := hrun
    exact ⟨Absorbs.refl t, by simp⟩
  | cons i slots ih =>
    obtain ⟨hi, hnd⟩ := List.nodup_cons.mp hnd
    unfold migrateSlotsFrom at hrun
    cases hst : (b.slot i).state with
    | empty =>
      rw [if_pos (by simp [hst])] at hrun
      obtain ⟨habs, hnull⟩ := ih hnd (fun k hk => hb k (List.mem_cons_of_mem _ hk)) hrun
      refine ⟨habs, fun k hk => ?_⟩
      rcases List.mem_cons.mp hk with rfl | hk
      · rintro ⟨hbusy, -⟩
        simp [hst] at hbusy
      · exact hnull k hk
    | busy =>
      rw [if_neg (by simp [hst])] at hrun
      simp only [Option.bind_eq_bind, Option.bind_eq_some_iff] at hrun
      obtain ⟨⟨t₁, b₁⟩, h₁, hrun⟩ := hrun
      obtain ⟨p, hp, habs₁⟩ := migrateSlot_absorbs key h₁
      rw [migrateSlot_bucket h₁] at hrun
      rw [getSlotItem_eq] at hp
      have hsame : ∀ k ∈ slots, (hashtableBucketSetSlotState b i .empty).slot k = b.slot k := by
        intro k hk
        have hne : k ≠ i := fun he => hi (he ▸ hk)
        simp [hne]
      obtain ⟨habs, hnull⟩ := ih hnd (fun k hk => by
        rw [hsame k hk]
        exact hb k (List.mem_cons_of_mem _ hk)) hrun
      refine ⟨(habs₁ (hb i (by simp) p hst hp)).trans habs, fun k hk => ?_⟩
      rcases List.mem_cons.mp hk with rfl | hk
      · rintro ⟨-, hnone⟩
        simp [hp] at hnone
      · rw [← hsame k hk]
        exact hnull k hk

theorem migrateSlots_absorbs {t t' : Table ι} {b b' : Bucket ι}
    (hb : ∀ i, (b.slot i).Passes itemKey key)
    (hrun : hashtableMigrateSlots E itemKey t b = some (t', b')) :
    Absorbs itemKey key t t' ∧ (∀ i, ¬ (b.slot i).Null) ∧ ∀ i, (b'.slot i).state = .empty := by
  obtain ⟨habs, hnull⟩ := migrateSlotsFrom_absorbs (List.nodup_finRange 8) (fun i _ => hb i) hrun
  exact ⟨habs, fun i => hnull i (List.mem_finRange i), migrateSlots_empty hrun⟩

theorem migrateChained_absorbs {next : List (Chained ι)} {t t' : Table ι}
    (hb : ∀ c ∈ next, ∀ i, (c.bucket.slot i).Passes itemKey key)
    (hrun : migrateChained E itemKey next t = some t') :
    Absorbs itemKey key t t' ∧ ∀ c ∈ next, ∀ i, ¬ (c.bucket.slot i).Null := by
  induction next generalizing t with
  | nil =>
    simp only [migrateChained, Option.some.injEq] at hrun
    subst hrun
    exact ⟨Absorbs.refl t, by simp⟩
  | cons c next ih =>
    simp only [migrateChained, Option.bind_eq_bind, Option.bind_eq_some_iff] at hrun
    obtain ⟨⟨t₁, b₁⟩, h₁, hrun⟩ := hrun
    obtain ⟨habs₁, hnull₁, -⟩ := migrateSlots_absorbs (hb c (by simp)) h₁
    obtain ⟨habs, hnull⟩ := ih (fun d hd => hb d (List.mem_cons_of_mem _ hd)) hrun
    refine ⟨habs₁.trans ⟨habs.old, habs.new⟩, fun d hd => ?_⟩
    rcases List.mem_cons.mp hd with rfl | hd
    · exact hnull₁
    · exact hnull d hd

theorem migrateBucket_absorbs {t t' : Table ι} {pos : ℕ}
    (hold : NoKey itemKey key (arrayBag t.oldBuckets.chains))
    (hrun : hashtableMigrateBucket E itemKey t pos = some t') :
    ∃ c head, t.oldBuckets.chains[pos]? = some c ∧
      (∀ loc s, c.slotAt loc = some s → ¬ s.Null) ∧ (∀ i, (head.slot i).state = .empty) ∧
      Absorbs itemKey key { t with oldBuckets :=
        { t.oldBuckets with chains := t.oldBuckets.chains.set pos ⟨head, []⟩ } } t' := by
  simp only [hashtableMigrateBucket, Option.bind_eq_bind, Option.bind_eq_some_iff] at hrun
  obtain ⟨c, hc, ⟨t₁, head⟩, h₁, hrun⟩ := hrun
  have hpass : ∀ loc s, c.slotAt loc = some s → s.Passes itemKey key := by
    intro loc s hs p hb hp
    exact hold p (mem_arrayBag.mpr ⟨pos, c, hc, mem_chain_bag.mpr ⟨loc, s, hs, hb, hp⟩⟩)
  obtain ⟨hhead, hnext⟩ := forall_slots.mp hpass
  obtain ⟨habs₁, hnull₁, hempty⟩ := migrateSlots_absorbs hhead h₁
  obtain ⟨habs, hnull⟩ := migrateChained_absorbs hnext hrun
  refine ⟨c, head, hc, forall_slots.mpr ⟨hnull₁, hnull⟩, hempty, ?_, fun m hm => ?_⟩
  · rw [habs.old]
    simp only [habs₁.old]
  · obtain ⟨m₁, hm₁, hb₁, hn₁⟩ := habs₁.new m hm
    obtain ⟨m', hm', hb, hn⟩ := habs.new m₁ hm₁
    exact ⟨m', hm', hb₁.trans hb, fun hno => hn (hn₁ hno)⟩

theorem noKey_drained {chains : List (Chain ι)} {pos : ℕ} {c : Chain ι} {head : Bucket ι}
    (hc : chains[pos]? = some c) (hno : NoKey itemKey key (arrayBag chains))
    (hempty : ∀ i, (head.slot i).state = .empty) :
    NoKey itemKey key (arrayBag (chains.set pos ⟨head, []⟩)) := by
  intro p hp
  refine hno p ((mem_arrayBag_set (P := fun _ => False) hc (fun l s q hs hb _ => ?_)
    hp).resolve_right id)
  rw [slots_of_empty hempty l s hs] at hb
  simp at hb

/-- A step that gets past the hole leaves it in the array its key is looked up in. -/
theorem Holed.step {t t' : Table ι} {m : Mapping ι} (h : Holed E itemKey key t)
    (hm : t.newBuckets = some m) (hrun : hashtableProcessMigrationStep E itemKey t = some t') :
    Holed E itemKey key t' := by
  simp only [hashtableProcessMigrationStep, Option.bind_eq_bind, Option.bind_eq_some_iff] at hrun
  obtain ⟨t₁, h₁, hrun⟩ := hrun
  have hframe := Kept.migrateBucket h₁
  have hpos : t₁.migrationPos = t.migrationPos + 1 := hframe.migrationPos
  have hcount : t₁.oldBucketCount = t.oldBucketCount := hframe.oldBucketCount
  have hncount : t₁.newBucketCount = t.newBucketCount := hframe.newBucketCount
  rw [hpos, hcount] at hrun
  cases h with
  | @old c at_idx hole old pos idx_lt =>
    obtain ⟨c₀, head, hc₀, hnull, hempty, habs⟩ := migrateBucket_absorbs
      (t := { t with migrationPos := t.migrationPos + 1 }) old h₁
    have hidx := idx_lt (by simp [hm])
    have hne : t.migrationPos ≠ bucketIdx (E.xxh3 key) t.oldBucketCount := by
      intro he
      rw [he, at_idx, Option.some.injEq] at hc₀
      obtain ⟨loc, s, hs, hb, hi, -⟩ := hole
      exact hnull loc s (hc₀ ▸ hs) ⟨hb, hi⟩
    have hold : t₁.oldBuckets.chains = t.oldBuckets.chains.set t.migrationPos ⟨head, []⟩ := by
      rw [habs.old]
    rw [if_neg (by omega), Option.some.injEq] at hrun
    subst hrun
    refine .old (c := c) ?_ hole ?_ ?_ ?_
    · rw [hcount, hold, List.getElem?_set, if_neg hne]
      exact at_idx
    · rw [hold]
      exact noKey_drained hc₀ old hempty
    · rw [hpos, hcount]
      omega
    · rw [hcount]
      exact fun _ => hidx
  | @new m₀ c running at_idx hole old new pos =>
    obtain ⟨c₀, head, hc₀, hnull, hempty, habs⟩ := migrateBucket_absorbs
      (t := { t with migrationPos := t.migrationPos + 1 }) old h₁
    obtain ⟨m₁, hm₁, hkept, hno⟩ := habs.new m₀ running
    obtain ⟨c₁, hc₁, hole₁⟩ := hkept.holed at_idx hole
    split_ifs at hrun with hdone
    · rw [hm₁, Option.bind_some, Option.some.injEq] at hrun
      subst hrun
      refine .old (c := c₁) ?_ hole₁ (hno new) (Nat.zero_le _) (by simp [hashtableFinishMigration])
      simp only [hashtableFinishMigration, hncount]
      exact hc₁
    · rw [Option.some.injEq] at hrun
      subst hrun
      refine .new hm₁ ?_ hole₁ ?_ (hno new) ?_
      · rw [hncount]
        exact hc₁
      · rw [habs.old]
        exact noKey_drained hc₀ old hempty
      · rw [hpos, hcount]
        omega

/-- Deleting the key of a hole always reads through its `NULL`. -/
theorem delete_holed {t : Table ι} (h : Holed E itemKey key t) :
    hashtableDelete E itemKey t (E.xxh3 key) key = none := by
  have hfrom : ∀ t₁, Holed E itemKey key t₁ →
      (if hashtableItemInNewBucket t₁ (E.xxh3 key) then
        hashtableDeleteNew itemKey t₁ (E.xxh3 key) (hashTag (E.xxh3 key)) key
      else hashtableDeleteOld itemKey t₁ (E.xxh3 key) (hashTag (E.xxh3 key)) key) = none := by
    intro t₁ h₁
    cases h₁ with
    | old at_idx hole old pos idx_lt =>
      have hside : hashtableItemInNewBucket t₁ (E.xxh3 key) = false := by
        unfold hashtableItemInNewBucket
        split_ifs
        · rfl
        · simpa using pos
      rw [hside, if_neg Bool.false_ne_true, hashtableDeleteOld, arrayDelete_holed at_idx hole old]
      rfl
    | new running at_idx hole old new pos =>
      have hside : hashtableItemInNewBucket t₁ (E.xxh3 key) = true := by
        unfold hashtableItemInNewBucket
        simp [running, pos]
      rw [hside, if_pos rfl, hashtableDeleteNew]
      simp -implicitDefEqProofs only [running, arrayDelete_holed at_idx hole new,
        Option.bind_eq_bind, Option.bind_some, Option.bind_none]
  rw [hashtableDelete]
  cases hrun : hashtableMaintenance E itemKey t with
  | none => rfl
  | some t₁ =>
    simp -implicitDefEqProofs only [Option.bind_eq_bind, Option.bind_some]
    apply hfrom
    unfold hashtableMaintenance hashtableMigrationRunning at hrun
    cases hm : t.newBuckets with
    | none =>
      rw [hm] at hrun
      simp only [Option.isSome_none, Bool.false_eq_true, ↓reduceIte, Option.some.injEq] at hrun
      exact hrun ▸ h
    | some m =>
      rw [hm] at hrun
      simp only [Option.isSome_some, ↓reduceIte] at hrun
      exact h.step hm hrun

end Kvx.Hashtable
