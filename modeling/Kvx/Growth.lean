import Kvx.TableFrame

/-!
# Growth keeps pace with load

A migration of `c` chains starts with `6 * c` keys and takes `c` operations, each of which
adds at most one key. It is over before the next one is due.
-/
namespace Kvx.Hashtable

open Kvx.Pages

variable {ι : Type} {E : Env}

def calls : List (Op ι) → ℕ
  | [] => 0
  | .get _ :: ops => calls ops
  | _ :: ops => calls ops + 1

/-- `hashtable_check_init_migration` goes on to `pages_map`. -/
def Table.Due (t : Table ι) : Prop := t.newBuckets = none ∧ t.scaleAtSize ≤ t.oldSize

/-- `pages_map` succeeds, should the operation get to it. -/
def Grants (E : Env) (w : World ι) : Op ι → Prop
  | .set granted _ _ _ => ∀ t ∈ hashtableMaintenance E w.itemKey w.table, t.Due →
      pagesMap E.pageSize granted (sizeT (sizeT (t.oldBucketCount * 2) * sizeofBucket)) ≠ none
  | _ => True

instance (t : Table ι) : Decidable t.Due := inferInstanceAs (Decidable (_ ∧ _))

instance (E : Env) (w : World ι) (op : Op ι) : Decidable (Grants E w op) :=
  match op with
  | .set _ _ _ _ => inferInstanceAs (Decidable (∀ t ∈ hashtableMaintenance E w.itemKey w.table, _))
  | .get _ => .isTrue trivial
  | .delete _ => .isTrue trivial

def Event.IsMap : Event → Bool
  | .map _ => true
  | _ => false

def Table.arrays (t : Table ι) : ℕ := t.trace.countP Event.IsMap

structure Paced (t : Table ι) : Prop where
  old_pow : ∃ k, t.oldBucketCount = 2 ^ k
  pow : ∃ k, hashtableBucketCount t = 2 ^ k
  scale : t.scaleAtSize = 6 * t.oldBucketCount
  idle : t.newBuckets = none → hashtableLen t ≤ 6 * t.oldBucketCount
  running : t.newBuckets.isSome → hashtableLen t ≤ 6 * t.oldBucketCount + t.migrationPos + 1

/-- What one operation does to a migration; `c` is the number of buckets before it. -/
structure PacedStep (E : Env) (w : World ι) (op : Op ι) (w' : World ι) (c : ℕ) : Prop where
  count : w.table.oldBucketCount = c
  starts : w.table.newBuckets = none → ∀ m, w'.table.newBuckets = some m →
    hashtableLen w.table = 6 * c ∧ m.chains.length = 2 * c ∧ w'.table.oldBucketCount = c ∧
      w'.table.migrationPos = 0
  created : w'.table.arrays = w.table.arrays ∨
    w'.table.arrays = w.table.arrays + 1 ∧ w.table.newBuckets = none ∧ w'.table.newBuckets.isSome
  moves : w.table.newBuckets.isSome → op.Migrates → w.table.migrationPos + 1 < c →
    w'.table.newBuckets.isSome ∧ w'.table.oldBucketCount = c ∧
      w'.table.migrationPos = w.table.migrationPos + 1
  -- `t` is the table at the end of the migration, before the operation adds its own key
  ends : w.table.newBuckets.isSome → op.Migrates → w.table.migrationPos + 1 = c →
    (∃ t, hashtableMaintenance E w.itemKey w.table = some t ∧ t.newBuckets = none ∧
      t.oldBucketCount = 2 * c ∧ hashtableLen t ≤ 7 * c ∧ 7 * c < t.scaleAtSize) ∧
    w'.table.newBuckets = none ∧ w'.table.oldBucketCount = 2 * c ∧
      hashtableLen w'.table ≤ 7 * c + 1 ∧ 7 * c + 1 < w'.table.scaleAtSize
  rests : ¬ op.Migrates → w' = w

/-- A migration of `c` chains that has just started, after the operations `ops`. -/
structure Completes (c : ℕ) (ops : List (Op ι)) (t : Table ι) : Prop where
  running : calls ops < c →
    t.newBuckets.isSome ∧ t.oldBucketCount = c ∧ t.migrationPos = calls ops
  finished : calls ops = c → t.newBuckets = none ∧ t.oldBucketCount = 2 * c

/-- The run from `w` completes, every operation keeps pace, and a migration of `c` chains is over
after `c` more calls. -/
def KeepsPace (E : Env) (w : World ι) (ops : List (Op ι)) : Prop :=
  ∃ w', runTo E w ops = some w' ∧ Paced w'.table ∧
    ∀ before op after, ops = before ++ op :: after →
      ∃ w₀ w₁ c, runTo E w before = some w₀ ∧ runTo E w (before ++ [op]) = some w₁ ∧
        PacedStep E w₀ op w₁ c ∧
        (w₀.table.newBuckets = none → w₁.table.newBuckets.isSome → Completes c after w'.table)

/-! ## Sizes -/

theorem scaleAt_eq {count : ℕ} (h : count * sizeofBucket < 2 ^ 60) : scaleAt count = 6 * count := by
  simp only [scaleAt, sizeT, hashtableBucketSlots, sizeofBucket] at h ⊢
  omega

theorem Kept.arrays {t t' : Table ι} (h : Kept t t') : t'.arrays = t.arrays := by
  obtain ⟨events, htrace, hall⟩ := h.trace
  have hnone : events.countP Event.IsMap = 0 := by
    rw [List.countP_eq_zero]
    intro e he
    have hchained := hall e he
    cases e with
    | map => exact hchained.elim
    | unmap => exact hchained.elim
    | calloc => exact Bool.false_ne_true
    | free => exact Bool.false_ne_true
  rw [Table.arrays, htrace, List.countP_append, hnone, Nat.zero_add, Table.arrays]

/-- One operation adds at most one key. -/
theorem Refines.len_succ {w w' : World ι} {M : ItemMap ι} {op : Op ι} (h : Refines E w M)
    (h' : Refines E w' (mapOp M op)) : hashtableLen w'.table ≤ hashtableLen w.table + 1 := by
  have hsub : {k | mapOp M op k ≠ none} ⊆ insert op.key {k | M k ≠ none} := by
    intro k hk
    by_cases hkey : k = op.key
    · exact Or.inl hkey
    · have hold : M k ≠ none := mapOp_of_ne (M := M) op hkey ▸ hk
      exact Or.inr hold
  have hle := (Set.encard_le_encard hsub).trans (Set.encard_insert_le _ _)
  rw [← h.len, ← h'.len] at hle
  exact_mod_cast hle

theorem Refines.len_delete {w w' : World ι} {M : ItemMap ι} {key : List UInt8}
    (h : Refines E w M) (h' : Refines E w' (mapOp M (.delete key))) :
    hashtableLen w'.table ≤ hashtableLen w.table := by
  have hsub : {k | mapOp M (.delete key) k ≠ none} ⊆ {k | M k ≠ none} := by
    intro k hk
    by_cases hkey : k = key
    · have hnone : mapOp M (.delete key) key = none := Function.update_self _ _ _
      exact absurd (hkey ▸ hnone) hk
    · have hold : M k ≠ none := mapOp_of_ne (M := M) (.delete key) hkey ▸ hk
      exact hold
  have hle := Set.encard_le_encard hsub
  rw [← h.len, ← h'.len] at hle
  exact_mod_cast hle

/-! ## Starting a migration -/

section Start

variable {t : Table ι} {itemKey : ι → List UInt8} {granted : Bool}

theorem checkInit_stays (h : ¬ t.Due) : hashtableCheckInitMigration E granted t = t := by
  refine if_pos ?_
  by_contra hstay
  obtain ⟨hsize, hnew⟩ := not_or.mp hstay
  exact h ⟨by simpa using hnew, not_lt.mp hsize⟩

/-- `t'` is `t` with a new array. -/
structure Started (t t' : Table ι) : Prop where
  running : t'.newBuckets.isSome
  scaleAtSize : t'.scaleAtSize = t.scaleAtSize
  migrationPos : t'.migrationPos = t.migrationPos
  oldBucketCount : t'.oldBucketCount = t.oldBucketCount
  arrays : t'.arrays = t.arrays + 1

theorem checkInit_starts (h : t.Due)
    (hmap : pagesMap E.pageSize granted (sizeT (sizeT (t.oldBucketCount * 2) * sizeofBucket)) ≠
      none) : Started t (hashtableCheckInitMigration E granted t) := by
  obtain ⟨hnone, hsize⟩ := h
  obtain ⟨bytes, hbytes⟩ := Option.ne_none_iff_exists'.mp hmap
  rw [hashtableCheckInitMigration, if_neg (by simp [hnone, hsize])]
  simp only [hbytes]
  exact ⟨rfl, rfl, rfl, rfl, List.countP_cons_of_pos rfl⟩

theorem Started.kept {t' t'' : Table ι} (h : Started t t') (hkept : Kept t' t'') :
    Started t t'' :=
  ⟨hkept.isSome.trans h.running, hkept.scaleAtSize.trans h.scaleAtSize,
    hkept.migrationPos.trans h.migrationPos, hkept.oldBucketCount.trans h.oldBucketCount,
    hkept.arrays.trans h.arrays⟩

end Start

/-! ## One operation -/

theorem Paced.of_inv {itemKey : ι → List UInt8} {t : Table ι} (h : TableInv E itemKey t)
    (hscale : t.scaleAtSize = 6 * t.oldBucketCount)
    (hidle : t.newBuckets = none → hashtableLen t ≤ 6 * t.oldBucketCount)
    (hrunning : t.newBuckets.isSome →
      hashtableLen t ≤ 6 * t.oldBucketCount + t.migrationPos + 1) : Paced t := by
  obtain ⟨k, hk⟩ := h.count_pow
  refine ⟨⟨k, hk⟩, ?_, hscale, hidle, hrunning⟩
  unfold hashtableBucketCount
  cases hm : t.newBuckets with
  | none => exact ⟨k, hk⟩
  | some m =>
    refine ⟨k + 1, ?_⟩
    rw [if_pos (by rfl), (h.running m hm).count, hk]
    ring

/-- The effect of maintenance on what decides about growth. -/
inductive Maintained (t t₁ : Table ι) : Prop
  | rests : t.newBuckets = none → t₁ = t → Maintained t t₁
  | moves : t.newBuckets.isSome → t.migrationPos + 1 < t.oldBucketCount →
      t₁.newBuckets.isSome → t₁.oldBucketCount = t.oldBucketCount →
      t₁.migrationPos = t.migrationPos + 1 → t₁.scaleAtSize = t.scaleAtSize →
      t₁.arrays = t.arrays → Maintained t t₁
  | ends : t.newBuckets.isSome → t.migrationPos + 1 = t.oldBucketCount →
      t₁.newBuckets = none → t₁.oldBucketCount = 2 * t.oldBucketCount →
      t₁.scaleAtSize = 12 * t.oldBucketCount → t₁.arrays = t.arrays → Maintained t t₁

theorem maintained {itemKey : ι → List UInt8} {t t₁ : Table ι} (h : TableInv E itemKey t)
    (hrun : hashtableMaintenance E itemKey t = some t₁) : Maintained t t₁ := by
  rcases maintenance_cases hrun with ⟨hnone, rfl⟩ | ⟨t₂, m₂, hsome, h₂, hm₂, rfl⟩
  · exact .rests hnone rfl
  · have hkept := Kept.migrateBucket h₂
    obtain ⟨m, hm⟩ := Option.isSome_iff_exists.mp hsome
    have hr := h.running m hm
    have hpos := hr.pos
    by_cases hlast : t.migrationPos + 1 = t.oldBucketCount
    · rw [if_pos hlast]
      have hcount : t₂.newBucketCount = 2 * t.oldBucketCount := hkept.newBucketCount.trans hr.count
      refine .ends hsome hlast rfl hcount ?_ ?_
      · have hscale : scaleAt t₂.newBucketCount = 6 * t₂.newBucketCount :=
          scaleAt_eq (hkept.newBucketCount ▸ hr.bound)
        have hfinish : (hashtableFinishMigration t₂ m₂).scaleAtSize = scaleAt t₂.newBucketCount :=
          rfl
        rw [hfinish, hscale, hcount]
        omega
      · have harrays : (hashtableFinishMigration t₂ m₂).arrays = t₂.arrays :=
          List.countP_cons_of_neg Bool.false_ne_true
        rw [harrays, hkept.arrays]
        rfl
    · rw [if_neg hlast]
      refine .moves hsome (by omega) ?_ hkept.oldBucketCount hkept.migrationPos
        hkept.scaleAtSize hkept.arrays
      rw [hm₂]
      rfl

/-- A table after an operation that started no migration, nor ended one after `t₁`. -/
theorem Paced.kept {w' : World ι} {t₁ : Table ι} (h' : TableInv E w'.itemKey w'.table)
    (hkept : Kept t₁ w'.table) (hscale : t₁.scaleAtSize = 6 * t₁.oldBucketCount)
    (hidle : t₁.newBuckets = none → hashtableLen w'.table ≤ 6 * t₁.oldBucketCount)
    (hrunning : t₁.newBuckets.isSome →
      hashtableLen w'.table ≤ 6 * t₁.oldBucketCount + t₁.migrationPos + 1) : Paced w'.table := by
  have hsome := hkept.isSome
  refine .of_inv h' ?_ (fun hn => ?_) fun hs => ?_
  · rw [hkept.scaleAtSize, hkept.oldBucketCount, hscale]
  · rw [hkept.oldBucketCount]
    apply hidle
    rw [← Option.isNone_iff_eq_none, ← Option.not_isSome, ← hsome, hn]
    simp
  · rw [hkept.oldBucketCount, hkept.migrationPos]
    exact hrunning (hsome ▸ hs)

theorem TableInv.len_idle {itemKey : ι → List UInt8} {t : Table ι} (h : TableInv E itemKey t)
    (hidle : t.newBuckets = none) : hashtableLen t = t.oldSize := by
  rw [hashtableLen, (h.idle hidle).2, Nat.add_zero]

theorem Kept.idle {t t' : Table ι} (h : Kept t t') (hidle : t.newBuckets = none) :
    t'.newBuckets = none := by
  rw [← Option.not_isSome_iff_eq_none, h.isSome, hidle]
  exact Bool.false_ne_true

section Operation

variable {w w' : World ι} {op : Op ι} {t₁ : Table ι}

theorem paced_unstarted (hp : Paced w.table) (hinv' : TableInv E w'.itemKey w'.table)
    (hop : op.Migrates) (hidle : w.table.newBuckets = none) (hkept : Kept w.table w'.table)
    (hlen : hashtableLen w'.table ≤ 6 * w.table.oldBucketCount) :
    Paced w'.table ∧ PacedStep E w op w' w.table.oldBucketCount := by
  have hrests : ¬ w.table.newBuckets.isSome := by simp [hidle]
  have hidle' := hkept.idle hidle
  constructor
  · exact .kept hinv' hkept hp.scale (fun _ => hlen) fun hs => absurd hs hrests
  · exact {
      count := rfl
      starts := fun _ m hm => by simp [hidle'] at hm
      created := Or.inl hkept.arrays
      moves := fun hs => absurd hs hrests
      ends := fun hs => absurd hs hrests
      rests := fun hm => absurd hop hm }

theorem paced_started (h : TableInv E w.itemKey w.table) (hp : Paced w.table)
    (hinv' : TableInv E w'.itemKey w'.table) (hop : op.Migrates)
    (hsucc : hashtableLen w'.table ≤ hashtableLen w.table + 1) (hdue : w.table.Due)
    (hstart : Started w.table w'.table) :
    Paced w'.table ∧ PacedStep E w op w' w.table.oldBucketCount := by
  obtain ⟨hidle, hfull⟩ := hdue
  have hrests : ¬ w.table.newBuckets.isSome := by simp [hidle]
  have hrunning := hstart.running
  have hload := hp.idle hidle
  have hscale := hp.scale
  have hsize := h.len_idle hidle
  constructor
  · refine .of_inv hinv' ?_ (fun hn => ?_) fun _ => ?_
    · rw [hstart.scaleAtSize, hstart.oldBucketCount, hscale]
    · simp [hn] at hrunning
    · rw [hstart.oldBucketCount]
      omega
  · exact {
      count := rfl
      starts := fun _ m hm => by
        have hr := hinv'.running m hm
        refine ⟨by omega, ?_, hstart.oldBucketCount, ?_⟩
        · rw [hr.ok.length, hr.count, hstart.oldBucketCount]
        · rw [hstart.migrationPos]
          exact (h.idle hidle).1
      created := Or.inr ⟨hstart.arrays, hidle, hrunning⟩
      moves := fun hs => absurd hs hrests
      ends := fun hs => absurd hs hrests
      rests := fun hm => absurd hop hm }

theorem paced_moves (hp : Paced w.table) (hinv' : TableInv E w'.itemKey w'.table)
    (hop : op.Migrates) (hsucc : hashtableLen w'.table ≤ hashtableLen w.table + 1)
    (hsome : w.table.newBuckets.isSome) (hlt : w.table.migrationPos + 1 < w.table.oldBucketCount)
    (hsome₁ : t₁.newBuckets.isSome) (hcount₁ : t₁.oldBucketCount = w.table.oldBucketCount)
    (hpos₁ : t₁.migrationPos = w.table.migrationPos + 1)
    (hscale₁ : t₁.scaleAtSize = w.table.scaleAtSize) (harrays₁ : t₁.arrays = w.table.arrays)
    (hkept : Kept t₁ w'.table) :
    Paced w'.table ∧ PacedStep E w op w' w.table.oldBucketCount := by
  have hload := hp.running hsome
  constructor
  · refine .kept hinv' hkept (by rw [hscale₁, hcount₁, hp.scale]) (fun hn => ?_) fun _ => ?_
    · simp [hn] at hsome₁
    · rw [hcount₁, hpos₁]
      omega
  · exact {
      count := rfl
      starts := fun hn => by simp [hn] at hsome
      created := Or.inl (hkept.arrays.trans harrays₁)
      moves := fun _ _ _ => ⟨hkept.isSome.trans hsome₁, hkept.oldBucketCount.trans hcount₁,
        hkept.migrationPos.trans hpos₁⟩
      ends := fun _ _ hlast => by omega
      rests := fun hm => absurd hop hm }

theorem paced_ends (hp : Paced w.table) (hinv' : TableInv E w'.itemKey w'.table)
    (hmaint : hashtableMaintenance E w.itemKey w.table = some t₁)
    (hlen₁ : hashtableLen t₁ = hashtableLen w.table) (hop : op.Migrates)
    (hsucc : hashtableLen w'.table ≤ hashtableLen w.table + 1)
    (hsome : w.table.newBuckets.isSome) (hlast : w.table.migrationPos + 1 = w.table.oldBucketCount)
    (hnone₁ : t₁.newBuckets = none) (hcount₁ : t₁.oldBucketCount = 2 * w.table.oldBucketCount)
    (hscale₁ : t₁.scaleAtSize = 12 * w.table.oldBucketCount)
    (harrays₁ : t₁.arrays = w.table.arrays) (hkept : Kept t₁ w'.table) :
    Paced w'.table ∧ PacedStep E w op w' w.table.oldBucketCount := by
  have hload := hp.running hsome
  constructor
  · refine .kept hinv' hkept (by omega) (fun _ => by omega) fun hs => ?_
    simp [hnone₁] at hs
  · exact {
      count := rfl
      starts := fun hn => by simp [hn] at hsome
      created := Or.inl (hkept.arrays.trans harrays₁)
      moves := fun _ _ hlt => by omega
      ends := fun _ _ _ => by
        refine ⟨⟨t₁, hmaint, hnone₁, hcount₁, by omega, by omega⟩, hkept.idle hnone₁,
          hkept.oldBucketCount.trans hcount₁, by omega, ?_⟩
        rw [hkept.scaleAtSize]
        omega
      rests := fun hm => absurd hop hm }

theorem paced_step {M : ItemMap ι} {out : Outcome ι} (h : Refines E w M) (hp : Paced w.table)
    (h' : Refines E w' (mapOp M op)) (hgrant : Grants E w op)
    (hrun : runOp E w op = some (w', out)) :
    Paced w'.table ∧ PacedStep E w op w' w.table.oldBucketCount := by
  rcases runOp_cases hrun with ⟨hop, rfl⟩ | ⟨hop, t₁, hmaint, hcase⟩
  · exact ⟨hp, rfl, fun hn m hm => by simp [hn] at hm, Or.inl rfl, fun _ hm => absurd hm hop,
      fun _ hm => absurd hm hop, fun _ => rfl⟩
  obtain ⟨t₁', hmaint', hinv₁, hbag₁⟩ := maintenance_spec h.inv
  rw [hmaint, Option.some.injEq] at hmaint'
  subst hmaint'
  have hlen₁ : hashtableLen t₁ = hashtableLen w.table := by rw [hinv₁.len, h.inv.len, hbag₁]
  have hsucc := h.len_succ h'
  have hstay : ¬ t₁.Due → Kept t₁ w'.table := fun hd => by
    rcases hcase with ⟨hkept, -⟩ | ⟨granted, key, item, keys, -, hkept⟩
    · exact hkept
    · exact checkInit_stays hd ▸ hkept
  cases maintained h.inv hmaint with
  | rests hidle hsame =>
    subst hsame
    by_cases hdue : w.table.Due
    · rcases hcase with ⟨hkept, hsome | ⟨key, rfl⟩⟩ | ⟨granted, key, item, keys, rfl, hkept⟩
      · simp [hidle] at hsome
      · exact paced_unstarted hp h'.inv hop hidle hkept ((h.len_delete h').trans (hp.idle hidle))
      · have hstart := (checkInit_starts hdue (hgrant _ hmaint hdue)).kept hkept
        exact paced_started h.inv hp h'.inv hop hsucc hdue hstart
    · refine paced_unstarted hp h'.inv hop hidle (hstay hdue) ?_
      have hlt : w.table.oldSize < w.table.scaleAtSize := by
        by_contra hge
        exact hdue ⟨hidle, not_lt.mp hge⟩
      have hscale := hp.scale
      have hsize := h.inv.len_idle hidle
      omega
  | moves hsome hlt hsome₁ hcount₁ hpos₁ hscale₁ harrays₁ =>
    have hkept := hstay fun hd => by simp [hd.1] at hsome₁
    exact paced_moves hp h'.inv hop hsucc hsome hlt hsome₁ hcount₁ hpos₁ hscale₁ harrays₁ hkept
  | ends hsome hlast hnone₁ hcount₁ hscale₁ harrays₁ =>
    have hload := hp.running hsome
    have hsize : t₁.oldSize ≤ hashtableLen t₁ := Nat.le_add_right _ _
    have hkept := hstay fun hd => by
      have := hd.2
      omega
    exact paced_ends hp h'.inv hmaint hlen₁ hop hsucc hsome hlast hnone₁ hcount₁ hscale₁ harrays₁
      hkept

end Operation

/-! ## Runs -/

theorem calls_migrates {op : Op ι} (h : op.Migrates) (ops : List (Op ι)) :
    calls (op :: ops) = calls ops + 1 := by
  cases op with
  | set => rfl
  | get => exact h.elim
  | delete => rfl

theorem calls_rests {op : Op ι} (h : ¬ op.Migrates) (ops : List (Op ι)) :
    calls (op :: ops) = calls ops := by
  cases op with
  | set => exact absurd trivial h
  | get => rfl
  | delete => exact absurd trivial h

/-- A table that keeps pace, and what the callers of the operations to come promise. -/
structure Driven (E : Env) (w : World ι) (M : ItemMap ι) (ops : List (Op ι)) : Prop where
  refines : Refines E w M
  paced : Paced w.table
  stores : StoresAll M w.itemKey ops
  grants : ∀ s ∈ steps E w ops, Grants E s.1 s.2

theorem Driven.step {w : World ι} {M : ItemMap ι} {op : Op ι} {ops : List (Op ι)}
    (h : Driven E w M (op :: ops)) : ∃ w' out, runOp E w op = some (w', out) ∧
      PacedStep E w op w' w.table.oldBucketCount ∧ Driven E w' (mapOp M op) ops := by
  obtain ⟨hop, hops⟩ := h.stores
  obtain ⟨w', out, hrun, hkeys, href, -⟩ := runOp_refines h.refines hop
  have hgrants := h.grants
  simp only [steps, hrun, List.forall_mem_cons] at hgrants
  obtain ⟨hpaced, hstep⟩ := paced_step h.refines h.paced href hgrants.1 hrun
  exact ⟨w', out, hrun, hstep, href, hpaced, hkeys ▸ hops, hgrants.2⟩

theorem Driven.run {w : World ι} {M : ItemMap ι} {before after : List (Op ι)}
    (h : Driven E w M (before ++ after)) :
    ∃ w' M', runTo E w before = some w' ∧ Driven E w' M' after := by
  induction before generalizing w M with
  | nil => exact ⟨w, M, rfl, h⟩
  | cons op before ih =>
    obtain ⟨w₁, out, hrun, -, h₁⟩ := h.step
    obtain ⟨w', M', hrest, h'⟩ := ih h₁
    refine ⟨w', M', ?_, h'⟩
    rw [runTo, hrun]
    exact hrest

theorem runTo_append {w w' : World ι} {before : List (Op ι)} (h : runTo E w before = some w')
    (after : List (Op ι)) : runTo E w (before ++ after) = runTo E w' after := by
  induction before generalizing w with
  | nil =>
    rw [runTo, Option.some.injEq] at h
    rw [h, List.nil_append]
  | cons op before ih =>
    simp only [runTo, Option.bind_eq_bind, Option.bind_eq_some_iff] at h
    obtain ⟨⟨w₁, out⟩, hrun, h⟩ := h
    rw [List.cons_append, runTo, hrun]
    exact ih h

theorem Driven.rests {w w' : World ι} {M : ItemMap ι} {ops : List (Op ι)}
    (h : Driven E w M ops) (hcalls : calls ops = 0) (hrun : runTo E w ops = some w') :
    w' = w := by
  induction ops generalizing w M with
  | nil => exact (Option.some.inj hrun).symm
  | cons op ops ih =>
    obtain ⟨w₁, out, hop, hstep, h₁⟩ := h.step
    have hrest : ¬ op.Migrates := fun hm => by
      rw [calls_migrates hm] at hcalls
      omega
    rw [runTo, hop] at hrun
    rw [calls_rests hrest] at hcalls
    rw [ih h₁ hcalls hrun, hstep.rests hrest]

/-- A migration at its chain `migrationPos` goes through the others, one for each call. -/
theorem Driven.completes {w w' : World ι} {M : ItemMap ι} {ops : List (Op ι)} {c : ℕ}
    (h : Driven E w M ops) (hc : w.table.oldBucketCount = c) (hsome : w.table.newBuckets.isSome)
    (hrun : runTo E w ops = some w') :
    (w.table.migrationPos + calls ops < c → w'.table.newBuckets.isSome ∧
      w'.table.oldBucketCount = c ∧ w'.table.migrationPos = w.table.migrationPos + calls ops) ∧
    (w.table.migrationPos + calls ops = c →
      w'.table.newBuckets = none ∧ w'.table.oldBucketCount = 2 * c) := by
  induction ops generalizing w M with
  | nil =>
    rw [runTo, Option.some.injEq] at hrun
    subst hrun
    obtain ⟨m, hm⟩ := Option.isSome_iff_exists.mp hsome
    have hpos := (h.refines.inv.running m hm).pos
    exact ⟨fun _ => ⟨hsome, hc, rfl⟩, fun he => by simp only [calls] at he; omega⟩
  | cons op ops ih =>
    obtain ⟨w₁, out, hop, hstep, h₁⟩ := h.step
    rw [runTo, hop] at hrun
    rw [hc] at hstep
    by_cases hm : op.Migrates
    · rw [calls_migrates hm]
      obtain ⟨m, hm'⟩ := Option.isSome_iff_exists.mp hsome
      have hpos := (h.refines.inv.running m hm').pos
      by_cases hlast : w.table.migrationPos + 1 = c
      · obtain ⟨-, hnone, hcount, -⟩ := hstep.ends hsome hm hlast
        refine ⟨fun hlt => by omega, fun he => ?_⟩
        rw [h₁.rests (by omega) hrun]
        exact ⟨hnone, hcount⟩
      · obtain ⟨hsome₁, hcount₁, hpos₁⟩ := hstep.moves hsome hm (by omega)
        have hrec := ih h₁ hcount₁ hsome₁ hrun
        rw [hpos₁, Nat.add_assoc, Nat.add_comm 1] at hrec
        exact hrec
    · rw [calls_rests hm]
      have hsame := hstep.rests hm
      subst hsame
      exact ih h₁ hc hsome hrun

theorem init_paced {granted : Bool} {leftover cap : ℕ} {t : Table ι}
    {itemKey : ι → List UInt8} (h : TableInv E itemKey t) (hbag : t.bag = 0)
    (hinit : hashtableInit E granted leftover cap = some t) : Paced t := by
  have hlen : hashtableLen t = 0 := by rw [h.len, hbag, Multiset.card_zero]
  have hscale : t.scaleAtSize = scaleAt t.oldBucketCount := by
    simp only [hashtableInit] at hinit
    split_ifs at hinit
    all_goals
      split at hinit
      · simp at hinit
      · rw [Option.some.injEq] at hinit
        rw [← hinit]
  exact .of_inv h (hscale.trans (scaleAt_eq h.count_bound)) (fun _ => by omega) fun _ => by omega

theorem growth_keeps_pace {granted : Bool} {leftover cap : ℕ} {t : Table ι}
    (hcap : cap < 2 ^ 64) (hinit : hashtableInit E granted leftover cap = some t)
    (itemKey : ι → List UInt8) (ops : List (Op ι))
    (hst : StoresAll (fun _ => none) itemKey ops)
    (hgrants : ∀ s ∈ steps E ⟨t, itemKey⟩ ops, Grants E s.1 s.2) :
    KeepsPace E ⟨t, itemKey⟩ ops := by
  obtain ⟨hinv, hbag⟩ := init_spec hcap itemKey hinit
  have hdriven : Driven E ⟨t, itemKey⟩ (fun _ => none) (ops ++ []) :=
    ⟨init_refines hcap hinit itemKey, init_paced hinv hbag hinit, by rwa [List.append_nil],
      by rwa [List.append_nil]⟩
  obtain ⟨w, M, hrun, hw⟩ := hdriven.run
  refine ⟨w, hrun, hw.paced, fun before op after hops => ?_⟩
  rw [List.append_nil, hops] at hdriven
  obtain ⟨w₀, M₀, hbefore, h₀⟩ := hdriven.run
  obtain ⟨w₁, out, hop, hstep, h₁⟩ := h₀.step
  rw [hops, runTo_append hbefore, runTo, hop] at hrun
  refine ⟨w₀, w₁, _, hbefore, ?_, hstep, fun hnone hsome => ?_⟩
  · rw [runTo_append hbefore, runTo, hop]
    rfl
  · obtain ⟨m, hm⟩ := Option.isSome_iff_exists.mp hsome
    obtain ⟨-, -, hcount, hpos⟩ := hstep.starts hnone m hm
    have hcompletes := h₁.completes hcount hsome hrun
    rw [hpos, Nat.zero_add] at hcompletes
    exact ⟨hcompletes.1, hcompletes.2⟩

/-- The seventh set in a table of one bucket starts a migration, and the next one ends it. -/
theorem growth_keeps_pace_nineSets : ∃ t, hashtableInit byteEnv true 0 1 = some t ∧
    KeepsPace byteEnv ⟨t, id⟩ (byteSets 9) :=
  ⟨(hashtableInit byteEnv true 0 1).get (by decide), (Option.some_get _).symm,
    growth_keeps_pace (by decide) (Option.some_get _).symm id _ (storesAll_byteSets 9 _)
      (by decide +kernel)⟩

end Kvx.Hashtable
