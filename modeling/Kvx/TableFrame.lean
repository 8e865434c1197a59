import Kvx.TableRun

/-!
# What an operation leaves as it is

Between the start and the end of a migration only the items, the sizes and the chained
buckets of a table change. The last section says which steps of an operation do more.
-/
namespace Kvx.Hashtable

variable {ι : Type} {E : Env} {itemKey : ι → List UInt8}

def Event.Chained : Event → Prop
  | .calloc _ | .free _ => True
  | _ => False

/-- Neither an array nor what the table notes of it has changed, its contents apart. -/
structure Kept (t t' : Table ι) : Prop where
  scaleAtSize : t'.scaleAtSize = t.scaleAtSize
  migrationPos : t'.migrationPos = t.migrationPos
  oldBytes : t'.oldBytes = t.oldBytes
  oldBucketCount : t'.oldBucketCount = t.oldBucketCount
  newBytes : t'.newBytes = t.newBytes
  newBucketCount : t'.newBucketCount = t.newBucketCount
  oldLen : t'.oldBuckets.len = t.oldBuckets.len
  newLen : t'.newBuckets.map Mapping.len = t.newBuckets.map Mapping.len
  trace : ∃ events, t'.trace = events ++ t.trace ∧ ∀ e ∈ events, e.Chained

namespace Kept

variable {t t' t'' : Table ι}

theorem refl (t : Table ι) : Kept t t :=
  ⟨rfl, rfl, rfl, rfl, rfl, rfl, rfl, rfl, [], rfl, by simp⟩

theorem trans (h : Kept t t') (h' : Kept t' t'') : Kept t t'' := by
  obtain ⟨events, htrace, hall⟩ := h.trace
  obtain ⟨events', htrace', hall'⟩ := h'.trace
  refine ⟨h'.scaleAtSize.trans h.scaleAtSize, h'.migrationPos.trans h.migrationPos,
    h'.oldBytes.trans h.oldBytes, h'.oldBucketCount.trans h.oldBucketCount,
    h'.newBytes.trans h.newBytes, h'.newBucketCount.trans h.newBucketCount,
    h'.oldLen.trans h.oldLen, h'.newLen.trans h.newLen, events' ++ events, ?_, fun e he => ?_⟩
  · rw [htrace', htrace, List.append_assoc]
  · rcases List.mem_append.mp he with he | he
    · exact hall' e he
    · exact hall e he

theorem isSome (h : Kept t t') : t'.newBuckets.isSome = t.newBuckets.isSome := by
  rw [← Option.isSome_map (f := Mapping.len), h.newLen, Option.isSome_map]

theorem contents (t : Table ι) {new' : Option (Mapping ι)}
    (hnew : new'.map Mapping.len = t.newBuckets.map Mapping.len) (chains : List (Chain ι))
    (oldSize newSize : ℕ) : Kept t { t with
      oldBuckets := { t.oldBuckets with chains := chains }
      oldSize := oldSize
      newBuckets := new'
      newSize := newSize } :=
  ⟨rfl, rfl, rfl, rfl, rfl, rfl, rfl, hnew, [], rfl, by simp⟩

theorem free (t : Table ι) (addr : ℕ) : Kept t { t with trace := .free addr :: t.trace } :=
  ⟨rfl, rfl, rfl, rfl, rfl, rfl, rfl, rfl, [.free addr], rfl, by simp [Event.Chained]⟩

theorem noteCalloc (t : Table ι) (grown : Bool) : Kept t (t.noteCalloc grown) := by
  cases grown with
  | false => exact refl t
  | true =>
    exact ⟨rfl, rfl, rfl, rfl, rfl, rfl, rfl, rfl, [.calloc t.fresh], rfl,
      by simp [Event.Chained]⟩

theorem migrateSlot {i : Fin 8} {b b' : Bucket ι} {item : Option ι}
    (h : hashtableMigrateSlot E itemKey t i b item = some (t', b')) : Kept t t' := by
  simp only [hashtableMigrateSlot, Option.bind_eq_bind, Option.bind_eq_some_iff] at h
  obtain ⟨key, -, m, hm, c, -, found, -, nb, -, h⟩ := h
  have hm' : (Table.noteCalloc { t with oldSize := t.oldSize - 1 } found.grown).newBuckets =
      some m := by
    cases found.grown <;> exact hm
  have hbase := noteCalloc { t with oldSize := t.oldSize - 1 } found.grown
  have hstart : Kept t { t with oldSize := t.oldSize - 1 } := contents t rfl _ _ _
  split_ifs at h
  all_goals
    simp only [Option.some.injEq, Prod.mk.injEq] at h
    rw [← h.1]
    exact (hstart.trans hbase).trans (contents _ (by rw [hm']; rfl) _ _ _)

theorem migrateSlotsFrom {slots : List (Fin 8)} {b b' : Bucket ι}
    (h : migrateSlotsFrom E itemKey slots t b = some (t', b')) : Kept t t' := by
  induction slots generalizing t b with
  | nil =>
    simp only [Hashtable.migrateSlotsFrom, Option.some.injEq, Prod.mk.injEq] at h
    exact h.1 ▸ refl t
  | cons i slots ih =>
    unfold Hashtable.migrateSlotsFrom at h
    split_ifs at h
    · exact ih h
    · simp only [Option.bind_eq_bind, Option.bind_eq_some_iff] at h
      obtain ⟨⟨t₁, b₁⟩, h₁, h⟩ := h
      exact (migrateSlot h₁).trans (ih h)

theorem migrateChained {next : List (Chained ι)}
    (h : migrateChained E itemKey next t = some t') : Kept t t' := by
  induction next generalizing t with
  | nil =>
    simp only [Hashtable.migrateChained, Option.some.injEq] at h
    exact h ▸ refl t
  | cons c next ih =>
    simp only [Hashtable.migrateChained, Option.bind_eq_bind, Option.bind_eq_some_iff] at h
    obtain ⟨⟨t₁, b₁⟩, h₁, h⟩ := h
    exact ((migrateSlotsFrom h₁).trans (free t₁ c.addr)).trans (ih h)

theorem migrateBucket {pos : ℕ} (h : hashtableMigrateBucket E itemKey t pos = some t') :
    Kept t t' := by
  simp only [hashtableMigrateBucket, Option.bind_eq_bind, Option.bind_eq_some_iff] at h
  obtain ⟨c, -, ⟨t₁, b₁⟩, h₁, h⟩ := h
  have h₂ : Kept t₁ { t₁ with oldBuckets :=
      { t₁.oldBuckets with chains := t₁.oldBuckets.chains.set pos ⟨b₁, []⟩ } } :=
    contents t₁ rfl _ _ _
  exact ((migrateSlotsFrom h₁).trans h₂).trans (migrateChained h)

theorem writeSlot (t : Table ι) (ref : SlotRef) (item : Option ι) :
    Kept t (t.writeSlot ref item) := by
  unfold Table.writeSlot
  cases ref.side with
  | old => exact contents t rfl _ _ _
  | new => exact contents t (by cases t.newBuckets <;> rfl) _ _ _

theorem setOld {ref : SlotRef} {hash : BitVec 64} {tag : BitVec 8} {key : List UInt8}
    (h : hashtableSetOld itemKey t hash tag key = some (t', ref)) : Kept t t' := by
  simp only [hashtableSetOld, Option.bind_eq_bind, Option.bind_eq_some_iff, Option.some.injEq,
    Prod.mk.injEq] at h
  obtain ⟨r, -, rfl, -⟩ := h
  exact (noteCalloc t r.grown).trans (contents _ rfl _ _ _)

theorem setNew {ref : SlotRef} {hash : BitVec 64} {tag : BitVec 8} {key : List UInt8}
    (h : hashtableSetNew itemKey t hash tag key = some (t', ref)) : Kept t t' := by
  simp only [hashtableSetNew, Option.bind_eq_bind, Option.bind_eq_some_iff, Option.some.injEq,
    Prod.mk.injEq] at h
  obtain ⟨m, hm, r, -, rfl, -⟩ := h
  have hm' : (t.noteCalloc r.grown).newBuckets = some m := by
    cases r.grown <;> exact hm
  exact (noteCalloc t r.grown).trans (contents _ (by rw [hm']; rfl) _ _ _)

theorem deleteOld {item : Option ι} {hash : BitVec 64} {tag : BitVec 8} {key : List UInt8}
    (h : hashtableDeleteOld itemKey t hash tag key = some (t', item)) : Kept t t' := by
  simp only [hashtableDeleteOld, Option.bind_eq_bind, Option.bind_eq_some_iff] at h
  obtain ⟨r, -, h⟩ := h
  cases r with
  | none =>
    simp only [Option.some.injEq, Prod.mk.injEq] at h
    exact h.1 ▸ refl t
  | some r =>
    simp only [Option.some.injEq, Prod.mk.injEq] at h
    exact h.1 ▸ contents t rfl _ _ _

theorem deleteNew {item : Option ι} {hash : BitVec 64} {tag : BitVec 8} {key : List UInt8}
    (h : hashtableDeleteNew itemKey t hash tag key = some (t', item)) : Kept t t' := by
  simp only [hashtableDeleteNew, Option.bind_eq_bind, Option.bind_eq_some_iff] at h
  obtain ⟨m, hm, r, -, h⟩ := h
  cases r with
  | none =>
    simp only [Option.some.injEq, Prod.mk.injEq] at h
    exact h.1 ▸ refl t
  | some r =>
    simp only [Option.some.injEq, Prod.mk.injEq] at h
    exact h.1 ▸ contents t (by rw [hm]; rfl) _ _ _

end Kept

variable {t t' : Table ι}

/-- Maintenance moves on by one chain, and ends the migration at the last one. -/
theorem maintenance_cases (h : hashtableMaintenance E itemKey t = some t') :
    (t.newBuckets = none ∧ t' = t) ∨
      ∃ t₁ m₁, t.newBuckets.isSome ∧
        hashtableMigrateBucket E itemKey { t with migrationPos := t.migrationPos + 1 }
          t.migrationPos = some t₁ ∧
        t₁.newBuckets = some m₁ ∧
        t' = if t.migrationPos + 1 = t.oldBucketCount then hashtableFinishMigration t₁ m₁
          else t₁ := by
  unfold hashtableMaintenance hashtableMigrationRunning at h
  rcases Option.eq_none_or_eq_some t.newBuckets with hm | ⟨m, hm⟩
  · rw [hm] at h
    simp only [Option.isSome_none, Bool.false_eq_true, ↓reduceIte, Option.some.injEq] at h
    exact Or.inl ⟨hm, h.symm⟩
  · right
    rw [hm] at h
    simp only [Option.isSome_some, ↓reduceIte, hashtableProcessMigrationStep,
      Option.bind_eq_bind, Option.bind_eq_some_iff] at h
    obtain ⟨t₁, h₁, h⟩ := h
    have hkept := Kept.migrateBucket h₁
    have hsome : t₁.newBuckets.isSome = true := by
      rw [hkept.isSome]
      simp [hm]
    obtain ⟨m₁, hm₁⟩ := Option.isSome_iff_exists.mp hsome
    refine ⟨t₁, m₁, by rw [hm]; rfl, h₁, hm₁, ?_⟩
    rw [hkept.migrationPos, hkept.oldBucketCount, hm₁] at h
    split_ifs at h ⊢
    · exact (Option.some.inj h).symm
    · exact (Option.some.inj h).symm

/-- A set works in the new array, or in the old one once it was seen whether to grow. -/
theorem set_cases {ref : SlotRef} {granted : Bool} {hash : BitVec 64} {key : List UInt8}
    (h : hashtableSet E itemKey granted t hash key = some (t', ref)) :
    ∃ t₁, hashtableMaintenance E itemKey t = some t₁ ∧
      (hashtableItemInNewBucket t₁ hash = true ∧ Kept t₁ t' ∨
        hashtableItemInNewBucket t₁ hash = false ∧
          Kept (hashtableCheckInitMigration E granted t₁) t') := by
  simp only [hashtableSet, Option.bind_eq_bind, Option.bind_eq_some_iff] at h
  obtain ⟨t₁, h₁, h⟩ := h
  refine ⟨t₁, h₁, ?_⟩
  split_ifs at h with hside
  · exact Or.inl ⟨hside, Kept.setNew h⟩
  · exact Or.inr ⟨Bool.not_eq_true _ ▸ hside, Kept.setOld h⟩

theorem delete_cases {item : Option ι} {hash : BitVec 64} {key : List UInt8}
    (h : hashtableDelete E itemKey t hash key = some (t', item)) :
    ∃ t₁, hashtableMaintenance E itemKey t = some t₁ ∧ Kept t₁ t' := by
  simp only [hashtableDelete, Option.bind_eq_bind, Option.bind_eq_some_iff] at h
  obtain ⟨t₁, h₁, h⟩ := h
  refine ⟨t₁, h₁, ?_⟩
  split_ifs at h
  · exact Kept.deleteNew h
  · exact Kept.deleteOld h

/-- A set or a delete moves the migration on, and then a set may start one. -/
theorem runOp_cases {w w' : World ι} {op : Op ι} {out : Outcome ι}
    (h : runOp E w op = some (w', out)) :
    (¬ op.Migrates ∧ w' = w) ∨ op.Migrates ∧ ∃ t₁,
      hashtableMaintenance E w.itemKey w.table = some t₁ ∧
        (Kept t₁ w'.table ∧ (t₁.newBuckets.isSome ∨ ∃ key, op = .delete key) ∨
          ∃ granted key item keys, op = .set granted key item keys ∧
            Kept (hashtableCheckInitMigration E granted t₁) w'.table) := by
  cases op with
  | get key =>
    simp only [runOp, Option.bind_eq_bind, Option.bind_eq_some_iff, Option.some.injEq,
      Prod.mk.injEq] at h
    obtain ⟨found, -, rfl, -⟩ := h
    exact Or.inl ⟨id, rfl⟩
  | set granted key item keys =>
    simp only [runOp, Option.bind_eq_bind, Option.bind_eq_some_iff, Option.some.injEq,
      Prod.mk.injEq] at h
    obtain ⟨⟨t', ref⟩, hset, found, -, rfl, -⟩ := h
    obtain ⟨t₁, hmaint, hcase⟩ := set_cases hset
    refine Or.inr ⟨trivial, t₁, hmaint, ?_⟩
    rcases hcase with ⟨hside, hkept⟩ | ⟨-, hkept⟩
    · obtain ⟨⟨m, hm⟩, -⟩ := inNew_true hside
      exact Or.inl ⟨hkept.trans (Kept.writeSlot _ _ _), Or.inl (by rw [hm]; rfl)⟩
    · exact Or.inr ⟨granted, key, item, keys, rfl, hkept.trans (Kept.writeSlot _ _ _)⟩
  | delete key =>
    simp only [runOp, Option.bind_eq_bind, Option.bind_eq_some_iff, Option.some.injEq,
      Prod.mk.injEq] at h
    obtain ⟨⟨t', item⟩, hdel, rfl, -⟩ := h
    obtain ⟨t₁, hmaint, hkept⟩ := delete_cases hdel
    exact Or.inr ⟨trivial, t₁, hmaint, Or.inl ⟨hkept, Or.inr ⟨key, rfl⟩⟩⟩

end Kvx.Hashtable
