import Kvx.Growth

/-!
# Migration steps change no answer

Steps of a running migration that no operation asked for move items and the routing boundary,
up to the swap of the arrays. A lookup or the length cannot tell that they were made.
-/
namespace Kvx.Hashtable

variable {ι : Type} {E : Env} {itemKey : ι → List UInt8} {t t' : Table ι}

/-- That many calls of `hashtable_process_migration_step`. -/
def migrationSteps (E : Env) (itemKey : ι → List UInt8) : ℕ → Table ι → Option (Table ι)
  | 0, table => some table
  | n + 1, table => do
      let table ← hashtableProcessMigrationStep E itemKey table
      migrationSteps E itemKey n table

/-- Nothing that is read of `t` differs in `t'`. -/
structure Unseen (E : Env) (itemKey : ι → List UInt8) (t t' : Table ι) : Prop where
  get : ∀ key, ∃ item, hashtableGet itemKey t (E.xxh3 key) key = some item ∧
    hashtableGet itemKey t' (E.xxh3 key) key = some item
  len : hashtableLen t' = hashtableLen t

theorem get_unique (h : TableInv E itemKey t) {p q : ι} {key : List UInt8} (hp : p ∈ t.bag)
    (hq : q ∈ t.bag) (hpk : itemKey p = key) (hqk : itemKey q = key) : p = q :=
  Multiset.inj_on_of_nodup_map h.nodup p hp q hq (hpk.trans hqk.symm)

theorem unseen_of_bag (h : TableInv E itemKey t) (h' : TableInv E itemKey t')
    (hbag : t'.bag = t.bag) : Unseen E itemKey t t' := by
  refine ⟨fun key => ?_, by rw [h'.len, h.len, hbag]⟩
  obtain ⟨r, hrun, hhit, hmiss⟩ := get_spec h key
  obtain ⟨r', hrun', hhit', hmiss'⟩ := get_spec h' key
  rw [hbag] at hhit' hmiss'
  have hsame : r' = r := by
    cases r with
    | none =>
      cases r' with
      | none => rfl
      | some p =>
        obtain ⟨hp, hk⟩ := hhit' p rfl
        exact absurd hk (hmiss rfl p hp)
    | some p =>
      obtain ⟨hp, hk⟩ := hhit p rfl
      cases r' with
      | none => exact absurd hk (hmiss' rfl p hp)
      | some q =>
        obtain ⟨hq, hk'⟩ := hhit' q rfl
        rw [get_unique h hq hp hk' hk]
  exact ⟨r, hrun, hsame ▸ hrun'⟩

/-- As many steps as there are chains left can be made, and the last one ends the migration. -/
theorem migrationSteps_spec (h : TableInv E itemKey t) (hsome : t.newBuckets.isSome) {n : ℕ}
    (hn : n ≤ t.oldBucketCount - t.migrationPos) :
    ∃ t', migrationSteps E itemKey n t = some t' ∧ TableInv E itemKey t' ∧ t'.bag = t.bag ∧
      (t'.newBuckets = none ↔ n = t.oldBucketCount - t.migrationPos) := by
  induction n generalizing t with
  | zero =>
    obtain ⟨m, hm⟩ := Option.isSome_iff_exists.mp hsome
    have hpos := (h.running m hm).pos
    refine ⟨t, rfl, h, rfl, fun hnone => ?_, fun hz => by omega⟩
    simp [hnone] at hsome
  | succ n ih =>
    obtain ⟨m, hm⟩ := Option.isSome_iff_exists.mp hsome
    have hpos := (h.running m hm).pos
    obtain ⟨t₁, hrun, hinv, hbag⟩ := processStep_spec h hm
    have hmaint : hashtableMaintenance E itemKey t = some t₁ := by
      rw [hashtableMaintenance, hashtableMigrationRunning, if_pos hsome]
      exact hrun
    rcases maintained h hmaint with ⟨hnone, -⟩ | ⟨-, hlt, hsome₁, hcount, hpos₁, -, -⟩ |
      ⟨-, hlast, hnone₁, -, -, -⟩
    · simp [hnone] at hsome
    · obtain ⟨t', hrest, hinv', hbag', hiff⟩ := ih hinv hsome₁ (by omega)
      refine ⟨t', ?_, hinv', hbag'.trans hbag, hiff.trans ?_⟩
      · rw [migrationSteps, hrun]
        exact hrest
      · omega
    · have hzero : n = 0 := by omega
      subst hzero
      refine ⟨t₁, ?_, hinv, hbag, fun _ => by omega, fun _ => hnone₁⟩
      rw [migrationSteps, hrun]
      rfl

/-- Extra migration steps after any run cannot be seen, the one that ends the migration
included. -/
theorem migration_invisible {granted : Bool} {leftover cap : ℕ} {t : Table ι}
    (hcap : cap < 2 ^ 64) (hinit : hashtableInit E granted leftover cap = some t)
    (itemKey : ι → List UInt8) (ops : List (Op ι))
    (hst : StoresAll (fun _ => none) itemKey ops) :
    ∃ w, runTo E ⟨t, itemKey⟩ ops = some w ∧ ∀ n, w.table.newBuckets.isSome →
      n ≤ w.table.oldBucketCount - w.table.migrationPos →
      ∃ t', migrationSteps E w.itemKey n w.table = some t' ∧
        Unseen E w.itemKey w.table t' ∧
        (t'.newBuckets = none ↔ n = w.table.oldBucketCount - w.table.migrationPos) := by
  obtain ⟨w, M, hrun, href⟩ := runTo_refines (init_refines hcap hinit itemKey) hst
  refine ⟨w, hrun, fun n hsome hn => ?_⟩
  obtain ⟨t', hsteps, hinv, hbag, hiff⟩ := migrationSteps_spec href.inv hsome hn
  exact ⟨t', hsteps, unseen_of_bag href.inv hinv hbag, hiff⟩

/-- The thirteenth set starts a migration of two chains. -/
theorem migration_invisible_thirteenSets : ∃ w t',
    runTo lengthEnv ⟨lengthTable, id⟩ (byteSets 13) = some w ∧ w.table.newBuckets.isSome ∧
      migrationSteps lengthEnv w.itemKey 2 w.table = some t' ∧ t'.newBuckets = none ∧
      Unseen lengthEnv w.itemKey w.table t' := by
  obtain ⟨w, hrun, h⟩ := migration_invisible (E := lengthEnv) (t := lengthTable) (by decide)
    (Option.some_get _).symm id (byteSets 13) (storesAll_byteSets 13 _)
  have hstate : (runTo lengthEnv ⟨lengthTable, id⟩ (byteSets 13)).map (fun w =>
      (w.table.newBuckets.isSome, w.table.oldBucketCount, w.table.migrationPos)) =
        some (true, 2, 0) := by decide +kernel
  rw [hrun, Option.map_some, Option.some.injEq, Prod.mk.injEq, Prod.mk.injEq] at hstate
  obtain ⟨hsome, hcount, hpos⟩ := hstate
  obtain ⟨t', hsteps, hunseen, hend⟩ := h 2 hsome (by omega)
  exact ⟨w, t', hrun, hsome, hsteps, hend.mpr (by omega), hunseen⟩

end Kvx.Hashtable
