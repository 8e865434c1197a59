import Kvx.KvBench

/-!
# The benchmark reports no error

After `build_kv` the store holds the rows, each key with its value. Every loop of the benchmark keeps
what it says it keeps, so that its own checks find nothing.
-/
namespace Kvx.KvBench

open Kvx.Lib Kvx.Store Kvx.Item
open Kvx.Hashtable (Env lengthEnv)

variable {E : Env} {kv : Kv} {M : EntryMap} {ks vs fresh : Rows} {lo hi : ℕ}

/-- Keys that differ, and values which the store takes and `read_word` can read. -/
structure RowsOk (ks vs : Rows) : Prop where
  count_eq : vs.count = ks.count
  key_pos : 0 < ks.len
  key_lt : ks.len < 2 ^ 16
  value_ge : 8 ≤ vs.len
  fits : ks.len + vs.len ≤ 2 ^ 19 - 24
  inj : ∀ i < ks.count, ∀ j < ks.count, ks.row i = ks.row j → i = j

def rowEntry (vs : Rows) (i : ℕ) : Entry := ⟨vs.row i, tagFlags, tagExp⟩

/-- The entries of the map are those of the rows from `lo` on and before `hi`. -/
structure HoldsRows (ks vs : Rows) (lo hi : ℕ) (M : EntryMap) : Prop where
  present : ∀ i, lo ≤ i → i < hi → M (ks.row i) = some (rowEntry vs i)
  absent : ∀ key, (∀ i, lo ≤ i → i < hi → key ≠ ks.row i) → M key = none

/-- The store holds every row. -/
def Loaded (E : Env) (ks vs : Rows) (kv : Kv) : Prop :=
  ∃ M, KvInv E kv M ∧ HoldsRows ks vs 0 ks.count M

theorem RowsOk.length_value (h : RowsOk ks vs) {i : ℕ} (hi : i < ks.count) :
    (rowEntry vs i).value.length = vs.len :=
  Rows.length_row (h.count_eq ▸ hi)

theorem RowsOk.fits_row (h : RowsOk ks vs) {i : ℕ} (hi : i < ks.count) :
    Fits (ks.row i) (rowEntry vs i) := by
  rw [Fits, Rows.length_row hi, h.length_value hi]
  exact h.fits

theorem holdsRows_empty (ks vs : Rows) (lo : ℕ) : HoldsRows ks vs lo lo fun _ => none where
  present _ hlo hhi := absurd (Nat.lt_of_le_of_lt hlo hhi) (Nat.lt_irrefl lo)
  absent _ _ := rfl

theorem HoldsRows.set (hok : RowsOk ks vs) (h : HoldsRows ks vs lo hi M) (hle : lo ≤ hi)
    (hhi : hi < ks.count) :
    HoldsRows ks vs lo (hi + 1) (Function.update M (ks.row hi) (some (rowEntry vs hi))) where
  present i hlo hi' := by
    by_cases heq : i = hi
    · rw [heq, Function.update_self]
    · have hlt : i < hi := by omega
      rw [Function.update_of_ne, h.present i hlo hlt]
      exact fun hrow => heq (hok.inj i (hlt.trans hhi) hi hhi hrow)
  absent key hkey := by
    rw [Function.update_of_ne (hkey hi hle (Nat.lt_succ_self hi))]
    exact h.absent key fun i hlo hlt => hkey i hlo (Nat.lt_succ_of_lt hlt)

theorem HoldsRows.erase (hok : RowsOk ks vs) (h : HoldsRows ks vs lo hi M) (hlt : lo < hi)
    (hhi : hi ≤ ks.count) :
    HoldsRows ks vs (lo + 1) hi (Function.update M (ks.row lo) none) where
  present i hlo hi' := by
    rw [Function.update_of_ne, h.present i (Nat.le_of_succ_le hlo) hi']
    intro hrow
    have heq := hok.inj i (by omega) lo (by omega) hrow
    omega
  absent key hkey := by
    by_cases hrow : key = ks.row lo
    · rw [hrow, Function.update_self]
    · rw [Function.update_of_ne hrow]
      refine h.absent key fun i hlo hi' => ?_
      rcases Nat.eq_or_lt_of_le hlo with rfl | hlo
      · exact hrow
      · exact hkey i hlo hi'

theorem setRow_spec (hok : RowsOk ks vs) (h : KvInv E kv M) (granted : Bool) {i : ℕ}
    (hi : i < ks.count) :
    ∃ kv', setRow E granted ks vs i i kv = some kv' ∧
      KvInv E kv' (Function.update M (ks.row i) (some (rowEntry vs i))) := by
  have hpos : 0 < (ks.row i).length + (rowEntry vs i).value.length := by
    have := hok.key_pos
    rw [Rows.length_row hi]
    omega
  obtain ⟨kv', hset, hinv⟩ := kvSet_fits h granted (hok.fits_row hi) (Or.inl hpos)
  refine ⟨kv', ?_, hinv ?_⟩
  · simp only [setRow, rowAt_of_lt hi, rowAt_of_lt (hok.count_eq ▸ hi), Option.bind_eq_bind,
      Option.bind_some]
    rw [rowEntry] at hset
    rw [hset, Option.bind_some]
  · rw [Rows.length_row hi]
    exact hok.key_lt

theorem setRows_build (hok : RowsOk ks vs) (granted : ℕ → Bool) (h : KvInv E kv fun _ => none) :
    ∃ kv', setRows E granted ks vs kv = some kv' ∧ Loaded E ks vs kv' := by
  refine countTo_inv (P := fun n kv => ∃ M, KvInv E kv M ∧ HoldsRows ks vs 0 n M)
    ⟨_, h, holdsRows_empty ks vs 0⟩ fun i hi kv ⟨M, hinv, hrows⟩ => ?_
  obtain ⟨kv', hset, hinv'⟩ := setRow_spec hok hinv (granted i) hi
  exact ⟨kv', hset, _, hinv', hrows.set hok (Nat.zero_le i) hi⟩

theorem HoldsRows.set_again (h : HoldsRows ks vs 0 ks.count M) {i : ℕ} (hi : i < ks.count) :
    Function.update M (ks.row i) (some (rowEntry vs i)) = M := by
  rw [← h.present i (Nat.zero_le i) hi, Function.update_eq_self]

theorem setRows_again (hok : RowsOk ks vs) (granted : ℕ → Bool) (h : Loaded E ks vs kv) :
    ∃ kv', setRows E granted ks vs kv = some kv' ∧ Loaded E ks vs kv' := by
  refine countTo_inv (P := fun _ kv => Loaded E ks vs kv) h fun i hi kv ⟨M, hinv, hrows⟩ => ?_
  obtain ⟨kv', hset, hinv'⟩ := setRow_spec hok hinv (granted i) hi
  rw [hrows.set_again hi] at hinv'
  exact ⟨kv', hset, M, hinv', hrows⟩

theorem loaded_get (h : Loaded E ks vs kv) {i : ℕ} (hi : i < ks.count) (dstLen : ℕ) :
    kvGet E kv (ks.row i) dstLen = some (lookup dstLen (some (rowEntry vs i))) := by
  obtain ⟨M, hinv, hrows⟩ := h
  rw [kvGet_spec hinv, hrows.present i (Nat.zero_le i) hi]

theorem loaded_get_absent (h : Loaded E ks vs kv) {key : List UInt8}
    (hkey : ∀ i < ks.count, key ≠ ks.row i) (dstLen : ℕ) :
    kvGet E kv key dstLen = some (lookup dstLen none) := by
  obtain ⟨M, hinv, hrows⟩ := h
  rw [kvGet_spec hinv, hrows.absent key fun i _ hi => hkey i hi]

theorem lookup_row (hok : RowsOk ks vs) {i dstLen : ℕ} (hi : i < ks.count)
    (hlen : vs.len ≤ dstLen) :
    lookup dstLen (some (rowEntry vs i)) =
      ⟨.ok, some vs.len, some tagFlags, some tagExp, some (vs.row i)⟩ := by
  have hvalue := hok.length_value hi
  simp only [lookup, hvalue, if_neg (Nat.not_lt.mpr hlen)]
  rfl

theorem verifyRow_ok (hok : RowsOk ks vs) (h : Loaded E ks vs kv) {valueCap : ℕ}
    (hcap : vs.len ≤ valueCap) {i : ℕ} (hi : i < ks.count) (r : Report) :
    verifyRow E kv ks vs valueCap i r = some r := by
  have hvs : i < vs.count := hok.count_eq ▸ hi
  simp [verifyRow, rowAt_of_lt hi, rowAt_of_lt hvs, Rows.length_row hvs, loaded_get h hi,
    lookup_row hok hi hcap]

theorem verifyShort_ok (hok : RowsOk ks vs) (h : Loaded E ks vs kv) {i : ℕ} (hi : i < ks.count)
    (r : Report) : verifyShort E kv ks vs i r = some r := by
  have hshort : Pages.sizeT (vs.len + (2 ^ 64 - 1)) < (rowEntry vs i).value.length := by
    have := hok.value_ge
    have := hok.fits
    rw [hok.length_value hi, Pages.sizeT]
    omega
  simp only [verifyShort, rowAt_of_lt hi, loaded_get h hi, lookup, if_pos hshort,
    Option.bind_eq_bind, Option.bind_some]
  rfl

theorem verifyAbsent_ok (h : Loaded E ks vs kv) {absent : Rows} {i : ℕ} (hi : i < absent.count)
    (hdiff : ∀ j < ks.count, absent.row i ≠ ks.row j) (valueCap : ℕ) (r : Report) :
    verifyAbsent E kv absent valueCap i r = some r := by
  simp [verifyAbsent, rowAt_of_lt hi, loaded_get_absent h hdiff, lookup]

/-- A store that holds the rows, and none of the absent keys, is verified. -/
theorem verify_loaded (hok : RowsOk ks vs) (h : Loaded E ks vs kv) {absent : Rows}
    (hdiff : ∀ i < absent.count, ∀ j < ks.count, absent.row i ≠ ks.row j) {valueCap : ℕ}
    (hcap : vs.len ≤ valueCap) : verify E kv ks vs absent valueCap = some true := by
  have hrows : countTo ks.count (verifyRow E kv ks vs valueCap) {} = some {} :=
    countTo_fixed fun i hi => verifyRow_ok hok h hcap hi {}
  have hshort : countTo (min 1000 ks.count) (verifyShort E kv ks vs) {} = some {} :=
    countTo_fixed fun i hi =>
      verifyShort_ok hok h (Nat.lt_of_lt_of_le hi (Nat.min_le_right _ _)) {}
  have habsent : countTo absent.count (verifyAbsent E kv absent valueCap) {} = some {} :=
    countTo_fixed fun i hi => verifyAbsent_ok h hi (hdiff i hi) valueCap {}
  simp only [verify, hrows, hshort, habsent, Option.bind_eq_bind, Option.bind_some]
  rfl

theorem benchGetHit_zero (hok : RowsOk ks vs) (h : Loaded E ks vs kv) {valueCap : ℕ}
    (hcap : vs.len ≤ valueCap) : benchGetHit E kv ks valueCap = some 0 := by
  refine countTo_fixed fun i hi => ?_
  simp [rowAt_of_lt hi, loaded_get h hi, lookup_row hok hi hcap]

theorem benchGetMiss_zero (h : Loaded E ks vs kv) {absent : Rows}
    (hdiff : ∀ i < absent.count, ∀ j < ks.count, absent.row i ≠ ks.row j) (valueCap : ℕ) :
    benchGetMiss E kv absent valueCap = some 0 := by
  refine countTo_fixed fun i hi => ?_
  simp [rowAt_of_lt hi, loaded_get_absent h (hdiff i hi), lookup]

theorem take_copyInto (hok : RowsOk ks vs) (hlen : ks.len ≤ vs.len) {i : ℕ} (hi : i < ks.count)
    (buf : List UInt8) :
    (copyInto buf ⟨.ok, some vs.len, some tagFlags, some tagExp, some (vs.row i)⟩).take ks.len =
      (vs.row i).take ks.len := by
  refine List.take_append_of_le_length ?_
  rw [Rows.length_row (hok.count_eq ▸ hi)]
  exact hlen

theorem chainFrom_spec (hok : RowsOk ks vs) (h : Loaded E ks vs kv) {valueCap : ℕ}
    (hlen : ks.len ≤ vs.len) (hcap : vs.len ≤ valueCap) {walk : ℕ → ℕ}
    (hwalk : ∀ k, walk k < ks.count)
    (hvalue : ∀ k, (vs.row (walk k)).take ks.len = ks.row (walk (k + 1))) (left i : ℕ) (c : Chain)
    (hkey : c.key = ks.row (walk i)) :
    ∃ c', chainFrom E kv ks valueCap left i c = some c' ∧ c'.steps = c.steps + left ∧
      c'.key = ks.row (walk (i + left)) := by
  induction left generalizing i c with
  | zero => exact ⟨c, rfl, rfl, hkey⟩
  | succ left ih =>
    have hget := loaded_get h (hwalk i) valueCap
    rw [lookup_row hok (hwalk i) hcap, ← hkey] at hget
    simp only [chainFrom, hget, Option.bind_eq_bind, Option.bind_some, ne_eq, not_true_eq_false,
      if_false, take_copyInto hok hlen (hwalk i), hvalue]
    obtain ⟨c', hrun, hsteps, hkey'⟩ := ih (i + 1)
      ⟨Function.update c.buf (i % 2) (copyInto (c.buf (i % 2)) _), _, c.steps + 1⟩ rfl
    refine ⟨c', hrun, hsteps.trans (Nat.add_right_comm c.steps 1 left), ?_⟩
    rw [hkey', Nat.add_right_comm]
    rfl

theorem deleteRow_spec (h : KvInv E kv M) {i : ℕ} (misses : ℕ) (hi : i < ks.count)
    (hrow : M (ks.row i) ≠ none) :
    ∃ kv', deleteRow E ks i (kv, misses) = some (kv', misses) ∧
      KvInv E kv' (Function.update M (ks.row i) none) := by
  obtain ⟨kv', hdelete, hinv⟩ := kvDelete_spec h (ks.row i)
  rw [if_neg hrow] at hdelete
  refine ⟨kv', ?_, hinv⟩
  simp only [deleteRow, rowAt_of_lt hi, Option.bind_eq_bind, Option.bind_some, hdelete]
  rfl

/-- `bench_delete` finds every key, and leaves the store empty. -/
theorem benchDelete_spec (hok : RowsOk ks vs) (h : Loaded E ks vs kv) :
    ∃ kv', benchDelete E kv ks = some (kv', 0) ∧ KvInv E kv' fun _ => none := by
  obtain ⟨M, hinv, hrows⟩ := h
  obtain ⟨⟨kv', misses⟩, hrun, rfl, M', hinv', hrows'⟩ := countTo_inv (n := ks.count)
    (P := fun lo s => s.2 = 0 ∧ ∃ M, KvInv E s.1 M ∧ HoldsRows ks vs lo ks.count M)
    (s := (kv, 0)) ⟨rfl, M, hinv, hrows⟩ fun i hi ⟨kv, misses⟩ ⟨hzero, M, hinv, hrows⟩ => by
      obtain ⟨kv', hdelete, hinv'⟩ := deleteRow_spec hinv misses hi (by
        simp [hrows.present i le_rfl hi])
      exact ⟨(kv', misses), hdelete, hzero, _, hinv', hrows.erase hok hi le_rfl⟩
  have hempty : M' = fun _ => none :=
    funext fun key => hrows'.absent key fun i hlo hhi => absurd hlo (Nat.not_le.mpr hhi)
  exact ⟨kv', hrun, hempty ▸ hinv'⟩

/-- The keys that are left, and the fresh ones that came for the others. -/
structure Churned (ks vs fresh : Rows) (k : ℕ) (M : EntryMap) : Prop where
  left : ∀ i, k ≤ i → i < ks.count → M (ks.row i) = some (rowEntry vs i)
  came : ∀ i < k, M (fresh.row i) = some (rowEntry vs i)
  others : ∀ key, (∀ i, k ≤ i → i < ks.count → key ≠ ks.row i) → (∀ i < k, key ≠ fresh.row i) →
    M key = none

theorem Churned.step (hok : RowsOk ks vs) (hfresh : RowsOk fresh vs)
    (hdiff : ∀ i < fresh.count, ∀ j < ks.count, fresh.row i ≠ ks.row j) {k : ℕ}
    (h : Churned ks vs fresh k M) (hk : k < ks.count) (hk' : k < fresh.count) :
    Churned ks vs fresh (k + 1) (Function.update (Function.update M (ks.row k) none) (fresh.row k)
      (some (rowEntry vs k))) where
  left i hi hlt := by
    rw [Function.update_of_ne (Ne.symm (hdiff k hk' i hlt)), Function.update_of_ne,
      h.left i (Nat.le_of_succ_le hi) hlt]
    intro hrow
    have heq := hok.inj i hlt k hk hrow
    omega
  came i hi := by
    by_cases heq : i = k
    · rw [heq, Function.update_self]
    · have hlt : i < k := by omega
      rw [Function.update_of_ne, Function.update_of_ne (hdiff i (hlt.trans hk') k hk), h.came i hlt]
      exact fun hrow => heq (hfresh.inj i (hlt.trans hk') k hk' hrow)
  others key hleft hcame := by
    rw [Function.update_of_ne (hcame k (Nat.lt_succ_self k))]
    by_cases hrow : key = ks.row k
    · rw [hrow, Function.update_self]
    · rw [Function.update_of_ne hrow]
      refine h.others key (fun i hi hlt => ?_) fun i hi => hcame i (Nat.lt_succ_of_lt hi)
      rcases Nat.eq_or_lt_of_le hi with rfl | hi
      · exact hrow
      · exact hleft i hi hlt

/-- `bench_churn` loses no key, and leaves the fresh keys with the values. -/
theorem benchChurn_spec (hok : RowsOk ks vs) (hfresh : RowsOk fresh vs)
    (hdiff : ∀ i < fresh.count, ∀ j < ks.count, fresh.row i ≠ ks.row j)
    (granted : ℕ → Bool) (h : Loaded E ks vs kv) :
    ∃ kv', benchChurn E granted kv ks vs fresh = some (kv', 0) ∧ Loaded E fresh vs kv' := by
  have hcount : fresh.count = ks.count := hfresh.count_eq.symm.trans hok.count_eq
  obtain ⟨M, hinv, hrows⟩ := h
  have hstart : Churned ks vs fresh 0 M :=
    ⟨fun i hi hlt => hrows.present i hi hlt, fun i hi => absurd hi (Nat.not_lt_zero i),
      fun key hleft _ => hrows.absent key hleft⟩
  obtain ⟨⟨kv', lost⟩, hrun, rfl, M', hinv', hrows'⟩ := countTo_inv (n := fresh.count)
    (P := fun k s => s.2 = 0 ∧ ∃ M, KvInv E s.1 M ∧ Churned ks vs fresh k M)
    (s := (kv, 0)) ⟨rfl, M, hinv, hstart⟩ fun k hk ⟨kv, lost⟩ ⟨hzero, M, hinv, hrows⟩ => by
      have hk' : k < ks.count := hcount ▸ hk
      obtain ⟨kv₁, hdelete, hinv₁⟩ := deleteRow_spec hinv lost hk' (by
        simp [hrows.left k le_rfl hk'])
      obtain ⟨kv₂, hset, hinv₂⟩ := setRow_spec hfresh hinv₁ (granted k) hk
      have hstep : churnRow E granted ks vs fresh k (kv, lost) = some (kv₂, lost) := by
        simp only [churnRow, hdelete, hset, Option.bind_eq_bind, Option.bind_some]
      exact ⟨(kv₂, lost), hstep, hzero, _, hinv₂, hrows.step hok hfresh hdiff hk' hk⟩
  refine ⟨kv', hrun, M', hinv', fun i _ hi => hrows'.came i hi, fun key hkey => ?_⟩
  refine hrows'.others key (fun i hi hlt => ?_) fun i hi => hkey i (Nat.zero_le i) hi
  omega

/-- What `main` lets through, with keys that cannot repeat and items that the store can hold. -/
structure BenchConfig.Ok (cfg : BenchConfig) : Prop where
  accepted : cfg.accepted = true
  key_ge : 8 ≤ cfg.keyLen
  key_lt : cfg.keyLen < 2 ^ 16
  fits : cfg.keyLen + cfg.valueLen ≤ 2 ^ 19 - 24

variable {cfg : BenchConfig} {leftover : Fin 256 → ℕ} {memory : Fin 256 → Ptr → Cell}
  {kv₀ : Kv} {granted : ℕ → Bool}

theorem BenchConfig.Ok.sizes (h : cfg.Ok) :
    0 < cfg.items ∧ cfg.items ≤ 0x7FFFFFFF ∧ cfg.keyLen ≤ cfg.valueLen ∧ 8 ≤ cfg.valueLen := by
  have hchecks := h.accepted
  have hidx : opIdx.toNat = 0x7FFFFFFF := rfl
  simp only [BenchConfig.accepted, decide_eq_true_eq, hidx] at hchecks
  omega

theorem BenchConfig.Ok.keysOk (h : cfg.Ok) : KeysOk cfg.items cfg.keyLen :=
  ⟨h.sizes.2.1, h.key_ge, h.key_lt⟩

theorem BenchConfig.Ok.rowsOk (h : cfg.Ok) (seed : BitVec 64) {vs : Rows}
    (hcount : vs.count = cfg.items) (hlen : vs.len = cfg.valueLen) :
    RowsOk (makeKeys cfg.items cfg.keyLen seed) vs where
  count_eq := hcount
  key_pos := Nat.lt_of_lt_of_le (by decide) h.key_ge
  key_lt := h.key_lt
  value_ge := hlen ▸ h.sizes.2.2.2
  fits := hlen ▸ h.fits
  inj _ hi _ hj heq := makeKeys_inj h.keysOk seed hi hj heq

theorem makeData_spec (h : cfg.Ok) (keySeed cycleSeed : BitVec 64) :
    ∃ next rest vs, makeCycle cfg.items cycleSeed = some next ∧
      makeValues (makeKeys cfg.items cfg.keyLen keySeed) next cfg.valueLen = some vs ∧
      (next.length = cfg.items ∧ (0 :: rest).Perm (List.range cfg.items) ∧
        IndexPerm next (0 :: rest).formPerm) ∧
      vs.count = cfg.items ∧ vs.len = cfg.valueLen ∧
      ∀ i < cfg.items, (vs.row i).take cfg.keyLen =
        (makeKeys cfg.items cfg.keyLen keySeed).row ((0 :: rest).formPerm i) := by
  obtain ⟨hpos, hle, hlen, -⟩ := h.sizes
  obtain ⟨next, rest, hcycle, hlength, hrest, hnext⟩ := makeCycle_spec hpos (by omega) cycleSeed
  have hat (i : ℕ) (hi : i < cfg.items) : next[i]? = some ((0 :: rest).formPerm i) :=
    hnext i (hlength ▸ hi)
  have hmem (i : ℕ) : i ∈ 0 :: rest ↔ i < cfg.items := by
    rw [hrest.mem_iff, List.mem_range]
  have hin (i : ℕ) (hi : i < cfg.items) : (0 :: rest).formPerm i < cfg.items :=
    (hmem _).mp (List.formPerm_apply_mem_of_mem ((hmem i).mpr hi))
  obtain ⟨vs, hvalues, hcount, hvlen, hrows⟩ :=
    makeValues_spec (makeKeys cfg.items cfg.keyLen keySeed) hlen fun i hi =>
      ⟨_, hin i hi, hat i hi⟩
  refine ⟨next, rest, vs, hcycle, hvalues, ⟨hlength, hrest, hnext⟩, hcount, hvlen, fun i hi => ?_⟩
  rw [hrows i hi _ (hat i hi)]
  exact List.take_left' (Rows.length_row (hin i hi))

theorem buildKv_loaded (hok : RowsOk ks vs) (hinit : kvInit E leftover memory = some kv₀)
    (granted : ℕ → Bool) :
    ∃ kv, buildKv E leftover memory granted ks vs = some kv ∧ Loaded E ks vs kv := by
  obtain ⟨kv, hrun, hloaded⟩ := setRows_build hok granted (kvInit_spec hinit)
  refine ⟨kv, ?_, hloaded⟩
  rw [buildKv, hinit, Option.bind_eq_bind, Option.bind_some, hrun]

/-- Whatever the seeds, `next` leads through all indices in a single cycle, and the chain of lookups
goes through their keys in its order, each of them once, and starts again at the first: no round
misses, and after it `key` is the next key in the order. -/
theorem get_chain_visits_all (hcfg : cfg.Ok) (hinit : kvInit E leftover memory = some kv₀)
    (granted : ℕ → Bool) (keySeed cycleSeed : BitVec 64) :
    ∃ (next cycle : List ℕ) (vs : Rows) (kv : Kv) (order : List (List UInt8)),
      makeCycle cfg.items cycleSeed = some next ∧ next.length = cfg.items ∧
      cycle.Perm (List.range cfg.items) ∧ IndexPerm next cycle.formPerm ∧
      makeValues (makeKeys cfg.items cfg.keyLen keySeed) next cfg.valueLen = some vs ∧
      buildKv E leftover memory granted (makeKeys cfg.items cfg.keyLen keySeed) vs = some kv ∧
      order = cycle.map (makeKeys cfg.items cfg.keyLen keySeed).row ∧ order.Nodup ∧
      order.Perm ((List.range cfg.items).map (makeKeys cfg.items cfg.keyLen keySeed).row) ∧
      ∀ buf rounds, ∃ c, benchGetChain E kv (makeKeys cfg.items cfg.keyLen keySeed) cfg.valueLen buf
        rounds = some c ∧ c.steps = rounds ∧ order[rounds % cfg.items]? = some c.key := by
  obtain ⟨next, rest, vs, hcycle, hvalues, ⟨hnlen, hrest, hnext⟩, hcount, hlen, hrows⟩ :=
    makeData_spec hcfg keySeed cycleSeed
  obtain ⟨hpos, -, hle, -⟩ := hcfg.sizes
  have hok := hcfg.rowsOk keySeed hcount hlen
  obtain ⟨kv, hbuild, hloaded⟩ := buildKv_loaded hok hinit granted
  have hnodup : (0 :: rest).Nodup := hrest.nodup_iff.mpr List.nodup_range
  have hlength : (0 :: rest).length = cfg.items := hrest.length_eq.trans List.length_range
  have hwalk (k : ℕ) : (0 :: rest)[k % cfg.items]? = some ((0 :: rest).formPerm^[k] 0) :=
    hlength ▸ cycle_walk hnodup k
  have hin (k : ℕ) : (0 :: rest).formPerm^[k] 0 < cfg.items :=
    List.mem_range.mp (hrest.mem_iff.mp (List.mem_of_getElem? (hwalk k)))
  have hkeys : ((0 :: rest).map (makeKeys cfg.items cfg.keyLen keySeed).row).Nodup :=
    hnodup.map_on fun i hi j hj heq => hok.inj i (List.mem_range.mp (hrest.mem_iff.mp hi)) j
      (List.mem_range.mp (hrest.mem_iff.mp hj)) heq
  refine ⟨next, _, vs, kv, _, hcycle, hnlen, hrest, hnext, hvalues, hbuild, rfl, hkeys,
    hrest.map _, fun buf rounds => ?_⟩
  obtain ⟨c, hrun, hsteps, hkey⟩ := chainFrom_spec hok hloaded (hlen ▸ hle) hlen.le hin
    (fun k => by rw [Function.iterate_succ_apply']; exact hrows _ (hin k)) rounds 0
    ⟨buf, (makeKeys cfg.items cfg.keyLen keySeed).row 0, 0⟩ rfl
  rw [Nat.zero_add] at hsteps hkey
  refine ⟨c, ?_, hsteps, ?_⟩
  · rw [benchGetChain, rowAt_of_lt hpos]
    exact hrun
  · rw [List.getElem?_map, hwalk, Option.map_some, hkey]

def smallConfig : BenchConfig := ⟨3, 8, 8⟩

theorem smallConfig_ok : smallConfig.Ok := ⟨by decide, by decide, by decide, by decide⟩

theorem get_chain_visits_all_small :
    ∃ (next cycle : List ℕ) (vs : Rows) (kv : Kv) (order : List (List UInt8)),
      makeCycle 3 0x5EED0003 = some next ∧ next.length = 3 ∧
      cycle.Perm (List.range 3) ∧ IndexPerm next cycle.formPerm ∧
      makeValues smallConfig.keys next 8 = some vs ∧
      buildKv lengthEnv (fun _ => 0) (fun _ _ => .byte 0) (fun _ => true) smallConfig.keys vs =
        some kv ∧
      order = cycle.map smallConfig.keys.row ∧ order.Nodup ∧
      order.Perm ((List.range 3).map smallConfig.keys.row) ∧
      ∀ buf rounds, ∃ c, benchGetChain lengthEnv kv smallConfig.keys 8 buf rounds = some c ∧
        c.steps = rounds ∧ order[rounds % 3]? = some c.key :=
  get_chain_visits_all smallConfig_ok freshKv_init _ 0x5EED0001 0x5EED0003

theorem BenchConfig.Ok.absent_ne (h : cfg.Ok) :
    ∀ i < cfg.items, ∀ j < cfg.items, cfg.absent.row i ≠ cfg.keys.row j := fun _ hi _ hj =>
  makeKeys_disjoint h.keysOk (by decide) (by decide) hi hj

theorem BenchConfig.Ok.fresh_ne (h : cfg.Ok) :
    ∀ i < cfg.items, ∀ j < cfg.items, cfg.fresh.row i ≠ cfg.keys.row j := fun _ hi _ hj =>
  makeKeys_disjoint h.keysOk (by decide) (by decide) hi hj

theorem BenchConfig.Ok.vals_spec (h : cfg.Ok) :
    ∃ vs, cfg.vals = some vs ∧ vs.count = cfg.items ∧ vs.len = cfg.valueLen := by
  obtain ⟨next, rest, vs, hcycle, hvalues, -, hcount, hlen, -⟩ :=
    makeData_spec h 0x5EED0001 0x5EED0003
  refine ⟨vs, ?_, hcount, hlen⟩
  rw [BenchConfig.vals, hcycle, Option.bind_eq_bind, Option.bind_some]
  exact hvalues

/-- The store that was built is verified, also after its values were set again. No lookup misses and
no absent key is found, no delete misses its key, and the churn loses none and leaves the fresh keys,
with the values, in place of the others. -/
theorem single_thread_reports_no_error (hcfg : cfg.Ok)
    (hinit : kvInit E leftover memory = some kv₀) (granted granted' : ℕ → Bool) :
    ∃ vs kv, cfg.vals = some vs ∧ buildKv E leftover memory granted cfg.keys vs = some kv ∧
      verify E kv cfg.keys vs cfg.absent cfg.valueLen = some true ∧
      (∃ kv', setRows E granted' cfg.keys vs kv = some kv' ∧
        verify E kv' cfg.keys vs cfg.absent cfg.valueLen = some true) ∧
      benchGetHit E kv cfg.keys cfg.valueLen = some 0 ∧
      benchGetMiss E kv cfg.absent cfg.valueLen = some 0 ∧
      (∃ kv', benchDelete E kv cfg.keys = some (kv', 0) ∧
        ∀ key dstLen, kvGet E kv' key dstLen = some (lookup dstLen none)) ∧
      ∃ kv', benchChurn E granted' kv cfg.keys vs cfg.fresh = some (kv', 0) ∧
        verify E kv' cfg.fresh vs cfg.keys cfg.valueLen = some true := by
  obtain ⟨vs, hvals, hcount, hlen⟩ := hcfg.vals_spec
  have hok : RowsOk cfg.keys vs := hcfg.rowsOk _ hcount hlen
  have hfresh : RowsOk cfg.fresh vs := hcfg.rowsOk _ hcount hlen
  obtain ⟨kv, hbuild, hloaded⟩ := buildKv_loaded hok hinit granted
  obtain ⟨kv₁, hagain, hloaded₁⟩ := setRows_again hok granted' hloaded
  obtain ⟨kv₂, hdelete, hempty⟩ := benchDelete_spec hok hloaded
  obtain ⟨kv₃, hchurn, hloaded₃⟩ := benchChurn_spec hok hfresh hcfg.fresh_ne granted' hloaded
  refine ⟨vs, kv, hvals, hbuild, verify_loaded hok hloaded hcfg.absent_ne hlen.le,
    ⟨kv₁, hagain, verify_loaded hok hloaded₁ hcfg.absent_ne hlen.le⟩,
    benchGetHit_zero hok hloaded hlen.le, benchGetMiss_zero hloaded hcfg.absent_ne _,
    ⟨kv₂, hdelete, fun key dstLen => kvGet_spec hempty key dstLen⟩, kv₃, hchurn, ?_⟩
  exact verify_loaded hfresh hloaded₃ (fun i hi j hj => (hcfg.fresh_ne j hj i hi).symm) hlen.le

theorem single_thread_reports_no_error_small :
    ∃ vs kv, smallConfig.vals = some vs ∧
      buildKv lengthEnv (fun _ => 0) (fun _ _ => .byte 0) (fun _ => true) smallConfig.keys vs =
        some kv ∧
      verify lengthEnv kv smallConfig.keys vs smallConfig.absent 8 = some true := by
  obtain ⟨vs, kv, hvals, hbuild, hverify, -⟩ := single_thread_reports_no_error
    smallConfig_ok freshKv_init (fun _ => true) fun _ => true
  exact ⟨vs, kv, hvals, hbuild, hverify⟩

end Kvx.KvBench
