import Kvx.KvBenchChecks

/-!
# The streams of the benchmark

A stream overwrites values with themselves and reads them. One thread or several may run it, and
the sums that they form do not depend on the order in which the threads take turns.
-/
namespace Kvx.KvBench

open Kvx.Lib Kvx.Lib.LockedObjects Kvx.Store Kvx.Item
open Kvx.Hashtable (Env lengthEnv)

variable {E : Env} {kv : Kv} {M : EntryMap} {ks vs : Rows} {items valueCap : ℕ} {op : BitVec 32}
  {ops : List (BitVec 32)} {call : KvOp}

theorem zipfSearch_le (below : ℕ → Bool) {lo hi : ℕ} (h : lo ≤ hi) : zipfSearch below lo hi ≤ hi := by
  induction lo, hi using zipfSearch.induct below with
  | case1 lo hi hlt mid hbelow ih =>
    rw [zipfSearch, if_pos hlt]
    simp only [mid] at hbelow ih
    simp only [if_pos hbelow]
    exact ih (by omega)
  | case2 lo hi hlt mid hbelow ih =>
    rw [zipfSearch, if_pos hlt]
    simp only [mid] at hbelow ih
    simp only [if_neg hbelow]
    have := ih (by omega)
    omega
  | case3 lo hi hge =>
    rw [zipfSearch, if_neg hge]
    exact h

theorem drawIndex_lt (hpos : 0 < items) (zipf : Option (BitVec 64 → ℕ → Bool)) (draw : BitVec 64) :
    drawIndex items zipf draw < items := by
  cases zipf with
  | none => exact Nat.mod_lt _ hpos
  | some below =>
    have := zipfSearch_le (below draw) (Nat.zero_le (items - 1))
    simp only [drawIndex]
    omega

theorem and_opIdx {idx : ℕ} (hidx : idx < 2 ^ 31) {flag : BitVec 32} (hflag : flag.toNat % 2 ^ 31 = 0) :
    ((BitVec.ofNat 32 idx ||| flag) &&& opIdx).toNat = idx := by
  have hmask : opIdx.toNat = 2 ^ 31 - 1 := rfl
  rw [BitVec.toNat_and, BitVec.toNat_or, BitVec.toNat_ofNat, hmask,
    Nat.and_two_pow_sub_one_eq_mod, Nat.or_mod_two_pow, hflag, Nat.or_zero]
  omega

def InRange (items : ℕ) (ops : List (BitVec 32)) : Prop :=
  ∀ op ∈ ops, (op &&& opIdx).toNat < items

theorem drawOps_inRange (hpos : 0 < items) (hle : items ≤ 0x7FFFFFFF) (setPct : ℕ)
    (zipf : Option (BitVec 64 → ℕ → Bool)) (n : ℕ) (state : BitVec 64) :
    InRange items (drawOps items setPct zipf n state) := by
  induction n generalizing state with
  | zero => exact fun op hop => absurd hop List.not_mem_nil
  | succ n ih =>
    intro op hop
    simp only [drawOps, List.mem_cons] at hop
    rcases hop with rfl | hop
    · have hidx := drawIndex_lt hpos zipf (splitmix64 state).2
      rw [and_opIdx (by omega) (by split_ifs <;> rfl)]
      exact hidx
    · exact ih _ op hop

theorem makeOps_inRange {nOps setPct : ℕ} {zipf : Option (BitVec 64 → ℕ → Bool)} {seed : BitVec 64}
    (hle : items ≤ 0x7FFFFFFF) (h : makeOps nOps items setPct zipf seed = some ops) :
    InRange items ops := by
  unfold makeOps at h
  split_ifs at h with hzero
  rw [Option.some.injEq] at h
  exact h ▸ drawOps_inRange (Nat.pos_of_ne_zero hzero) hle setPct zipf nOps seed

/-- The call is one that `run_ops` makes for the op. -/
def Asks (ks vs : Rows) (valueCap : ℕ) (op : BitVec 32) (call : KvOp) : Prop :=
  ∃ granted, opCall granted ks vs valueCap op = some call

def opWord (vs : Rows) (op : BitVec 32) : BitVec 64 :=
  if op &&& opSet ≠ 0#32 then 0 else readWord (vs.row (op &&& opIdx).toNat)

theorem opCall_eq (hok : RowsOk ks vs) (granted : Bool) (valueCap : ℕ)
    (hidx : (op &&& opIdx).toNat < ks.count) :
    opCall granted ks vs valueCap op = some (if op &&& opSet ≠ 0#32
      then .set granted (ks.row (op &&& opIdx).toNat) (rowEntry vs (op &&& opIdx).toNat)
      else .get (ks.row (op &&& opIdx).toNat) valueCap) := by
  simp only [opCall, rowAt_of_lt hidx, rowAt_of_lt (hok.count_eq ▸ hidx : _ < vs.count),
    Option.bind_eq_bind, Option.bind_some]
  split_ifs <;> rfl

theorem Asks.index_lt (h : Asks ks vs valueCap op call) : (op &&& opIdx).toNat < ks.count := by
  obtain ⟨granted, hcall⟩ := h
  by_contra hge
  simp only [opCall, rowAt, if_neg hge, Option.bind_eq_bind, Option.bind_none, reduceCtorEq] at hcall

theorem Asks.run (hok : RowsOk ks vs) (h : Asks ks vs valueCap op call) (hinv : KvInv E kv M)
    (hrows : HoldsRows ks vs 0 ks.count M) :
    ∃ kv', runKvOp E kv call = some (kv', mapReply M call) ∧ KvInv E kv' M := by
  have hidx := h.index_lt
  obtain ⟨granted, hcall⟩ := h
  rw [opCall_eq hok granted valueCap hidx, Option.some.injEq] at hcall
  subst hcall
  split_ifs with hset
  · have hpos : 0 < (ks.row (op &&& opIdx).toNat).length +
        (rowEntry vs (op &&& opIdx).toNat).value.length := by
      have := hok.key_pos
      rw [Rows.length_row hidx]
      omega
    have hfit := hok.fits_row hidx
    obtain ⟨kv', hrun, hinv'⟩ := kvSet_fits hinv granted hfit (Or.inl hpos)
    have hkey : (ks.row (op &&& opIdx).toNat).length < 256 ^ 2 := by
      rw [Rows.length_row hidx]
      exact hok.key_lt
    refine ⟨kv', ?_, hrows.set_again hidx ▸ hinv' hkey⟩
    simp -implicitDefEqProofs only [runKvOp, mapReply, if_pos hfit, hrun, Option.bind_eq_bind,
      Option.bind_some]
  · refine ⟨kv, ?_, hinv⟩
    simp -implicitDefEqProofs only [runKvOp, mapReply, kvGet_spec hinv, Option.bind_eq_bind,
      Option.bind_some]

theorem readWord_append (v rest : List UInt8) (h : 8 ≤ v.length) :
    readWord (v ++ rest) = readWord v := by
  rw [readWord, readWord, List.take_append_of_le_length h]

/-- The answer to a lookup of the stream adds the first word of the value. -/
theorem Asks.take (hok : RowsOk ks vs) (h : Asks ks vs valueCap op call) (hcap : vs.len ≤ valueCap)
    (hrows : HoldsRows ks vs 0 ks.count M) (s : Sum) :
    (s.take (mapReply M call)).acc = s.acc + opWord vs op := by
  have hidx := h.index_lt
  obtain ⟨granted, hcall⟩ := h
  rw [opCall_eq hok granted valueCap hidx, Option.some.injEq] at hcall
  subst hcall
  split_ifs with hset
  · simp only [mapReply, Sum.take, opWord, if_pos hset]
    exact (BitVec.add_zero s.acc).symm
  · have hword : readWord (vs.row (op &&& opIdx).toNat ++ s.buf.drop
        (vs.row (op &&& opIdx).toNat).length) = readWord (vs.row (op &&& opIdx).toNat) := by
      apply readWord_append
      rw [Rows.length_row (hok.count_eq ▸ hidx : _ < vs.count)]
      exact hok.value_ge
    simp only [mapReply, hrows.present _ (Nat.zero_le _) hidx, lookup_row hok hidx hcap, Sum.take,
      opWord, if_neg hset, if_true, copyInto, hword]

theorem runOp_spec (hok : RowsOk ks vs) (hcap : vs.len ≤ valueCap) (hinv : KvInv E kv M)
    (hrows : HoldsRows ks vs 0 ks.count M) (granted : ℕ → Bool) {i : ℕ} (hop : ops[i]? = some op)
    (hidx : (op &&& opIdx).toNat < ks.count) (s : Sum) :
    ∃ kv' s', runOp E granted ks vs valueCap ops i (kv, s) = some (kv', s') ∧ KvInv E kv' M ∧
      s'.acc = s.acc + opWord vs op := by
  have hcall := opCall_eq hok (granted i) valueCap hidx
  have hasks : Asks ks vs valueCap op _ := ⟨granted i, hcall⟩
  obtain ⟨kv', hrun, hinv'⟩ := hasks.run hok hinv hrows
  refine ⟨kv', _, ?_, hinv', hasks.take hok hcap hrows s⟩
  simp only [runOp, hop, hcall, hrun, Option.bind_eq_bind, Option.bind_some]

theorem runOps_spec (hok : RowsOk ks vs) (hcap : vs.len ≤ valueCap) (hops : InRange ks.count ops)
    (hinv : KvInv E kv M) (hrows : HoldsRows ks vs 0 ks.count M) (granted : ℕ → Bool)
    (buf : List UInt8) :
    ∃ kv' s, runOps E granted ks vs valueCap ops 0 ops.length kv buf = some (kv', s) ∧
      KvInv E kv' M ∧ s.acc = (ops.map (opWord vs)).sum := by
  obtain ⟨⟨kv', s⟩, hrun, hinv', hacc⟩ := countTo_inv (n := ops.length)
    (P := fun i (s : Kv × Sum) =>
      KvInv E s.1 M ∧ s.2.acc = ((ops.take i).map (opWord vs)).sum)
    (s := (kv, ⟨0, buf⟩)) ⟨hinv, by simp⟩ fun i hi ⟨kv, s⟩ ⟨hinv, hacc⟩ => by
      have hop := List.getElem?_eq_getElem hi
      obtain ⟨kv', s', hrun, hinv', hacc'⟩ := runOp_spec hok hcap hinv hrows granted hop
        (hops _ (List.getElem_mem hi)) s
      refine ⟨(kv', s'), hrun, hinv', ?_⟩
      rw [hacc', hacc, List.take_add_one, hop, List.map_append, List.sum_append]
      simp
  rw [List.take_length] at hacc
  refine ⟨kv', s, ?_, hinv', hacc⟩
  rw [runOps, Nat.sub_zero]
  simp only [Nat.zero_add]
  exact hrun

/-- The calls are those of the first ops of a list. -/
def Follows (ks vs : Rows) (valueCap : ℕ) (ops : List (BitVec 32)) (calls : List KvOp) : Prop :=
  List.Forall₂ (Asks ks vs valueCap) (ops.take calls.length) calls

theorem Follows.asks {calls : List KvOp} (h : Follows ks vs valueCap ops calls) (hcall : call ∈ calls) :
    ∃ op, Asks ks vs valueCap op call := by
  obtain ⟨i, hi, rfl⟩ := List.getElem_of_mem hcall
  exact ⟨_, (List.forall₂_iff_get.mp h).2 i (by rw [h.length_eq]; exact hi) hi⟩

/-- Calls of ops that take effect one after the other answer as the rows do. -/
theorem serial_ops (hok : RowsOk ks vs) (hinv : KvInv E kv M)
    (hrows : HoldsRows ks vs 0 ks.count M) {log : List (KvOp × KvReply)}
    {shards : Fin 256 → KvShard} (h : Serial (kvService E) kv.shards log shards)
    (hops : ∀ p ∈ log, ∃ op, Asks ks vs valueCap op p.1) :
    KvInv E ⟨shards⟩ M ∧ ∀ p ∈ log, p.2 = mapReply M p.1 := by
  induction h with
  | nil => exact ⟨hinv, fun p hp => absurd hp List.not_mem_nil⟩
  | @snoc log call reply shards₁ shards₂ _ hcall ih =>
    obtain ⟨hinv₁, hlog⟩ := ih fun p hp => hops p (List.mem_append_left _ hp)
    obtain ⟨op, hasks⟩ : ∃ op, Asks ks vs valueCap op call :=
      hops (call, reply) (List.mem_append_right _ (List.mem_singleton_self _))
    obtain ⟨kv₂, hrun, hinv₂⟩ := hasks.run hok hinv₁ hrows
    have hone := kvService_runCall (E := E) ⟨shards₁⟩ call
    rw [hcall, hrun, Option.map_some, Option.some.injEq, Prod.mk.injEq] at hone
    obtain ⟨rfl, rfl⟩ := hone
    refine ⟨hinv₂, fun p hp => ?_⟩
    rcases List.mem_append.mp hp with hp | hp
    · exact hlog p hp
    · rw [List.mem_singleton.mp hp]

theorem foldl_take (hok : RowsOk ks vs) (hcap : vs.len ≤ valueCap)
    (hrows : HoldsRows ks vs 0 ks.count M) {calls : List KvOp}
    (h : List.Forall₂ (Asks ks vs valueCap) ops calls) (s : Sum) :
    ((calls.map (mapReply M)).foldl Sum.take s).acc = s.acc + (ops.map (opWord vs)).sum := by
  induction h generalizing s with
  | nil => simp
  | cons hasks _ ih =>
    rw [List.map_cons, List.foldl_cons, ih, hasks.take hok hcap hrows, List.map_cons, List.sum_cons,
      add_assoc]

theorem workerOps_perm (ops : List (BitVec 32)) (offset : ℕ) : (workerOps ops offset).Perm ops := by
  refine List.perm_append_comm.trans ?_
  rw [List.take_append_drop]

theorem benchMixed_spec (hok : RowsOk ks vs) (hcap : vs.len ≤ valueCap)
    {mixes : List ((ℕ → Bool) × List (BitVec 32))} (hmixes : ∀ mix ∈ mixes, InRange ks.count mix.2)
    (hinv : KvInv E kv M) (hrows : HoldsRows ks vs 0 ks.count M) (buf : List UInt8) :
    ∃ kv', benchMixed E ks vs valueCap buf mixes kv = some kv' ∧ KvInv E kv' M := by
  induction mixes generalizing kv with
  | nil => exact ⟨kv, rfl, hinv⟩
  | cons mix mixes ih =>
    obtain ⟨hmix, hrest⟩ := List.forall_mem_cons.mp hmixes
    obtain ⟨kv₁, s, hrun, hinv₁, -⟩ := runOps_spec hok hcap hmix hinv hrows mix.1 buf
    obtain ⟨kv₂, hmixed, hinv₂⟩ := ih hrest hinv₁
    refine ⟨kv₂, ?_, hinv₂⟩
    simp only [benchMixed, hrun, hmixed, Option.bind_eq_bind, Option.bind_some]

section Workers

variable {θ : Type} [DecidableEq θ] {sched : List θ} {trace : List (Event θ KvOp KvReply)}
  {c : LockedObjects.Config θ (Fin 256) KvOp KvShard KvReply} {offset : θ → ℕ}

theorem workers_answers (hok : RowsOk ks vs) (hinv : KvInv E kv M)
    (hrows : HoldsRows ks vs 0 ks.count M)
    (h : Runs (kvService E) (.start kv.shards) sched trace c)
    (hcalls : ∀ t, Follows ks vs valueCap (workerOps ops (offset t)) (callsMade t trace)) :
    ∃ shards, KvInv E ⟨shards⟩ M ∧ Locked (kvService E) c shards ∧
      ∀ p ∈ commits trace, p.2 = mapReply M p.1 := by
  obtain ⟨shards, hserial, hlocked⟩ := h.serial
  obtain ⟨hinv', hanswers⟩ := serial_ops hok hinv hrows hserial fun p hp => by
    obtain ⟨t, ht⟩ := h.commit_called hp
    exact (hcalls t).asks (mem_callsMade ht)
  exact ⟨shards, hinv', hlocked, hanswers⟩

theorem worker_sum (hok : RowsOk ks vs) (hcap : vs.len ≤ valueCap) (hinv : KvInv E kv M)
    (hrows : HoldsRows ks vs 0 ks.count M)
    (h : Runs (kvService E) (.start kv.shards) sched trace c)
    (hcalls : ∀ t, Follows ks vs valueCap (workerOps ops (offset t)) (callsMade t trace)) {t : θ}
    (hidle : c.phase t = .idle) (hdone : (callsMade t trace).length = ops.length)
    (buf : List UInt8) :
    ((repliesTo t trace).foldl Sum.take ⟨0, buf⟩).acc = (ops.map (opWord vs)).sum := by
  obtain ⟨shards, -, -, hanswers⟩ := workers_answers hok hinv hrows h hcalls
  have hfollows := hcalls t
  have hlength := (workerOps_perm ops (offset t)).length_eq
  rw [Follows, List.take_of_length_le (by omega)] at hfollows
  rw [h.repliesTo_eq hanswers hidle, foldl_take hok hcap hrows hfollows]
  -- Wherever a worker starts, it runs the whole stream.
  rw [((workerOps_perm ops (offset t)).map _).sum_eq]
  exact BitVec.zero_add _

end Workers

/-- A stream of `main`. -/
def BenchConfig.IsStream (cfg : BenchConfig) (ops : List (BitVec 32)) : Prop :=
  ∃ nOps setPct zipf seed, makeOps nOps cfg.items setPct zipf seed = some ops

variable {cfg : BenchConfig} {leftover : Fin 256 → ℕ} {memory : Fin 256 → Ptr → Cell} {kv₀ : Kv}

theorem BenchConfig.IsStream.inRange (hcfg : cfg.Ok) (h : cfg.IsStream ops) :
    InRange cfg.keys.count ops := by
  obtain ⟨nOps, setPct, zipf, seed, hops⟩ := h
  exact makeOps_inRange hcfg.sizes.2.1 hops

/-- Any number of workers run a stream on one store in any order of their steps, each from an offset
of its own: a worker that is done has the sum that one thread alone has, and once all are idle the
store is verified. -/
theorem bench_mt_agrees (hcfg : cfg.Ok) (hinit : kvInit E leftover memory = some kv₀)
    (granted granted' : ℕ → Bool) (mixes : List ((ℕ → Bool) × List (BitVec 32)))
    (stream : List (BitVec 32)) (hmixes : ∀ mix ∈ mixes, cfg.IsStream mix.2)
    (hstream : cfg.IsStream stream) (buf : List UInt8) :
    ∃ vs kv kv₁ kv₂ s, cfg.vals = some vs ∧
      buildKv E leftover memory granted cfg.keys vs = some kv ∧
      benchMixed E cfg.keys vs cfg.valueLen buf mixes kv = some kv₁ ∧
      runOps E granted' cfg.keys vs cfg.valueLen stream 0 stream.length kv₁ buf = some (kv₂, s) ∧
      ∀ (θ : Type) [DecidableEq θ] (sched : List θ) (trace : List (Event θ KvOp KvReply))
        (c : LockedObjects.Config θ (Fin 256) KvOp KvShard KvReply) (offset : θ → ℕ),
        Runs (kvService E) (.start kv₁.shards) sched trace c →
        (∀ t, Follows cfg.keys vs cfg.valueLen (workerOps stream (offset t)) (callsMade t trace)) →
        (∀ t, c.phase t = .idle → (callsMade t trace).length = stream.length →
          ∀ buf, ((repliesTo t trace).foldl Sum.take ⟨0, buf⟩).acc = s.acc) ∧
        ((∀ t, c.phase t = .idle) →
          verify E ⟨c.objects⟩ cfg.keys vs cfg.absent cfg.valueLen = some true) := by
  obtain ⟨vs, hvals, hcount, hlen⟩ := hcfg.vals_spec
  have hok : RowsOk cfg.keys vs := hcfg.rowsOk _ hcount hlen
  obtain ⟨kv, hbuild, M, hinv, hrows⟩ := buildKv_loaded hok hinit granted
  obtain ⟨kv₁, hmixed, hinv₁⟩ := benchMixed_spec hok hlen.le
    (fun mix hmix => (hmixes mix hmix).inRange hcfg) hinv hrows buf
  obtain ⟨kv₂, s, hrun, -, hacc⟩ :=
    runOps_spec hok hlen.le (hstream.inRange hcfg) hinv₁ hrows granted' buf
  refine ⟨vs, kv, kv₁, kv₂, s, hvals, hbuild, hmixed, hrun, ?_⟩
  intro θ _ sched trace c offset h hcalls
  refine ⟨fun t hidle hdone buf => ?_, fun hidle => ?_⟩
  · rw [hacc]
    exact worker_sum hok hlen.le hinv₁ hrows h hcalls hidle hdone buf
  · obtain ⟨shards, hinv', hlocked, -⟩ := workers_answers hok hinv₁ hrows h hcalls
    -- A thread that is idle holds no mutex.
    have hfree (idx : Fin 256) : c.objects idx = shards idx := by
      refine hlocked.free idx ?_
      cases howner : c.owner idx with
      | none => rfl
      | some t =>
        obtain ⟨call, rest, hphase, -⟩ := hlocked.held t idx howner
        rw [hidle t] at hphase
        cases hphase
    rw [funext hfree]
    exact verify_loaded hok ⟨M, hinv', hrows⟩ hcfg.absent_ne hlen.le

theorem Follows.of_map_eq {granted : Bool} {calls : List KvOp}
    (h : ops.map (opCall granted ks vs valueCap) = calls.map some) :
    Follows ks vs valueCap ops calls := by
  have hlength : ops.length = calls.length := by simpa using congrArg List.length h
  rw [Follows, ← hlength, List.take_length, List.forall₂_iff_get]
  refine ⟨hlength, fun i hi hi' => ⟨granted, ?_⟩⟩
  have hat := congrArg (·[i]?) h
  simpa [hi, hi'] using hat

def pairOps : List (BitVec 32) := drawOps 3 50 none 2 8

/-- Two workers, one from the set on and the other from the lookup on. The second call of either is
made while the other one is inside. -/
def pairSteps (vs : Rows) : List (Bool × Option KvOp) :=
  let set : KvOp := .set true (smallConfig.keys.row 1) (rowEntry vs 1)
  let get : KvOp := .get (smallConfig.keys.row 1) 8
  [(false, some set), (true, some get)] ++ List.replicate 10 (false, none) ++
    [(true, none), (false, some get)] ++ List.replicate 7 (true, none) ++
    [(false, none), (true, some set)] ++ List.replicate 7 (false, none) ++
    List.replicate 10 (true, none)

def pairOffset (t : Bool) : ℕ := if t then 1 else 0

/-- Both workers made the calls of the stream and returned. -/
def PairDone (vs : Rows) (trace : List (Event Bool KvOp KvReply))
    (c : LockedObjects.Config Bool (Fin 256) KvOp KvShard KvReply) : Bool :=
  [false, true].all fun t =>
    (workerOps pairOps (pairOffset t)).map (opCall true smallConfig.keys vs 8) =
        (callsMade t trace).map some &&
      match c.phase t with
      | .idle => true
      | _ => false

theorem PairDone.of_eq_true {vs : Rows} {trace : List (Event Bool KvOp KvReply)}
    {c : LockedObjects.Config Bool (Fin 256) KvOp KvShard KvReply}
    (h : PairDone vs trace c = true) (t : Bool) :
    (workerOps pairOps (pairOffset t)).map (opCall true smallConfig.keys vs 8) =
      (callsMade t trace).map some ∧ c.phase t = .idle := by
  simp only [PairDone, List.all_eq_true, Bool.and_eq_true, decide_eq_true_eq] at h
  obtain ⟨hcalls, hphase⟩ := h t (by cases t <;> simp)
  refine ⟨hcalls, ?_⟩
  split at hphase
  · assumption
  · cases hphase

theorem pair_executes :
    (smallConfig.vals.bind fun vs =>
      (buildKv lengthEnv (fun _ => 0) (fun _ _ => .byte 0) (fun _ => true) smallConfig.keys
        vs).bind fun kv =>
      (benchMixed lengthEnv smallConfig.keys vs smallConfig.valueLen []
        [(fun _ => true, drawOps 3 50 none 4 1)] kv).bind fun kv₁ =>
      ((kvService lengthEnv).execute (.start kv₁.shards) (pairSteps vs)).map fun r =>
        PairDone vs r.1 r.2) = some true := by
  decide +kernel

theorem bench_mt_agrees_small :
    ∃ vs kv kv₁ kv₂ s, smallConfig.vals = some vs ∧
      buildKv lengthEnv (fun _ => 0) (fun _ _ => .byte 0) (fun _ => true) smallConfig.keys vs =
        some kv ∧
      benchMixed lengthEnv smallConfig.keys vs 8 [] [(fun _ => true, drawOps 3 50 none 4 1)] kv =
        some kv₁ ∧
      runOps lengthEnv (fun _ => true) smallConfig.keys vs 8 pairOps 0 2 kv₁ [] = some (kv₂, s) ∧
      ∃ trace c,
        Runs (kvService lengthEnv) (.start kv₁.shards) ((pairSteps vs).map Prod.fst) trace c ∧
        (∀ t, Follows smallConfig.keys vs 8 (workerOps pairOps (pairOffset t))
          (callsMade t trace)) ∧
        (∀ t buf, ((repliesTo t trace).foldl Sum.take ⟨0, buf⟩).acc = s.acc) ∧
        verify lengthEnv ⟨c.objects⟩ smallConfig.keys vs smallConfig.absent 8 = some true := by
  obtain ⟨vs, kv, kv₁, kv₂, s, hvals, hbuild, hmixed, hrun, hworkers⟩ := bench_mt_agrees
    smallConfig_ok freshKv_init (fun _ => true) (fun _ => true)
    [(fun _ => true, drawOps 3 50 none 4 1)] pairOps
    (by simpa using ⟨4, 50, none, 1, rfl⟩) ⟨2, 50, none, 8, rfl⟩ []
  have hexec := pair_executes
  rw [hvals, Option.bind_some, hbuild, Option.bind_some, hmixed, Option.bind_some] at hexec
  obtain ⟨⟨trace, c⟩, hsteps, hdone⟩ := Option.map_eq_some_iff.mp hexec
  have hruns := Runs.nil.of_execute hsteps
  have hfollows (t : Bool) := Follows.of_map_eq (PairDone.of_eq_true hdone t).1
  have hidle (t : Bool) := (PairDone.of_eq_true hdone t).2
  have hlength (t : Bool) : (callsMade t trace).length = pairOps.length := by
    simpa using (congrArg List.length (PairDone.of_eq_true hdone t).1).symm.trans (by
      rw [List.length_map, (workerOps_perm pairOps (pairOffset t)).length_eq])
  obtain ⟨hsums, hverify⟩ := hworkers Bool _ trace c pairOffset hruns hfollows
  exact ⟨vs, kv, kv₁, kv₂, s, hvals, hbuild, hmixed, hrun, trace, c, hruns, hfollows,
    fun t buf => hsums t (hidle t) (hlength t) buf, hverify hidle⟩

end Kvx.KvBench
