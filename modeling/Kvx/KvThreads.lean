import Kvx.KvReached
import Kvx.Lib.LockedObjects

/-!
# Calls from several threads

Each shard has a mutex. A call takes the mutex of the shard of its key, makes its accesses to the
table, the allocator and the item, and gives the mutex back before it returns. Threads call at
any time.
-/
namespace Kvx.Store

open Kvx.Lib Kvx.Lib.LockedObjects Kvx.SlabAlloc Kvx.Item
open Kvx.Hashtable (Env SlotRef hashtableGet hashtableSet hashtableDelete lengthEnv)

def look {α : Type} (read : KvShard → Option α) (shard : KvShard) : Option (α × KvShard) :=
  (read shard).map fun a => (a, shard)

def onItems (write : SlabAllocator → Option SlabAllocator) (shard : KvShard) :
    Option (Unit × KvShard) :=
  (write shard.allocator).map fun alloc => ((), { shard with allocator := alloc })

def allocItem (dataLen : ℕ) (shard : KvShard) : Option (Option Ptr × KvShard) :=
  (slabAllocatorAllocItem shard.allocator dataLen).map fun r =>
    (r.2, { shard with allocator := r.1 })

/-- `*item_slot_ptr = item`. -/
def putItem (slot : SlotRef) (item : Ptr) (shard : KvShard) : Option (Unit × KvShard) :=
  some ((), { shard with table := shard.table.writeSlot slot (some item) })

def setSlot (E : Env) (granted : Bool) (hash : BitVec 64) (key : List UInt8) (shard : KvShard) :
    Option (SlotRef × KvShard) :=
  (hashtableSet E (readKey shard.allocator) granted shard.table hash key).map fun r =>
    (r.2, { shard with table := r.1 })

def takeItem (E : Env) (hash : BitVec 64) (key : List UInt8) (shard : KvShard) :
    Option (Option Ptr × KvShard) :=
  (hashtableDelete E (readKey shard.allocator) shard.table hash key).map fun r =>
    (r.2, { shard with table := r.1 })

/-- `kv_shard_get` between its lock and its unlock. -/
def kvShardGetScript (hash : BitVec 64) (key : List UInt8) (dstLen : ℕ) :
    Script KvShard KvReply :=
  .step (look fun shard => hashtableGet (readKey shard.allocator) shard.table hash key) fun
    | none => .done (.got ⟨.notFound, none, none, none, none⟩)
    | some item =>
        .step (look fun shard => itemValueLen shard.allocator item) fun valueLen =>
          if dstLen < valueLen then
            .done (.got ⟨.valueLenExceedsDstBufferSize, some valueLen, none, none, none⟩)
          else
            .step (look fun shard => itemFlags shard.allocator item) fun flags =>
            .step (look fun shard => itemExpireAt shard.allocator item) fun exp =>
            .step (look fun shard => itemValue shard.allocator item) fun value =>
              .done (.got ⟨.ok, some valueLen, some flags, some exp, some value⟩)

/-- The stores into the item, and the return. -/
def fillScript (item : Ptr) (key : List UInt8) (e : Entry) : Script KvShard KvReply :=
  .step (onItems fun alloc => alloc.store (item.add offExpireAt) (natCells 4 e.exp.toNat)) fun _ =>
  .step (onItems fun alloc => alloc.store (item.add offFlags) (natCells 2 e.flags.toNat)) fun _ =>
  .step (onItems fun alloc => itemSetKey alloc item key) fun _ =>
  .step (onItems fun alloc => itemSetValue alloc item e.value) fun _ => .done (.code .ok)

/-- `kv_shard_set` once the slot holds an item. -/
def kvShardStoreScript (slot : SlotRef) (item : Ptr) (dataLen : ℕ) (key : List UInt8) (e : Entry) :
    Script KvShard KvReply :=
  .step (look fun shard => itemDataSize shard.allocator item) fun dataSize =>
    if dataSize < dataLen then
      .step (allocItem dataLen) fun
        | none => .done (.code .noMem)
        | some fresh =>
            .step (onItems fun alloc => slabAllocatorFreeItem alloc item) fun _ =>
            .step (putItem slot fresh) fun _ => fillScript fresh key e
    else fillScript item key e

/-- `kv_shard_set` between its lock and its unlock. -/
def kvShardSetScript (E : Env) (granted : Bool) (hash : BitVec 64) (key : List UInt8) (e : Entry) :
    Script KvShard KvReply :=
  let dataLen := Pages.sizeT (key.length + e.value.length)
  .step (setSlot E granted hash key) fun slot =>
  .step (look fun shard => shard.table.readSlot slot) fun
    | none =>
        .step (allocItem dataLen) fun
          | none => .step (takeItem E hash key) fun _ => .done (.code .noMem)
          | some item =>
              .step (putItem slot item) fun _ => kvShardStoreScript slot item dataLen key e
    | some item => kvShardStoreScript slot item dataLen key e

/-- `kv_shard_delete` between its lock and its unlock. -/
def kvShardDeleteScript (E : Env) (hash : BitVec 64) (key : List UInt8) :
    Script KvShard KvReply :=
  .step (takeItem E hash key) fun
    | none => .done (.code .notFound)
    | some item =>
        .step (onItems fun alloc => slabAllocatorFreeItem alloc item) fun _ => .done (.code .ok)

/-- The call is not a set of an absent key with a value that is too large. -/
def KvOp.Answered (E : Env) (kv : Kv) : KvOp → Prop
  | .set _ key e => Fits key e ∨ Present E kv key
  | _ => True

/-- `kv_get`, `kv_set` and `kv_delete`: the hash names the shard. -/
def kvService (E : Env) : Service (Fin 256) KvOp KvShard KvReply where
  place op := shardIdx (E.xxh3 op.key)
  script
    | .set granted key e => kvShardSetScript E granted (E.xxh3 key) key e
    | .get key dstLen => kvShardGetScript (E.xxh3 key) key dstLen
    | .delete key => kvShardDeleteScript E (E.xxh3 key) key

theorem fillScript_within (item : Ptr) (key : List UInt8) (e : Entry) :
    (fillScript item key e).Within 4 :=
  .step fun _ => .step fun _ => .step fun _ => .step fun _ => .done _ _

theorem storeScript_within (slot : SlotRef) (item : Ptr) (dataLen : ℕ) (key : List UInt8)
    (e : Entry) : (kvShardStoreScript slot item dataLen key e).Within 8 := by
  refine .step fun dataSize => ?_
  split_ifs
  · refine .step fun fresh => ?_
    cases fresh with
    | none => exact .done _ _
    | some fresh => exact .step fun _ => .step fun _ => fillScript_within fresh key e
  · exact (fillScript_within item key e).mono (by decide)

theorem setScript_within (E : Env) (granted : Bool) (hash : BitVec 64) (key : List UInt8)
    (e : Entry) : (kvShardSetScript E granted hash key e).Within 12 := by
  refine .step fun slot => .step fun found => ?_
  cases found with
  | some item => exact (storeScript_within slot item _ key e).mono (by decide)
  | none =>
    refine .step fun item => ?_
    cases item with
    | none => exact .step fun _ => .done _ _
    | some item => exact .step fun _ => storeScript_within slot item _ key e

theorem getScript_within (hash : BitVec 64) (key : List UInt8) (dstLen : ℕ) :
    (kvShardGetScript hash key dstLen).Within 5 := by
  refine .step fun found => ?_
  cases found with
  | none => exact .done _ _
  | some item =>
    refine .step fun valueLen => ?_
    split_ifs
    · exact .done _ _
    · exact .step fun _ => .step fun _ => .step fun _ => .done _ _

theorem deleteScript_within (E : Env) (hash : BitVec 64) (key : List UInt8) :
    (kvShardDeleteScript E hash key).Within 2 := by
  refine .step fun item => ?_
  cases item with
  | none => exact .done _ _
  | some item => exact .step fun _ => .done _ _

theorem script_within {E : Env} (op : KvOp) : ((kvService E).script op).Within 12 := by
  cases op with
  | set granted key e => exact setScript_within E granted _ key e
  | get key dstLen => exact (getScript_within _ key dstLen).mono (by decide)
  | delete key => exact (deleteScript_within E _ key).mono (by decide)

variable {E : Env} {kv kv' : Kv} {shard : KvShard}

theorem getScript_run (hash : BitVec 64) (key : List UInt8) (dstLen : ℕ) :
    (kvShardGetScript hash key dstLen).run shard =
      (kvShardGet shard hash key dstLen).map fun got => (.got got, shard) := by
  unfold kvShardGetScript kvShardGet
  cases hget : hashtableGet (readKey shard.allocator) shard.table hash key with
  | none => simp [Script.run, look, hget]
  | some found =>
    cases found with
    | none => simp [Script.run, look, hget]
    | some item =>
      cases hlen : itemValueLen shard.allocator item with
      | none => simp [Script.run, look, hget, hlen]
      | some valueLen =>
        by_cases hshort : dstLen < valueLen
        · simp [Script.run, look, hget, hlen, hshort]
        · cases hflags : itemFlags shard.allocator item <;>
            cases hexp : itemExpireAt shard.allocator item <;>
            cases hvalue : itemValue shard.allocator item <;>
            simp [Script.run, look, hget, hlen, hshort, hflags, hexp, hvalue]

theorem fillScript_run (item : Ptr) (key : List UInt8) (e : Entry) :
    (fillScript item key e).run shard =
      (fillItem shard.allocator item key e).map fun alloc => (.code .ok, ⟨shard.table, alloc⟩) := by
  simp only [fillScript, fillItem, Script.run, onItems, Option.bind_eq_bind, Option.map_eq_bind,
    Option.bind_assoc, Option.bind_some, Function.comp_def]

theorem storeScript_run (slot : SlotRef) (item : Ptr) (dataLen : ℕ) (key : List UInt8) (e : Entry) :
    (kvShardStoreScript slot item dataLen key e).run shard =
      (kvShardStore shard slot item dataLen key e).map fun r => (.code r.2, r.1) := by
  unfold kvShardStoreScript kvShardStore
  cases hsize : itemDataSize shard.allocator item with
  | none => simp [Script.run, look, hsize]
  | some dataSize =>
    by_cases hsmall : dataSize < dataLen
    · cases halloc : slabAllocatorAllocItem shard.allocator dataLen with
      | none => simp [Script.run, look, allocItem, hsize, hsmall, halloc]
      | some r =>
        obtain ⟨alloc, fresh⟩ := r
        cases fresh with
        | none => simp [Script.run, look, allocItem, hsize, hsmall, halloc]
        | some fresh =>
          cases hfree : slabAllocatorFreeItem alloc item <;>
            simp [Script.run, look, allocItem, onItems, putItem, fillScript_run, hsize, hsmall,
              halloc, hfree, Option.map_eq_bind, Option.bind_assoc]
    · simp [Script.run, look, hsize, hsmall, fillScript_run, Option.map_eq_bind, Option.bind_assoc]

theorem setScript_run (granted : Bool) (hash : BitVec 64) (key : List UInt8) (e : Entry) :
    (kvShardSetScript E granted hash key e).run shard =
      (kvShardSet E granted shard hash key e).map fun r => (.code r.2, r.1) := by
  unfold kvShardSetScript kvShardSet
  cases hset : hashtableSet E (readKey shard.allocator) granted shard.table hash key with
  | none => simp [Script.run, setSlot, hset]
  | some r =>
    obtain ⟨table, slot⟩ := r
    cases hread : table.readSlot slot with
    | none => simp [Script.run, setSlot, look, hset, hread]
    | some found =>
      cases found with
      | some item => simp [Script.run, setSlot, look, storeScript_run, hset, hread]
      | none =>
        cases halloc : slabAllocatorAllocItem shard.allocator
            (Pages.sizeT (key.length + e.value.length)) with
        | none => simp [Script.run, setSlot, look, allocItem, hset, hread, halloc]
        | some r =>
          obtain ⟨alloc, item⟩ := r
          cases item with
          | none =>
            cases hdelete : hashtableDelete E (readKey alloc) table hash key <;>
              simp [Script.run, setSlot, look, allocItem, takeItem, hset, hread, halloc, hdelete]
          | some item =>
            simp [Script.run, setSlot, look, allocItem, putItem, storeScript_run, hset, hread, halloc]

theorem deleteScript_run (hash : BitVec 64) (key : List UInt8) :
    (kvShardDeleteScript E hash key).run shard =
      (kvShardDelete E shard hash key).map fun r => (.code r.2, r.1) := by
  unfold kvShardDeleteScript kvShardDelete
  cases hdelete : hashtableDelete E (readKey shard.allocator) shard.table hash key with
  | none => simp [Script.run, takeItem, hdelete]
  | some r =>
    obtain ⟨table, item⟩ := r
    cases item with
    | none => simp [Script.run, takeItem, hdelete]
    | some item =>
      cases hfree : slabAllocatorFreeItem shard.allocator item <;>
        simp [Script.run, takeItem, onItems, hdelete, hfree]

/-- A call of the service that meets no other one is a call of the store. -/
theorem kvService_runCall (kv : Kv) (op : KvOp) :
    (kvService E).runCall kv.shards op = (runKvOp E kv op).map fun r => (r.2, r.1.shards) := by
  cases op with
  | set granted key e =>
    simp only [Service.runCall, kvService, KvOp.key, setScript_run, runKvOp, kvSet,
      Option.bind_eq_bind, Option.map_eq_bind, Option.bind_assoc, Option.bind_some,
      Function.comp_def, Kv.setShard]
  | get key dstLen =>
    simp only [Service.runCall, kvService, KvOp.key, getScript_run, runKvOp, kvGet,
      Option.bind_eq_bind, Option.map_eq_bind, Option.bind_assoc, Option.bind_some,
      Function.comp_def, Function.update_eq_self]
  | delete key =>
    simp only [Service.runCall, kvService, KvOp.key, deleteScript_run, runKvOp, kvDelete,
      Option.bind_eq_bind, Option.map_eq_bind, Option.bind_assoc, Option.bind_some,
      Function.comp_def, Kv.setShard]

theorem runKv_snoc (kv : Kv) (ops : List KvOp) (op : KvOp) :
    runKv E kv (ops ++ [op]) = (runKv E kv ops).bind fun r =>
      (runKvOp E r.1 op).map fun r' => (r'.1, r.2 ++ [r'.2]) := by
  induction ops generalizing kv with
  | nil =>
    simp only [List.nil_append, runKv, Option.bind_eq_bind, Option.bind_some, Option.map_eq_bind,
      Function.comp_def]
  | cons op' ops ih =>
    simp only [List.cons_append, runKv, ih, Option.bind_eq_bind, Option.map_eq_bind,
      Option.bind_assoc, Option.bind_some, Function.comp_def]

theorem serial_runKv {log : List (KvOp × KvReply)} {shards : Fin 256 → KvShard}
    (h : Serial (kvService E) kv.shards log shards) :
    runKv E kv (log.map Prod.fst) = some (⟨shards⟩, log.map Prod.snd) := by
  induction h with
  | nil => rfl
  | @snoc log op reply shards₁ shards₂ _ hcall ih =>
    have hone := kvService_runCall (E := E) ⟨shards₁⟩ op
    rw [hcall] at hone
    obtain ⟨⟨kv₂, reply'⟩, hop, heq⟩ := Option.map_eq_some_iff.mp hone.symm
    simp only [Prod.mk.injEq] at heq
    obtain ⟨rfl, rfl⟩ := heq
    simp [runKv_snoc, ih, hop]

deriving instance DecidableEq for KvOp

/-- One thread sets a key while another one looks it up. -/
def storeOp : KvOp := .set true [7] ⟨[1, 2], 3, 4⟩

def lookupOp : KvOp := .get [7] 2

def contendedTrace : List (Event Bool KvOp KvReply) :=
  [.call false lookupOp, .call true storeOp, .commit true storeOp (.code .ok),
    .commit false lookupOp (.got ⟨.ok, some 2, some 3, some 4, some [1, 2]⟩),
    .ret false (.got ⟨.ok, some 2, some 3, some 4, some [1, 2]⟩), .ret true (.code .ok)]

def contendedSteps : List (Bool × Option KvOp) :=
  [(false, some lookupOp), (true, some storeOp)] ++ List.replicate 11 (true, none) ++
    List.replicate 8 (false, none) ++ [(true, none)]

theorem contended_executes : ((kvService lengthEnv).execute (.start freshKv.shards)
    contendedSteps).map Prod.fst = some contendedTrace := by decide +kernel

theorem contended_runs : ∃ c, Runs (kvService lengthEnv) (.start freshKv.shards)
    (contendedSteps.map Prod.fst) contendedTrace c := by
  obtain ⟨⟨_, c⟩, hexec, rfl⟩ := Option.map_eq_some_iff.mp contended_executes
  exact ⟨c, Runs.nil.of_execute hexec⟩

theorem contended_calls {t : Bool} {op : KvOp} (h : .call t op ∈ contendedTrace) :
    op.Valid ∧ op.KeyOk := by
  simp only [contendedTrace, List.mem_cons, Event.call.injEq, reduceCtorEq, List.not_mem_nil,
    or_false] at h
  rcases h with ⟨-, rfl⟩ | ⟨-, rfl⟩
  · exact ⟨trivial, by decide, by decide⟩
  · exact ⟨⟨by decide, by decide, by decide⟩, by decide, by decide⟩

section Interleaved

variable {θ : Type} [DecidableEq θ] {leftover : Fin 256 → ℕ} {memory : Fin 256 → Ptr → Cell}
  {sched : List θ} {trace : List (Event θ KvOp KvReply)}
  {c : LockedObjects.Config θ (Fin 256) KvOp KvShard KvReply}

theorem KvOp.Valid.narrow {op : KvOp} (h : op.Valid) : op.Narrow := by
  cases op with
  | set granted key e => exact h.key_short
  | get key dstLen => trivial
  | delete key => trivial

theorem runs_commits {kv : Kv} {P : KvOp → Prop}
    (h : Runs (kvService E) (.start kv.shards) sched trace c)
    (hv : ∀ t op, .call t op ∈ trace → P op) : ∀ op ∈ (commits trace).map Prod.fst, P op := by
  intro op hop
  obtain ⟨⟨op', reply⟩, hmem, rfl⟩ := List.mem_map.mp hop
  obtain ⟨t, ht⟩ := h.commit_called hmem
  exact hv t op' ht

/-- Whatever the threads do in whatever order, their calls take effect one after the other, each
between its call and its return, and answer as calls of a finite map. -/
theorem kv_linearizable (hinit : kvInit E leftover memory = some kv)
    (h : Runs (kvService E) (.start kv.shards) sched trace c)
    (hv : ∀ t op, .call t op ∈ trace → op.Valid) :
    Linearizable (fun log => log.map Prod.snd = mapKvRun (fun _ => none) (log.map Prod.fst))
      (trace.filter Event.Visible) := by
  refine h.linearizable fun shards hserial => ?_
  have hinv := kvInit_spec hinit
  have hrun := serial_runKv hserial
  have hvalid := runs_commits h hv
  obtain ⟨kv', hrun'⟩ := runKv_refines hinv hvalid (runKv_returns hinv hvalid hrun)
  rw [hrun, Option.some.injEq, Prod.mk.injEq] at hrun'
  exact hrun'.2

theorem kv_linearizable_contended :
    Linearizable (fun log => log.map Prod.snd = mapKvRun (fun _ => none) (log.map Prod.fst))
      (contendedTrace.filter Event.Visible) := by
  obtain ⟨c, hruns⟩ := contended_runs
  exact kv_linearizable freshKv_init hruns fun t op hop => (contended_calls hop).1

/-- While no thread holds the mutex of a shard, the shard is as the committed calls leave it when
one thread makes them one after the other. -/
theorem kv_serializable (hinit : kvInit E leftover memory = some kv)
    (h : Runs (kvService E) (.start kv.shards) sched trace c)
    (hk : ∀ t op, .call t op ∈ trace → op.KeyOk) :
    ∃ kv', Reached E kv' ∧
      runKv E kv ((commits trace).map Prod.fst) = some (kv', (commits trace).map Prod.snd) ∧
      ∀ idx, c.owner idx = none → c.objects idx = kv'.shards idx ∧ Owned (c.objects idx) := by
  obtain ⟨shards, hserial, hlocked⟩ := h.serial
  have hrun := serial_runKv hserial
  have hreached : Reached E ⟨shards⟩ :=
    ⟨leftover, memory, kv, _, _, hinit, runs_commits h hk, hrun⟩
  refine ⟨⟨shards⟩, hreached, hrun, fun idx hfree => ?_⟩
  obtain ⟨M, hinv⟩ := hreached.inv
  have hs := hinv idx
  have hsame := hlocked.free idx hfree
  refine ⟨hsame, ?_⟩
  rw [hsame]
  exact ⟨hs.heap.slabs.live_nodup, hs.heap.live_iff, tableInv_filled hs.table⟩

theorem kv_serializable_contended :
    ∃ kv', Reached lengthEnv kv' ∧
      runKv lengthEnv freshKv ((commits contendedTrace).map Prod.fst) =
        some (kv', (commits contendedTrace).map Prod.snd) := by
  obtain ⟨c, hruns⟩ := contended_runs
  obtain ⟨kv', hreached, hrun, -⟩ :=
    kv_serializable freshKv_init hruns fun t op hop => (contended_calls hop).2
  exact ⟨kv', hreached, hrun⟩

/-- Two threads are never inside the same shard, and a call takes at most 16 steps of its thread.
Unless a set in progress has an absent key and a value that is too large, a thread with a call in
progress can take its next step, or it waits for a thread inside its shard that can. -/
theorem kv_progress (hinit : kvInit E leftover memory = some kv)
    (h : Runs (kvService E) (.start kv.shards) sched trace c) :
    (∀ t u op op' rest rest', c.phase t = .inside op rest → c.phase u = .inside op' rest' →
      shardIdx (E.xxh3 op.key) = shardIdx (E.xxh3 op'.key) → t = u) ∧
    (∀ t, sched.count t ≤ 16 * callsOf t trace) ∧
    ∃ kv', runKv E kv ((commits trace).map Prod.fst) = some (kv', (commits trace).map Prod.snd) ∧
      ((∀ t op, .call t op ∈ trace → op.Valid) →
        (∀ t op rest, c.phase t = .inside op rest → op.Answered E kv') →
        ∀ t, c.phase t ≠ .idle → ∃ u events c', Step (kvService E) u c events c' ∧
          (u = t ∨ ∃ op op' rest, c.phase t = .called op ∧ c.phase u = .inside op' rest ∧
            shardIdx (E.xxh3 op'.key) = shardIdx (E.xxh3 op.key))) := by
  obtain ⟨shards, hserial, hlocked⟩ := h.serial
  have hrun := serial_runKv hserial
  refine ⟨fun t u op op' rest rest' ht hu hplace => hlocked.exclusive ht hu hplace, fun t => ?_,
    ⟨shards⟩, hrun, fun hv hanswered t hbusy => ?_⟩
  · obtain ⟨k, -, hle⟩ := h.steps_le script_within t
    omega
  · refine h.progress (fun shards' hserial' u op rest hphase => ?_) hbusy
    have hrun' := serial_runKv hserial'
    rw [hrun, Option.some.injEq, Prod.mk.injEq, Kv.mk.injEq] at hrun'
    obtain ⟨rfl, -⟩ := hrun'
    obtain ⟨M, hinv⟩ := runKv_inv (kvInit_spec hinit)
      (fun op hop => (runs_commits h hv op hop).narrow) hrun
    have hreturns : Returns M op := by
      cases op with
      | set granted key e =>
        exact (hanswered u _ rest hphase).imp_right (present_iff hinv).mp
      | get key dstLen => trivial
      | delete key => trivial
    obtain ⟨kv', hop, -⟩ := runKvOp_refines hinv (hv u op (h.inside_called hphase)) hreturns
    have hcall := kvService_runCall (E := E) ⟨shards⟩ op
    rw [hop, Option.map_some] at hcall
    simp [hcall]

end Interleaved

/-- The set has the mutex of its shard, and the lookup waits for it. -/
def waitingTrace : List (Event Bool KvOp KvReply) := [.call false lookupOp, .call true storeOp]

theorem waiting_runs : ∃ c : LockedObjects.Config Bool (Fin 256) KvOp KvShard KvReply,
    Runs (kvService lengthEnv) (.start freshKv.shards) [false, true, true] waitingTrace c ∧
      c.phase false = .called lookupOp :=
  ⟨_, ((Runs.nil.snoc (.call rfl)).snoc (.call rfl)).snoc (.lock rfl rfl), rfl⟩

theorem kv_progress_contended : ∃ c,
    Runs (kvService lengthEnv) (.start freshKv.shards) [false, true, true] waitingTrace c ∧
    (∀ t u op op' rest rest', c.phase t = .inside op rest → c.phase u = .inside op' rest' →
      shardIdx (lengthEnv.xxh3 op.key) = shardIdx (lengthEnv.xxh3 op'.key) → t = u) ∧
    (∀ t, [false, true, true].count t ≤ 16 * callsOf t waitingTrace) ∧
    ∃ u events c', Step (kvService lengthEnv) u c events c' ∧
      (u = false ∨ ∃ op op' rest, c.phase false = .called op ∧ c.phase u = .inside op' rest ∧
        shardIdx (lengthEnv.xxh3 op'.key) = shardIdx (lengthEnv.xxh3 op.key)) := by
  obtain ⟨c, hruns, hwaits⟩ := waiting_runs
  have hops : ∀ t op, .call t op ∈ waitingTrace → op = lookupOp ∨ op = storeOp := by
    intro t op hop
    simp only [waitingTrace, List.mem_cons, Event.call.injEq, List.not_mem_nil, or_false] at hop
    exact hop.imp And.right And.right
  obtain ⟨hexclusive, hsteps, kv', -, hprogress⟩ := kv_progress freshKv_init hruns
  refine ⟨c, hruns, hexclusive, hsteps, hprogress (fun t op hop => ?_) (fun t op rest hphase => ?_)
    false (by simp [hwaits])⟩
  · rcases hops t op hop with rfl | rfl
    · trivial
    · exact ⟨by decide, by decide, by decide⟩
  · rcases hops t op (hruns.inside_called hphase) with rfl | rfl
    · trivial
    · exact Or.inl (by decide : Fits [7] _)

end Kvx.Store
