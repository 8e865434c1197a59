import Kvx.BenchRows
import Kvx.KvThreads
import Kvx.Lib.CountLoop

/-!
# The benchmark of the store

What the benchmark does to the store between two readings of the clock, and what it checks. A
function whose row or op lies outside of its buffer has the result `none`.
-/
namespace Kvx.KvBench

open Kvx.Lib Kvx.Lib.LockedObjects Kvx.Store Kvx.Item
open Kvx.Hashtable (Env lengthEnv)

structure BenchConfig where
  items : ℕ
  keyLen : ℕ
  valueLen : ℕ

def opSet : BitVec 32 := 0x80000000#32
def opIdx : BitVec 32 := 0x7FFFFFFF#32

/-- The checks of `main` and of its `parse_size`. -/
def BenchConfig.accepted (cfg : BenchConfig) : Bool :=
  cfg.items ≠ 0 ∧ cfg.keyLen ≠ 0 ∧ cfg.valueLen ≠ 0 ∧ ¬ opIdx.toNat < cfg.items ∧
    ¬ (cfg.valueLen < cfg.keyLen ∨ cfg.valueLen < 8)

def BenchConfig.keys (cfg : BenchConfig) : Rows := makeKeys cfg.items cfg.keyLen 0x5EED0001
def BenchConfig.absent (cfg : BenchConfig) : Rows := makeKeys cfg.items cfg.keyLen 0x5EED0002
def BenchConfig.fresh (cfg : BenchConfig) : Rows := makeKeys cfg.items cfg.keyLen 0x5EED0005

def BenchConfig.vals (cfg : BenchConfig) : Option Rows := do
  let next ← makeCycle cfg.items 0x5EED0003
  makeValues cfg.keys next cfg.valueLen

def tagFlags : UInt16 := 0xA5A5
def tagExp : UInt32 := 0xDEADBEEF

def setRow (E : Env) (granted : Bool) (ks vs : Rows) (ki vi : ℕ) (kv : Kv) : Option Kv := do
  let key ← rowAt ks ki
  let value ← rowAt vs vi
  let (kv, _) ← kvSet E granted kv key ⟨value, tagFlags, tagExp⟩
  some kv

/-- The loop of `build_kv` and of `bench_set_overwrite`. -/
def setRows (E : Env) (granted : ℕ → Bool) (ks vs : Rows) : Kv → Option Kv :=
  countTo ks.count fun i => setRow E (granted i) ks vs i i

def buildKv (E : Env) (leftover : Fin 256 → ℕ) (memory : Fin 256 → Ptr → Cell)
    (granted : ℕ → Bool) (ks vs : Rows) : Option Kv := do
  let kv ← kvInit E leftover memory
  setRows E granted ks vs kv

def copyInto (buf : List UInt8) (got : KvGot) : List UInt8 :=
  match got.dst with
  | none => buf
  | some value => value ++ buf.drop value.length

/-- The eight bytes, the lowest first. -/
def readWord (v : List UInt8) : BitVec 64 :=
  (v.take 8).foldr (fun b w => (w <<< 8) ||| b.toBitVec.setWidth 64) 0

structure Report where
  missing : ℕ := 0
  badLen : ℕ := 0
  badBytes : ℕ := 0
  badMeta : ℕ := 0
  falseHits : ℕ := 0
  smallOk : ℕ := 0

def Report.ok (r : Report) : Bool :=
  (r.missing ||| r.badLen ||| r.badBytes ||| r.badMeta ||| r.falseHits ||| r.smallOk) = 0

def verifyRow (E : Env) (kv : Kv) (ks vs : Rows) (valueCap i : ℕ) (r : Report) :
    Option Report := do
  let key ← rowAt ks i
  let got ← kvGet E kv key valueCap
  if got.code ≠ .ok then some { r with missing := r.missing + 1 }
  else
    let vlen ← got.valueLenOut
    if vlen ≠ vs.len then some { r with badLen := r.badLen + 1 }
    else
      let buf ← got.dst
      let value ← rowAt vs i
      let flags ← got.flagsOut
      let exp ← got.expOut
      some { r with
        badBytes := r.badBytes + if buf.take vlen ≠ value then 1 else 0
        badMeta := r.badMeta + if flags ≠ tagFlags ∨ exp ≠ tagExp then 1 else 0 }

def verifyShort (E : Env) (kv : Kv) (ks vs : Rows) (i : ℕ) (r : Report) : Option Report := do
  let key ← rowAt ks i
  let got ← kvGet E kv key (Pages.sizeT (vs.len + (2 ^ 64 - 1)))
  some { r with smallOk := r.smallOk + if got.code = .ok then 1 else 0 }

def verifyAbsent (E : Env) (kv : Kv) (absent : Rows) (valueCap i : ℕ) (r : Report) :
    Option Report := do
  let key ← rowAt absent i
  let got ← kvGet E kv key valueCap
  some { r with falseHits := r.falseHits + if got.code = .ok then 1 else 0 }

def verify (E : Env) (kv : Kv) (ks vs absent : Rows) (valueCap : ℕ) : Option Bool := do
  let r ← countTo ks.count (verifyRow E kv ks vs valueCap) {}
  let r ← countTo (min 1000 ks.count) (verifyShort E kv ks vs) r
  let r ← countTo absent.count (verifyAbsent E kv absent valueCap) r
  some r.ok

/-- The binary search of `zipf_draw`; `below mid` is `cdf[mid] < u`. -/
def zipfSearch (below : ℕ → Bool) (lo hi : ℕ) : ℕ :=
  if lo < hi then
    let mid := lo + (hi - lo) / 2
    if below mid then zipfSearch below (mid + 1) hi else zipfSearch below lo mid
  else lo
  termination_by hi - lo

/-- The index for a word that was drawn, which stands for `u` in the distribution. -/
def drawIndex (items : ℕ) (zipf : Option (BitVec 64 → ℕ → Bool)) (draw : BitVec 64) : ℕ :=
  match zipf with
  | some below => zipfSearch (below draw) 0 (items - 1)
  | none => draw.toNat % items

/-- The ops from a state of the generator on. -/
def drawOps (items setPct : ℕ) (zipf : Option (BitVec 64 → ℕ → Bool)) :
    ℕ → BitVec 64 → List (BitVec 32)
  | 0, _ => []
  | n + 1, state =>
      let (state, draw) := splitmix64 state
      let (state, roll) := splitmix64 state
      (BitVec.ofNat 32 (drawIndex items zipf draw) ||| if roll.toNat % 100 < setPct then opSet else 0#32) ::
        drawOps items setPct zipf n state

def makeOps (nOps items setPct : ℕ) (zipf : Option (BitVec 64 → ℕ → Bool)) (seed : BitVec 64) :
    Option (List (BitVec 32)) :=
  if items = 0 then none else some (drawOps items setPct zipf nOps seed)

def opCall (granted : Bool) (ks vs : Rows) (valueCap : ℕ) (op : BitVec 32) : Option KvOp := do
  let idx := (op &&& opIdx).toNat
  let key ← rowAt ks idx
  if op &&& opSet ≠ 0#32 then
    let value ← rowAt vs idx
    some (.set granted key ⟨value, tagFlags, tagExp⟩)
  else some (.get key valueCap)

/-- The sum and the buffer of `run_ops`. -/
structure Sum where
  acc : BitVec 64
  buf : List UInt8

def Sum.take (s : Sum) : KvReply → Sum
  | .got got =>
      let buf := copyInto s.buf got
      if got.code = .ok then ⟨s.acc + readWord buf, buf⟩ else ⟨s.acc, buf⟩
  | .code _ => s

def runOp (E : Env) (granted : ℕ → Bool) (ks vs : Rows) (valueCap : ℕ) (ops : List (BitVec 32))
    (i : ℕ) (s : Kv × Sum) : Option (Kv × Sum) := do
  let op ← ops[i]?
  let call ← opCall (granted i) ks vs valueCap op
  let (kv, reply) ← runKvOp E s.1 call
  some (kv, s.2.take reply)

/-- `run_ops` over the ops from `first` on and before `last`. -/
def runOps (E : Env) (granted : ℕ → Bool) (ks vs : Rows) (valueCap : ℕ) (ops : List (BitVec 32))
    (first last : ℕ) (kv : Kv) (buf : List UInt8) : Option (Kv × Sum) :=
  countTo (last - first) (fun k => runOp E granted ks vs valueCap ops (first + k)) (kv, ⟨0, buf⟩)

/-- `bench_mixed` with one stream after the other. The first component tells which arrays are
granted. -/
def benchMixed (E : Env) (ks vs : Rows) (valueCap : ℕ) (buf : List UInt8) :
    List ((ℕ → Bool) × List (BitVec 32)) → Kv → Option Kv
  | [], kv => some kv
  | (granted, ops) :: rest, kv => do
      let (kv, _) ← runOps E granted ks vs valueCap ops 0 ops.length kv buf
      benchMixed E ks vs valueCap buf rest kv

/-- The ops of `mt_worker` in its order: all of them, from its offset on. -/
def workerOps (ops : List (BitVec 32)) (offset : ℕ) : List (BitVec 32) :=
  ops.drop offset ++ ops.take offset

/-- The misses of `bench_get_hit`, or the hits of `bench_get_miss`. -/
def countGets (E : Env) (kv : Kv) (ks : Rows) (valueCap : ℕ) (counted : KvError → Bool) :
    Option ℕ :=
  countTo ks.count (fun i n => do
    let key ← rowAt ks i
    let got ← kvGet E kv key valueCap
    some (if counted got.code then n + 1 else n)) 0

def benchGetHit (E : Env) (kv : Kv) (ks : Rows) (valueCap : ℕ) : Option ℕ :=
  countGets E kv ks valueCap (· ≠ .ok)

def benchGetMiss (E : Env) (kv : Kv) (absent : Rows) (valueCap : ℕ) : Option ℕ :=
  countGets E kv absent valueCap (· = .ok)

/-- The two buffers of `bench_get_chain`, and the bytes that `key` points to. -/
structure Chain where
  buf : ℕ → List UInt8
  key : List UInt8
  steps : ℕ

/-- The rounds of the chain from round `i` on. -/
def chainFrom (E : Env) (kv : Kv) (ks : Rows) (valueCap : ℕ) : ℕ → ℕ → Chain → Option Chain
  | 0, _, c => some c
  | left + 1, i, c => do
      let got ← kvGet E kv c.key valueCap
      let dst := copyInto (c.buf (i % 2)) got
      let buf := Function.update c.buf (i % 2) dst
      if got.code ≠ .ok then some { c with buf := buf }
      else chainFrom E kv ks valueCap left (i + 1) ⟨buf, dst.take ks.len, c.steps + 1⟩

/-- The first `rounds` rounds of `bench_get_chain`, which makes one for each key. -/
def benchGetChain (E : Env) (kv : Kv) (ks : Rows) (valueCap : ℕ) (buf : ℕ → List UInt8)
    (rounds : ℕ) : Option Chain := do
  let key ← rowAt ks 0
  chainFrom E kv ks valueCap rounds 0 ⟨buf, key, 0⟩

def deleteRow (E : Env) (ks : Rows) (i : ℕ) (s : Kv × ℕ) : Option (Kv × ℕ) := do
  let key ← rowAt ks i
  let (kv, code) ← kvDelete E s.1 key
  some (kv, if code ≠ .ok then s.2 + 1 else s.2)

/-- The store and the misses of `bench_delete`. -/
def benchDelete (E : Env) (kv : Kv) (ks : Rows) : Option (Kv × ℕ) :=
  countTo ks.count (deleteRow E ks) (kv, 0)

def churnRow (E : Env) (granted : ℕ → Bool) (ks vs fresh : Rows) (k : ℕ) (s : Kv × ℕ) :
    Option (Kv × ℕ) := do
  let (kv, lost) ← deleteRow E ks k s
  let kv ← setRow E (granted k) fresh vs k k kv
  some (kv, lost)

/-- The store and the lost keys of `bench_churn`. -/
def benchChurn (E : Env) (granted : ℕ → Bool) (kv : Kv) (ks vs fresh : Rows) : Option (Kv × ℕ) :=
  countTo fresh.count (churnRow E granted ks vs fresh) (kv, 0)

end Kvx.KvBench
