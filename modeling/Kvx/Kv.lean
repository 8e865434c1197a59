import Kvx.Hole
import Kvx.Item

/-!
# The key-value store

A shard has a table of items and an allocator for them; the low byte of the hash of a
key names its shard. A call that faults has the result `none`.
-/
namespace Kvx.Store

open Kvx.Lib Kvx.Hashtable Kvx.SlabAlloc Kvx.Item

def kvShardTableInitialSize : ℕ := 128

inductive KvError
  | ok
  | notFound
  | noMem
  | valueLenExceedsDstBufferSize
  deriving DecidableEq, Repr

structure KvShard where
  table : Table Ptr
  allocator : SlabAllocator

/-- The result of `kv_get`, and what it wrote through its five pointers. -/
structure KvGot where
  code : KvError
  valueLenOut : Option ℕ
  flagsOut : Option UInt16
  expOut : Option UInt32
  dst : Option (List UInt8)
  deriving DecidableEq, Repr

/-- The key of an item as the table compares it. The keys of stored items can be read. -/
def readKey (alloc : SlabAllocator) (item : Ptr) : List UInt8 := (itemKey alloc item).getD []

/-- `none`: the table was not allocated. -/
def kvShardInit (E : Env) (granted : Bool) (leftover : ℕ) (memory : Ptr → Cell) :
    Option KvShard := do
  let table ← hashtableInit E granted leftover kvShardTableInitialSize
  some ⟨table, slabAllocatorInit memory⟩

def kvShardGet (shard : KvShard) (hash : BitVec 64) (key : List UInt8) (dstLen : ℕ) :
    Option KvGot := do
  match ← hashtableGet (readKey shard.allocator) shard.table hash key with
  | none => some ⟨.notFound, none, none, none, none⟩
  | some item =>
      let valueLen ← itemValueLen shard.allocator item
      if dstLen < valueLen then
        some ⟨.valueLenExceedsDstBufferSize, some valueLen, none, none, none⟩
      else
        let flags ← itemFlags shard.allocator item
        let exp ← itemExpireAt shard.allocator item
        let value ← itemValue shard.allocator item
        some ⟨.ok, some valueLen, some flags, some exp, some value⟩

/-- `kv_shard_set` once the slot holds an item. -/
def kvShardStore (shard : KvShard) (slot : SlotRef) (item : Ptr) (dataLen : ℕ)
    (key : List UInt8) (e : Entry) : Option (KvShard × KvError) := do
  let dataSize ← itemDataSize shard.allocator item
  if dataSize < dataLen then
    let (alloc, fresh) ← slabAllocatorAllocItem shard.allocator dataLen
    match fresh with
    | none => some (⟨shard.table, alloc⟩, .noMem)
    | some fresh =>
        let alloc ← slabAllocatorFreeItem alloc item
        let alloc ← fillItem alloc fresh key e
        some (⟨shard.table.writeSlot slot (some fresh), alloc⟩, .ok)
  else
    let alloc ← fillItem shard.allocator item key e
    some (⟨shard.table, alloc⟩, .ok)

def kvShardSet (E : Env) (granted : Bool) (shard : KvShard) (hash : BitVec 64)
    (key : List UInt8) (e : Entry) : Option (KvShard × KvError) := do
  let dataLen := Pages.sizeT (key.length + e.value.length)
  let (table, slot) ←
    hashtableSet E (readKey shard.allocator) granted shard.table hash key
  match ← table.readSlot slot with
  | none =>
      let (alloc, item) ← slabAllocatorAllocItem shard.allocator dataLen
      match item with
      | none =>
          let (table, _) ← hashtableDelete E (readKey alloc) table hash key
          some (⟨table, alloc⟩, .noMem)
      | some item =>
          kvShardStore ⟨table.writeSlot slot (some item), alloc⟩ slot item dataLen key e
  | some item => kvShardStore ⟨table, shard.allocator⟩ slot item dataLen key e

def kvShardDelete (E : Env) (shard : KvShard) (hash : BitVec 64) (key : List UInt8) :
    Option (KvShard × KvError) := do
  let (table, item) ← hashtableDelete E (readKey shard.allocator) shard.table hash key
  match item with
  | none => some (⟨table, shard.allocator⟩, .notFound)
  | some item =>
      let alloc ← slabAllocatorFreeItem shard.allocator item
      some (⟨table, alloc⟩, .ok)

structure Kv where
  shards : Fin 256 → KvShard

def shardIdx (hash : BitVec 64) : Fin 256 := ((hash &&& 255#64).setWidth 8).toFin

/-- What `malloc` left in its memory may differ from shard to shard. -/
def kvInit (E : Env) (leftover : Fin 256 → ℕ) (memory : Fin 256 → Ptr → Cell) : Option Kv :=
  if h : ∀ i, (kvShardInit E true (leftover i) (memory i)).isSome then
    some ⟨fun i => (kvShardInit E true (leftover i) (memory i)).get (h i)⟩
  else none

def Kv.setShard (kv : Kv) (idx : Fin 256) (shard : KvShard) : Kv :=
  ⟨Function.update kv.shards idx shard⟩

def kvGet (E : Env) (kv : Kv) (key : List UInt8) (dstLen : ℕ) : Option KvGot :=
  let hash := E.xxh3 key
  kvShardGet (kv.shards (shardIdx hash)) hash key dstLen

def kvSet (E : Env) (granted : Bool) (kv : Kv) (key : List UInt8) (e : Entry) :
    Option (Kv × KvError) := do
  let hash := E.xxh3 key
  let (shard, code) ← kvShardSet E granted (kv.shards (shardIdx hash)) hash key e
  some (kv.setShard (shardIdx hash) shard, code)

def kvDelete (E : Env) (kv : Kv) (key : List UInt8) : Option (Kv × KvError) := do
  let hash := E.xxh3 key
  let (shard, code) ← kvShardDelete E (kv.shards (shardIdx hash)) hash key
  some (kv.setShard (shardIdx hash) shard, code)

end Kvx.Store
