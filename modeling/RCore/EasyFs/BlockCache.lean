import RCore.EasyFs.Bitmap
import RCore.Lib.Comp

/-!
# The block cache

The model of `easy-fs/src/block_cache.rs`. One global manager caches the blocks of all devices in a
queue of at most sixteen entries. An `Arc<Mutex<BlockCache>>` is an index into `arena`, the list of
all block caches made so far; its strong count is the number of queue entries and live handles with
that index. A block cache is written back when its last `Arc` is dropped, by the destructor, and by
`block_cache_sync_all`.

`δ` is the type of the devices. A caller names the handles it holds by the device it works on and a
number of its own.
-/

namespace RCore.EasyFs

/-- `BLOCK_CACHE_MAX_NUM`. -/
def blockCacheMaxNum : Nat := 16

/-- `BlockCache`. -/
structure BlockCache (δ : Type) where
  cache : Block
  blockId : Nat
  blockDevice : δ
  modified : Bool

/-- The devices, the block caches, the queue of the manager and the handles its callers hold. -/
structure CacheState (δ : Type) where
  devices : δ → Nat → Block
  arena : List (BlockCache δ)
  /-- Block number and `Arc`. -/
  queue : List (Nat × Nat)
  /-- Name and `Arc`. -/
  handles : List ((δ × Nat) × Nat)

/-- `Vec::swap_remove`, without the element it returns. -/
def swapRemove {α : Type} (l : List α) (idx : Nat) : List α :=
  match l.getLast? with
  | some last => (l.set idx last).dropLast
  | none => l

namespace CacheState

variable {δ : Type} [DecidableEq δ]

/-- No block is cached. -/
def empty (devices : δ → Nat → Block) : CacheState δ := ⟨devices, [], [], []⟩

/-- `Arc::strong_count`. -/
def strongCount (s : CacheState δ) (arc : Nat) : Nat :=
  (s.queue.map Prod.snd).count arc + (s.handles.map Prod.snd).count arc

/-- `write_block` on a device. -/
def writeBlock (device : δ) (blockId : Nat) (b : Block) (devices : δ → Nat → Block) :
    δ → Nat → Block :=
  Function.update devices device (Function.update (devices device) blockId b)

/-- The block cache behind an `Arc`. -/
def deref (arc : Nat) : Comp (CacheState δ) (BlockCache δ) := do
  let s ← Comp.get
  Comp.unwrap s.arena[arc]?

/-- Change the block cache behind an `Arc`. -/
def assign (arc : Nat) (c : BlockCache δ) : Comp (CacheState δ) Unit :=
  Comp.modify fun s => { s with arena := s.arena.set arc c }

/-- `BlockCache::new`: the new `Arc`. -/
def new (blockId : Nat) (blockDevice : δ) : Comp (CacheState δ) Nat := do
  let s ← Comp.get
  let c : BlockCache δ :=
    { cache := s.devices blockDevice blockId, blockId, blockDevice, modified := false }
  Comp.modify fun s => { s with arena := s.arena ++ [c] }
  return s.arena.length

/-- `BlockCache::sync`. -/
def sync (arc : Nat) : Comp (CacheState δ) Unit := do
  let c ← deref arc
  if c.modified = true then do
    assign arc { c with modified := false }
    Comp.modify fun s => { s with devices := writeBlock c.blockDevice c.blockId c.cache s.devices }
  else
    return ()

/-- The drop of an `Arc` that has been taken out of the queue or the handles: if it was the last one,
the block cache is dropped, which writes it back. -/
def dropArc (arc : Nat) : Comp (CacheState δ) Unit := do
  let s ← Comp.get
  if s.strongCount arc = 0 then sync arc else return ()

/-- The part of `get_block_cache` that makes room in a full queue: the first entry that nobody else
refers to goes. -/
def makeRoom : Comp (CacheState δ) Unit := do
  let s ← Comp.get
  if s.queue.length = blockCacheMaxNum then do
    -- there is no such entry: "Run out of BlockCache!"
    let idx ← Comp.unwrap (s.queue.findIdx? fun pair => s.strongCount pair.2 = 1)
    let pair ← Comp.unwrap s.queue[idx]?
    Comp.modify fun s => { s with queue := swapRemove s.queue idx }
    dropArc pair.2
  else
    return ()

/-- `BlockCacheManager::get_block_cache`: the `Arc` it returns. -/
def getBlockCache (blockId : Nat) (blockDevice : δ) : Comp (CacheState δ) Nat := do
  let s ← Comp.get
  match s.queue.find? fun pair => pair.1 = blockId with
  | some pair => return pair.2
  | none => do
    makeRoom
    let arc ← new blockId blockDevice
    Comp.modify fun s => { s with queue := s.queue ++ [(blockId, arc)] }
    return arc

/-- `sync` on every `Arc` of a list. -/
def syncEach : List Nat → Comp (CacheState δ) Unit
  | [] => return ()
  | arc :: arcs => do
    sync arc
    syncEach arcs

/-- `block_cache_sync_all`. -/
def blockCacheSyncAll : Comp (CacheState δ) Unit := do
  let s ← Comp.get
  syncEach (s.queue.map Prod.snd)

/-! ## Callers -/

/-- The `Arc` of a handle. -/
def lookup (name : δ × Nat) : Comp (CacheState δ) Nat := do
  let s ← Comp.get
  Comp.unwrap (s.handles.lookup name)

/-- Call `get_block_cache` and keep the result under a name. -/
def takeHandle (name : δ × Nat) (blockId : Nat) : Comp (CacheState δ) Unit := do
  let arc ← getBlockCache blockId name.1
  Comp.modify fun s => { s with handles := (name, arc) :: s.handles }

/-- Drop a handle. -/
def dropHandle (name : δ × Nat) : Comp (CacheState δ) Unit := do
  let arc ← lookup name
  Comp.modify fun s => { s with handles := s.handles.eraseP fun h => h.1 = name }
  dropArc arc

/-- `BlockCache::read` of `size` bytes. -/
def read (name : δ × Nat) (offset size : Nat) : Comp (CacheState δ) (List UInt8) := do
  let arc ← lookup name
  let c ← deref arc
  Comp.assert (offset + size ≤ blockSz ∧ offset < blockSz)
  return c.cache.slice offset size

/-- `BlockCache::modify` of `size` bytes by `f`: the bytes that were there. -/
def modify (name : δ × Nat) (offset size : Nat) (f : List UInt8 → List UInt8) :
    Comp (CacheState δ) (List UInt8) := do
  let arc ← lookup name
  let c ← deref arc
  Comp.assert (offset + size ≤ blockSz ∧ offset < blockSz)
  let old := c.cache.slice offset size
  assign arc { c with cache := c.cache.splice offset ((f old).take size), modified := true }
  return old

end CacheState

/-- What a caller can do. -/
inductive CacheOp where
  /-- Take a handle of a block and name it. -/
  | get (name blockId : Nat)
  | read (name offset size : Nat)
  | modify (name offset size : Nat) (f : List UInt8 → List UInt8)
  | drop (name : Nat)
  | syncAll

namespace CacheState

variable {δ : Type} [DecidableEq δ]

/-- One operation of a caller on the device `d`, with the bytes it sees. -/
def step (d : δ) : CacheOp → Comp (CacheState δ) (List UInt8)
  | .get name blockId => do
    takeHandle (d, name) blockId
    return []
  | .read name offset size => read (d, name) offset size
  | .modify name offset size f => modify (d, name) offset size f
  | .drop name => do
    dropHandle (d, name)
    return []
  | .syncAll => do
    blockCacheSyncAll
    return []

/-- A sequence of operations, each on a device, with the bytes each of them sees. -/
def steps : List (δ × CacheOp) → Comp (CacheState δ) (List (List UInt8))
  | [] => return []
  | (d, op) :: ops => do
    let r ← step d op
    let rs ← steps ops
    return r :: rs

end CacheState

/-! ## Routines of the file system on the cache -/

/-- Run a file-system routine through the cache of its device. The handle of a block is named by the
block's number. -/
def cached {α : Type} : EfsM α → Comp (CacheState Unit) α
  | .ret a => return a
  | .abort => Comp.panic
  | .acquire i k => do
    CacheState.takeHandle ((), i) i
    let arc ← CacheState.lookup ((), i)
    let c ← CacheState.deref arc
    cached (k c.cache)
  | .store i b k => do
    let arc ← CacheState.lookup ((), i)
    let c ← CacheState.deref arc
    CacheState.assign arc { c with cache := b, modified := true }
    cached k
  | .release i k => do
    CacheState.dropHandle ((), i)
    cached k
  | .sync k => do
    CacheState.blockCacheSyncAll
    cached k

end RCore.EasyFs
