import KernSql.Buffer.PageStore
import KernSql.Buffer.Replacer
import KernSql.Storage.DiskManager

/- The buffer pool manager run by one thread
   (src/buffer/buffer_pool_manager.cpp, frame.hpp, page_guard.cpp, freelist.hpp).

   With one thread a lock is never contended, so the locks leave no trace here;
   what is left of them are the waits. A wait for something only this thread
   could do (a latch one of its own guards holds, a load to finish) never ends:
   it is a run gone wrong. So is a failed `assert` in a debug build, and the
   `abort` of a page table asked to map a page twice.

   The two retry loops of the code (a fetch that lost its race, a victim that was
   declined) are bounded by `rounds`; one round is all a single thread needs. -/
namespace KernSql

inductive FrameState where
  | free | loading | resident | failed
  deriving DecidableEq, Repr

structure Frame where
  data : Page := zeroPage
  state : FrameState := .free
  pageId : PageId := invalidPage
  pinCount : Int := 0
  dirtyEpoch : Nat := 0
  flushedEpoch : Nat := 0

namespace Frame

def markDirty (fr : Frame) : Frame := { fr with dirtyEpoch := fr.dirtyEpoch + 1 }

def isDirty (fr : Frame) : Bool := fr.flushedEpoch < fr.dirtyEpoch

def markFlushed (fr : Frame) (observed : Nat) : Frame :=
  if fr.flushedEpoch < observed then { fr with flushedEpoch := observed } else fr

def resetEpochs (fr : Frame) : Frame := { fr with dirtyEpoch := 0, flushedEpoch := 0 }

end Frame

/-- A guard: the frame it pins, the page it was asked for, and the latch it holds. -/
structure Held where
  frame : Nat
  page : PageId
  latch : Latch
  deriving DecidableEq, Repr

structure BufferPool where
  capacity : Nat
  frames : Nat → Frame
  table : PageId → Option Nat
  /-- The free frames, the one to hand out next first. -/
  freeList : List Nat
  replacer : Replacer
  disk : DiskManager
  /-- The guards alive. -/
  held : List Held
  isShutdown : Bool

/-- The build, the bound on retries, and the system calls that fail, each with its reason. -/
structure PoolConfig where
  debug : Bool
  rounds : Nat
  ioError : Nat → Option String
  path : String := ""

/-- The disk of a pool: calls fail or are done, and the process lives on. -/
def PoolConfig.disk (cfg : PoolConfig) : DiskEnv where
  fate i := match cfg.ioError i with
    | none => .done
    | some reason => .failed reason
  path := cfg.path

/-- What a write guard lets its owner change. -/
inductive Edit where
  | body (b : Body)
  | pageType (type : PageType)
  | flags (flags : UInt8)
  | nextPageId (next : PageId)
  | prevPageId (prev : PageId)

def Edit.apply (pg : Page) : Edit → Page
  | .body b => { pg with body := b }
  | .pageType type => { pg with header := { pg.header with pageType := type } }
  | .flags bits => { pg with header := { pg.header with flags := bits } }
  | .nextPageId next => { pg with header := { pg.header with nextPageId := next } }
  | .prevPageId prev => { pg with header := { pg.header with prevPageId := prev } }

abbrev BufferM := Exec BufferPool Status

namespace BufferPool
open Exec

/-- A pool of `capacity` free frames over an open disk. -/
def new (disk : DiskManager) (capacity : Nat) : BufferPool where
  capacity := capacity
  frames _ := {}
  table _ := none
  freeList := (List.range capacity).reverse
  replacer := Replacer.new capacity
  disk := disk
  held := []
  isShutdown := false

def setFrame (b : BufferPool) (f : Nat) (fr : Frame) : BufferPool :=
  { b with frames := Function.update b.frames f fr }

/-- Would a latch on frame `f` wait for one of this thread's own guards? -/
def blocks (b : BufferPool) (latch : Latch) (f : Nat) : Bool :=
  b.held.any fun h => h.frame = f ∧ (latch = .write ∨ h.latch = .write)

section Calls
variable (cfg : PoolConfig)

/-- `assert`, which only a debug build checks. -/
def asserts (c : Prop) [Decidable c] : BufferM Unit := check (cfg.debug = true → c)

def onDisk {α : Type} (m : DiskM α) : BufferM α := fun b =>
  match m b.disk with
  | none => none
  | some (.ok a, d) => some (.ok a, { b with disk := d })
  | some (.error (.status st), d) => some (.error st, { b with disk := d })
  | some (.error .stopped, _) => none

/-- A result handed on after some clean-up. -/
def handOn {α : Type} : Except Status α → BufferM α
  | .ok a => pure a
  | .error e => fail e

def frameAt (f : Nat) : BufferM Frame := do
  let b ← get
  asserts cfg (f < b.capacity)
  pure (b.frames f)

def updateFrame (f : Nat) (change : Frame → Frame) : BufferM Unit :=
  modify fun b => b.setFrame f (change (b.frames f))

def acquireLatch (latch : Latch) (f : Nat) : BufferM Unit := do
  let b ← get
  check (b.blocks latch f = false)

def recordAccess (f : Nat) : BufferM Unit := modify fun b => { b with replacer := b.replacer.recordAccess f }

def setEvictable (f : Nat) (evictable : Bool) : BufferM Unit :=
  modify fun b => { b with replacer := b.replacer.setEvictable f evictable }

def push (f : Nat) : BufferM Unit := modify fun b => { b with freeList := f :: b.freeList }

def tryPop : BufferM (Option Nat) := fun b =>
  match b.freeList with
  | [] => some (.ok none, b)
  | f :: rest => some (.ok (some f), { b with freeList := rest })

def evict : BufferM (Option Nat) := fun b =>
  b.replacer.evict.map fun (victim, r) => (.ok victim, { b with replacer := r })

def erase (p : PageId) : BufferM Unit := modify fun b => { b with table := Function.update b.table p none }

def unpinPage (f : Nat) : BufferM Unit := do
  let fr ← frameAt cfg f
  asserts cfg (0 < fr.pinCount)
  updateFrame f fun fr => { fr with pinCount := fr.pinCount - 1 }
  if fr.pinCount = 1 ∧ fr.state = .resident then setEvictable f true else pure ()

def flushFrame (f : Nat) (p : PageId) : BufferM Unit := do
  let fr ← frameAt cfg f
  if fr.isDirty = false then pure ()
  else do
    acquireLatch .read f
    let observed := fr.dirtyEpoch
    onDisk (DiskManager.writePage cfg.disk p fr.data)
    updateFrame f (·.markFlushed observed)

/-- Pin a frame, flush it, unpin it. -/
def flushPinned (f : Nat) (p : PageId) : BufferM (Except Status Unit) := do
  updateFrame f fun fr => { fr with pinCount := fr.pinCount + 1 }
  let st ← attempt (flushFrame cfg f p)
  unpinPage cfg f
  pure st

def flushPage (p : PageId) : BufferM Unit := do
  let b ← get
  match b.table p with
  | none => pure ()
  | some f => do
    let fr ← frameAt cfg f
    if fr.state ≠ .resident then pure ()
    else do
      let st ← flushPinned cfg f p
      handOn st

/-- The loop of `FlushAllPages`: the first error, having attempted the rest. -/
def flushEach : List Nat → BufferM (Except Status Unit)
  | [] => pure (.ok ())
  | f :: fs => do
    let fr ← frameAt cfg f
    if fr.state ≠ .resident then flushEach fs
    else do
      let st ← flushPinned cfg f fr.pageId
      let rest ← flushEach fs
      match st with
      | .ok () => pure rest
      | .error e => pure (.error e)

def flushAllPages : BufferM Unit := do
  let b ← get
  let st ← flushEach cfg (List.range b.capacity)
  handOn st

def shutdown : BufferM Unit := do
  let b ← get
  if b.isShutdown then pure ()
  else do
    modify ({ · with isShutdown := true })
    asserts cfg (∀ f < b.capacity, (b.frames f).pinCount = 0 ∧ (b.frames f).state ≠ .loading)
    let st ← attempt (flushAllPages cfg)
    let synced ← attempt (onDisk (DiskManager.sync cfg.disk))
    match st with
    | .ok () => handOn synced
    | .error e => fail e

/-- Unmap a frame and make it free; its pin is the caller's business. -/
def vacate (f : Nat) (p : PageId) : BufferM Unit := do
  erase p
  updateFrame f fun fr => { fr.resetEpochs with pageId := invalidPage, state := .free }

/-- The dirty victim of a reclaim, already pinned: written back and vacated, or lost. -/
def reclaimDirty (v : Nat) (peeked : PageId) : BufferM Bool := do
  let st ← attempt (flushFrame cfg v peeked)
  match st with
  | .error e => do
    unpinPage cfg v
    fail e
  | .ok () => do
    let fr ← frameAt cfg v
    if fr.state = .resident ∧ fr.pageId = peeked ∧ fr.pinCount = 1 ∧ fr.isDirty = false then do
      let b ← get
      asserts cfg (b.table peeked = some v)
      vacate v peeked
      updateFrame v fun fr => { fr with pinCount := 0 }
      pure true
    else do
      unpinPage cfg v
      pure false

/-- One victim: vacated, or declined. -/
def reclaimVictim (v : Nat) : BufferM Bool := do
  let fr ← frameAt cfg v
  if fr.state ≠ .resident ∨ fr.pinCount ≠ 0 then pure false
  else do
    let peeked := fr.pageId
    let fr ← frameAt cfg v
    if fr.state ≠ .resident ∨ fr.pinCount ≠ 0 ∨ fr.pageId ≠ peeked then pure false
    else do
      let b ← get
      asserts cfg (b.table peeked = some v)
      if fr.isDirty = false then do
        vacate v peeked
        pure true
      else do
        updateFrame v fun fr => { fr with pinCount := fr.pinCount + 1 }
        reclaimDirty cfg v peeked

def reclaimFrame : Nat → BufferM Nat
  | 0 => lift none
  | n + 1 => do
    let victim ← evict
    match victim with
    | none => fail ⟨.bufferPoolFull, "buffer full"⟩
    | some v => do
      let done ← reclaimVictim cfg v
      if done = true then pure v else reclaimFrame n

def acquireFrame : BufferM Nat := do
  let popped ← tryPop
  match popped with
  | some f => pure f
  | none => reclaimFrame cfg (cfg.rounds + 1)

def abandonLoad (f : Nat) (p : PageId) : BufferM Unit := do
  erase p
  updateFrame f fun fr => { fr with state := .failed }
  let fr ← frameAt cfg f
  asserts cfg (1 ≤ fr.pageId)
  check (fr.pinCount = 1)
  updateFrame f fun fr => { fr.resetEpochs with pageId := invalidPage, state := .free, pinCount := 0 }
  push f

def badPage (p : PageId) (h : PageHeader) : Status :=
  let id := p.toInt
  let claimed := h.pageId.toInt
  if h.pageType = .free then ⟨.invalidArgument, s!"page {id} is not allocated"⟩
  else ⟨.corruption, s!"page {id} header claims to be page {claimed}"⟩

/-- The miss path from the publication of the mapping on. -/
def load (f : Nat) (p : PageId) : BufferM Nat := do
  modify fun b => { b with table := Function.update b.table p (some f) }
  updateFrame f fun fr => { fr.resetEpochs with pageId := p, state := .loading, pinCount := 1 }
  let r ← attempt (onDisk (DiskManager.readPage cfg.disk p))
  match r with
  | .error e => do
    abandonLoad cfg f p
    fail e
  | .ok pg => do
    updateFrame f fun fr => { fr with data := pg }
    if pg.header.pageType = .free ∨ pg.header.pageId ≠ p then do
      abandonLoad cfg f p
      fail (badPage p pg.header)
    else do
      updateFrame f fun fr => { fr with state := .resident }
      recordAccess f
      pure f

/-- The hit path. -/
def hit (f : Nat) : BufferM Nat := do
  let fr ← frameAt cfg f
  updateFrame f fun fr => { fr with pinCount := fr.pinCount + 1 }
  check (fr.state ≠ .loading)
  asserts cfg (fr.state = .resident ∨ fr.state = .failed)
  if fr.state = .failed then do
    unpinPage cfg f
    fail ⟨.ioError, s!"unable to fetch frame {f}"⟩
  else do
    recordAccess f
    if fr.pinCount = 0 then setEvictable f false else pure ()
    pure f

def fetchLoop (p : PageId) : Nat → BufferM Nat
  | 0 => lift none
  | n + 1 => do
    let b ← get
    match b.table p with
    | some f => hit cfg f
    | none => do
      let f ← acquireFrame cfg
      let b ← get
      match b.table p with
      | some _ => do
        push f
        fetchLoop p n
      | none => load cfg f p

def fetchFrame (p : PageId) : BufferM Nat :=
  if p = metaPageId ∨ p = invalidPage then fail ⟨.invalidArgument, "invalid page_id"⟩
  else fetchLoop cfg p (cfg.rounds + 1)

/-- `FetchPageRead` and `FetchPageWrite`: the guard they return. -/
def fetchPage (latch : Latch) (p : PageId) : BufferM Held := do
  let f ← fetchFrame cfg p
  acquireLatch latch f
  modify fun b => { b with held := ⟨f, p, latch⟩ :: b.held }
  pure ⟨f, p, latch⟩

def newPage : BufferM Held := do
  let f ← acquireFrame cfg
  let r ← attempt (onDisk (DiskManager.allocatePage cfg.disk))
  match r with
  | .error e => do
    push f
    fail e
  | .ok p => do
    updateFrame f fun fr => { fr with pageId := p, state := .resident, pinCount := 1 }
    updateFrame f fun fr => { fr with data := blankPage p }.resetEpochs
    let b ← get
    check (b.table p = none)
    modify fun b => { b with table := Function.update b.table p (some f) }
    recordAccess f
    acquireLatch .write f
    modify fun b => { b with held := ⟨f, p, .write⟩ :: b.held }
    pure ⟨f, p, .write⟩

def deletePage (p : PageId) : BufferM Unit := do
  let id := p.toInt
  if p = metaPageId ∨ p = catalogRootPageId then
    fail ⟨.invalidArgument, s!"page {id} is reserved and cannot be deleted"⟩
  else do
    let b ← get
    match b.table p with
    | none => onDisk (DiskManager.deallocatePage cfg.disk p)
    | some f => do
      let fr ← frameAt cfg f
      let pins := fr.pinCount
      if fr.pinCount ≠ 0 then
        fail ⟨.invalidArgument, s!"page {id} is pinned ({pins} holders) and cannot be deleted"⟩
      else do
        asserts cfg (fr.state = .resident)
        vacate f p
        setEvictable f false
        let st ← attempt (onDisk (DiskManager.deallocatePage cfg.disk p))
        push f
        handOn st

/-! Guards. -/

/-- The bytes a guard shows. -/
def show_ (h : Held) : BufferM Page := do
  let b ← get
  pure (b.frames h.frame).data

def write (h : Held) (e : Edit) : BufferM Unit := updateFrame h.frame fun fr => { fr with data := e.apply fr.data }

/-- `Drop`: a write guard marks its frame dirty, then the latch goes, then the pin. -/
def drop (h : Held) : BufferM Unit := do
  if h.latch = .write then updateFrame h.frame Frame.markDirty else pure ()
  modify fun b => { b with held := b.held.erase h }
  unpinPage cfg h.frame

end Calls
end BufferPool
end KernSql
