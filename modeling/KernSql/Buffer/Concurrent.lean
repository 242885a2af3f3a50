import KernSql.Lib.Machine
import KernSql.Buffer.BufferPool

/- The buffer pool manager run by any number of threads
   (src/buffer/buffer_pool_manager.cpp, page_table.hpp, page_guard.cpp).

   A call in progress and a live guard are both an activity: a program counter
   with its local variables. One step of an activity is one critical section, one
   replacer, free-list or disk call, or one access to the epochs; `advance` is
   what the code does in it. A thread may hold many guards and makes one call at a
   time, so a thread is some of the activities, and any activities can be spread
   over threads.

   Only two things make an activity wait here. `DeletePage` keeps its page-table shard locked
   from one step to the next, and a content latch is kept by a guard; who holds
   them is read off the other activities (`shardFree`, `latchFree`). A condition
   variable is a step that is not enabled yet. Assertions are compiled out. The
   abort of a page table asked to map a page twice stops everything.

   `owned` and `freed` are not in the code. They record the ids that `NewPage` has
   published and no `DeletePage` has freed, and the ids that `DeletePage` has
   freed and `AllocatePage` has not handed out again. -/
namespace KernSql.Concurrent
open DiskManager

/-- What all threads share. -/
structure Shared where
  capacity : Nat
  frames : Nat → Frame
  table : PageId → Option Nat
  freeList : List Nat
  replacer : Replacer
  disk : DiskManager
  aborted : Bool
  owned : List PageId
  freed : List PageId

/-- What a frame is acquired for. -/
inductive Goal where
  | fetch (p : PageId) (latch : Latch)
  | newPage
  deriving DecidableEq, Repr

/-- Where a call goes on after a flush or an unpin: it returns, it is the next round of `FlushAllPages`, or
the next of `ReclaimFrame`. -/
inductive After where
  | finish
  | sweep (next : Nat)
  | evict (goal : Goal)
  deriving DecidableEq, Repr

inductive Activity where
  | done
  -- `FetchFrame`: the lookup, the hit path, and the latch
  | lookup (p : PageId) (latch : Latch)
  | hitWait (p : PageId) (latch : Latch) (f : Nat) (fromZero : Bool)
  | recordAccess (p : PageId) (latch : Latch) (f : Nat) (fromZero : Bool)
  | setPinned (p : PageId) (latch : Latch) (f : Nat)
  | acquireLatch (p : PageId) (latch : Latch) (f : Nat)
  | guard (p : PageId) (latch : Latch) (f : Nat)
  | unpin (f : Nat) (next : After)
  -- `AcquireFrame` and `ReclaimFrame`
  | tryPop (goal : Goal)
  | evict (goal : Goal)
  | peek (goal : Goal) (victim : Nat)
  | validate (goal : Goal) (victim : Nat) (peeked : PageId)
  | revalidate (goal : Goal) (victim : Nat) (peeked : PageId)
  | acquired (goal : Goal) (f : Nat)
  -- `FlushFrame`, for a call that has pinned the frame
  | isDirty (f : Nat) (p : PageId) (next : After)
  | writePage (f : Nat) (p : PageId) (next : After)
  | markFlushed (f : Nat) (p : PageId) (observed : Nat) (next : After)
  -- the miss path
  | readPage (p : PageId) (latch : Latch) (f : Nat)
  | publish (p : PageId) (latch : Latch) (f : Nat)
  | abandonErase (p : PageId) (f : Nat)
  | abandonFail (p : PageId) (f : Nat)
  | abandonWait (f : Nat)
  | push (f : Nat)
  -- `NewPage`
  | stamp (f : Nat) (p : PageId)
  | fill (f : Nat) (p : PageId)
  | insert (f : Nat) (p : PageId)
  -- `FlushPage` and `FlushAllPages`
  | flushPage (p : PageId)
  | flushFrom (f : Nat)
  -- `DeletePage`
  | deletePage (p : PageId)
  | deleteClear (p : PageId) (f : Nat)
  | deallocate (p : PageId) (f : Option Nat)
  | deletePush (p : PageId) (f : Nat)
  deriving DecidableEq, Repr

/-- The frame an activity has pinned and not unpinned yet. -/
def Activity.pinOn : Activity → Option Nat
  | .hitWait _ _ f _ | .recordAccess _ _ f _ | .setPinned _ _ f | .acquireLatch _ _ f | .guard _ _ f | .unpin f _
  | .isDirty f _ _ | .writePage f _ _ | .markFlushed f _ _ _ | .revalidate _ f _
  | .readPage _ _ f | .publish _ _ f | .abandonErase _ f | .abandonFail _ f | .abandonWait f
  | .fill f _ | .insert f _ => some f
  | _ => none

/-- The frame an activity has that is neither mapped nor on the free list. -/
def Activity.privateFrame : Activity → Option Nat
  | .acquired _ f | .push f | .stamp f _ | .fill f _ | .insert f _ | .abandonFail _ f | .abandonWait f
  | .deleteClear _ f | .deallocate _ (some f) | .deletePush _ f => some f
  | _ => none

/-- The page table has 16 shards. -/
def shardIndex (p : PageId) : Nat := (p.toInt % 16).toNat

/-- The page whose shard an activity keeps locked between its steps. -/
def Activity.shard : Activity → Option PageId
  | .deleteClear p _ => some p
  | .deallocate p _ => some p
  | .deletePush p _ => some p
  | _ => none

def shardFree (acts : List Activity) (p : PageId) : Bool :=
  acts.all fun a => a.shard.all fun q => shardIndex q ≠ shardIndex p

/-- The content latch a guard keeps. -/
def Activity.latched : Activity → Option (Nat × Latch)
  | .guard _ latch f => some (f, latch)
  | _ => none

def latchFree (acts : List Activity) (latch : Latch) (f : Nat) : Bool :=
  acts.all fun a => a.latched.all fun (g, held) => g ≠ f ∨ (latch = .read ∧ held = .read)

namespace Shared

def setFrame (s : Shared) (f : Nat) (fr : Frame) : Shared := { s with frames := Function.update s.frames f fr }

def pin (s : Shared) (f : Nat) : Shared := s.setFrame f { s.frames f with pinCount := (s.frames f).pinCount + 1 }

def push (s : Shared) (f : Nat) : Shared := { s with freeList := f :: s.freeList }

def setEvictable (s : Shared) (f : Nat) (evictable : Bool) : Shared :=
  { s with replacer := s.replacer.setEvictable f evictable }

def unpinPage (s : Shared) (f : Nat) : Shared :=
  let fr := s.frames f
  let evictable := fr.pinCount = 1 ∧ fr.state = .resident
  let s' := s.setFrame f { fr with pinCount := fr.pinCount - 1 }
  if evictable then s'.setEvictable f true else s'

/-- A frame unmapped and free, its pin as it was. -/
def vacate (s : Shared) (f : Nat) (p : PageId) : Shared :=
  { s with
    table := Function.update s.table p none
    frames := Function.update s.frames f { (s.frames f).resetEpochs with pageId := invalidPage, state := .free } }

/-- The last lines of `AbandonLoad`'s critical section. -/
def dispose (s : Shared) (f : Nat) : Shared :=
  s.setFrame f { (s.frames f).resetEpochs with pageId := invalidPage, state := .free, pinCount := 0 }

end Shared

section Steps
variable (cfg : PoolConfig)

/-- A disk call as one step. -/
def onDisk {α : Type} (s : Shared) (m : DiskM α) : Option (Except Status α × Shared) :=
  match m s.disk with
  | none => none
  | some (.ok a, d) => some (.ok a, { s with disk := d })
  | some (.error (.status st), d) => some (.error st, { s with disk := d })
  | some (.error .stopped, _) => none

/-- The hit path once the frame is not Loading. -/
def afterWait (p : PageId) (latch : Latch) (f : Nat) (fromZero : Bool) (state : FrameState) : Activity :=
  if state = .failed then .unpin f .finish else .recordAccess p latch f fromZero

def lookup (acts : List Activity) (s : Shared) (p : PageId) (latch : Latch) : Option (Shared × Activity) :=
  if p = metaPageId ∨ p = invalidPage then some (s, .done)
  else if shardFree acts p = false then none
  else match s.table p with
    | none => some (s, .tryPop (.fetch p latch))
    | some f =>
      let fr := s.frames f
      let fromZero := decide (fr.pinCount = 0)
      if fr.state = .loading then some (s.pin f, .hitWait p latch f fromZero)
      else some (s.pin f, afterWait p latch f fromZero fr.state)

def After.activity : After → Activity
  | .finish => .done
  | .sweep next => .flushFrom next
  | .evict goal => .evict goal

/-- After `FlushFrame`: a reclaim revalidates, everything else unpins. -/
def afterFlush (ok : Bool) (f : Nat) (p : PageId) : After → Activity
  | .evict goal => if ok then .revalidate goal f p else .unpin f .finish
  | next => .unpin f next

def peek (s : Shared) (goal : Goal) (v : Nat) : Activity :=
  let fr := s.frames v
  if fr.state ≠ .resident ∨ fr.pinCount ≠ 0 then .evict goal else .validate goal v fr.pageId

def validate (acts : List Activity) (s : Shared) (goal : Goal) (v : Nat) (peeked : PageId) :
    Option (Shared × Activity) :=
  let fr := s.frames v
  if shardFree acts peeked = false then none
  else if fr.state ≠ .resident ∨ fr.pinCount ≠ 0 ∨ fr.pageId ≠ peeked then some (s, .evict goal)
  else if fr.isDirty = false then some (s.vacate v peeked, .acquired goal v)
  else some (s.pin v, .isDirty v peeked (.evict goal))

def revalidate (acts : List Activity) (s : Shared) (goal : Goal) (v : Nat) (peeked : PageId) :
    Option (Shared × Activity) :=
  let fr := s.frames v
  if shardFree acts peeked = false then none
  else if fr.state = .resident ∧ fr.pageId = peeked ∧ fr.pinCount = 1 ∧ fr.isDirty = false then
    let s' := s.vacate v peeked
    some (s'.setFrame v { s'.frames v with pinCount := 0 }, .acquired goal v)
  else some (s, .unpin v (.evict goal))

/-- The miss path from the second lookup on: hand the frame back, or publish the mapping. -/
def publishLoading (acts : List Activity) (s : Shared) (p : PageId) (latch : Latch) (f : Nat) :
    Option (Shared × Activity) :=
  if shardFree acts p = false then none
  else match s.table p with
    | some _ => some (s.push f, .lookup p latch)
    | none =>
      let s' := { s with table := Function.update s.table p (some f) }
      some (s'.setFrame f { (s.frames f).resetEpochs with pageId := p, state := .loading, pinCount := 1 },
        .readPage p latch f)

def readPage (s : Shared) (p : PageId) (latch : Latch) (f : Nat) : Option (Shared × Activity) :=
  match onDisk s (DiskManager.readPage cfg.disk p) with
  | none => none
  | some (.error _, s') => some (s', .abandonErase p f)
  | some (.ok pg, s') =>
    let s' := s'.setFrame f { s'.frames f with data := pg }
    if pg.header.pageType = .free ∨ pg.header.pageId ≠ p then some (s', .abandonErase p f)
    else some (s', .publish p latch f)

def abandonFail (s : Shared) (f : Nat) : Shared × Activity :=
  if (s.frames f).pinCount = 1 then (s.dispose f, .push f)
  else (s.setFrame f { s.frames f with state := .failed }, .abandonWait f)

def allocatePage (s : Shared) (f : Nat) : Option (Shared × Activity) :=
  match onDisk s (DiskManager.allocatePage cfg.disk) with
  | none => none
  | some (.error _, s') => some (s', .push f)
  | some (.ok p, s') => some ({ s' with freed := s'.freed.filter (· ≠ p) }, .stamp f p)

/-- `NewPage` fills the page outside every lock. -/
def fill (s : Shared) (f : Nat) (p : PageId) : Shared :=
  s.setFrame f { (s.frames f).resetEpochs with data := blankPage p }

def insert (acts : List Activity) (s : Shared) (f : Nat) (p : PageId) : Option (Shared × Activity) :=
  if shardFree acts p = false then none
  else match s.table p with
    | some _ => some ({ s with aborted := true }, .insert f p)
    | none =>
      some ({ s with table := Function.update s.table p (some f), owned := p :: s.owned },
        .recordAccess p .write f false)

def flushPage (acts : List Activity) (s : Shared) (p : PageId) : Option (Shared × Activity) :=
  if shardFree acts p = false then none
  else match s.table p with
    | none => some (s, .done)
    | some f =>
      if (s.frames f).state ≠ .resident then some (s, .done) else some (s.pin f, .isDirty f p .finish)

def flushFrom (s : Shared) (f : Nat) : Shared × Activity :=
  if s.capacity ≤ f then (s, .done)
  else if (s.frames f).state ≠ .resident then (s, .flushFrom (f + 1))
  else (s.pin f, .isDirty f (s.frames f).pageId (.sweep (f + 1)))

def writePage (acts : List Activity) (s : Shared) (f : Nat) (p : PageId) (next : After) :
    Option (Shared × Activity) :=
  if latchFree acts .read f = false then none
  else match onDisk s (DiskManager.writePage cfg.disk p (s.frames f).data) with
    | none => none
    | some (.error _, s') => some (s', afterFlush false f p next)
    | some (.ok _, s') => some (s', .markFlushed f p (s.frames f).dirtyEpoch next)

def deletePage (acts : List Activity) (s : Shared) (p : PageId) : Option (Shared × Activity) :=
  if p = metaPageId ∨ p = catalogRootPageId then some (s, .done)
  else if shardFree acts p = false then none
  else match s.table p with
    | none => some (s, .deallocate p none)
    | some f => if (s.frames f).pinCount ≠ 0 then some (s, .done) else some (s.vacate f p, .deleteClear p f)

/-- `DeletePage` after the deallocation: a frame it vacated goes back to the free list. -/
def deletePushed (p : PageId) : Option Nat → Activity
  | none => .done
  | some f => .deletePush p f

def deallocate (s : Shared) (p : PageId) (f : Option Nat) : Option (Shared × Activity) :=
  match onDisk s (DiskManager.deallocatePage cfg.disk p) with
  | none => none
  | some (.error _, s') => some (s', deletePushed p f)
  | some (.ok _, s') =>
    some ({ s' with owned := s'.owned.filter (· ≠ p), freed := p :: s'.freed }, deletePushed p f)

/-- One step of an activity among `acts`. -/
def advance (acts : List Activity) (s : Shared) : Activity → Option (Shared × Activity)
  | .done => none
  | .lookup p latch => lookup acts s p latch
  | .hitWait p latch f fromZero =>
    if (s.frames f).state = .loading then none else some (s, afterWait p latch f fromZero (s.frames f).state)
  | .recordAccess p latch f fromZero =>
    some ({ s with replacer := s.replacer.recordAccess f },
      if fromZero then .setPinned p latch f else .acquireLatch p latch f)
  | .setPinned p latch f => some (s.setEvictable f false, .acquireLatch p latch f)
  | .acquireLatch p latch f => if latchFree acts latch f then some (s, .guard p latch f) else none
  -- `Drop`: a write guard marks its frame dirty before it lets go of the latch.
  | .guard _ latch f =>
    some (if latch = .write then s.setFrame f (s.frames f).markDirty else s, .unpin f .finish)
  | .unpin f next => some (s.unpinPage f, next.activity)
  | .tryPop goal => match s.freeList with
    | [] => some (s, .evict goal)
    | f :: rest => some ({ s with freeList := rest }, .acquired goal f)
  | .evict goal => match s.replacer.evict with
    | none => none
    | some (none, r) => some ({ s with replacer := r }, .done)
    | some (some v, r) => some ({ s with replacer := r }, .peek goal v)
  | .peek goal v => some (s, peek s goal v)
  | .validate goal v peeked => validate acts s goal v peeked
  | .revalidate goal v peeked => revalidate acts s goal v peeked
  | .acquired (.fetch p latch) f => publishLoading acts s p latch f
  | .acquired .newPage f => allocatePage cfg s f
  | .isDirty f p next =>
    if (s.frames f).isDirty then some (s, .writePage f p next) else some (s, afterFlush true f p next)
  | .writePage f p next => writePage cfg acts s f p next
  | .markFlushed f p observed next =>
    some (s.setFrame f ((s.frames f).markFlushed observed), afterFlush true f p next)
  | .readPage p latch f => readPage cfg s p latch f
  | .publish p latch f => some (s.setFrame f { s.frames f with state := .resident }, .recordAccess p latch f false)
  | .abandonErase p f =>
    if shardFree acts p then some ({ s with table := Function.update s.table p none }, .abandonFail p f) else none
  | .abandonFail _ f => some (abandonFail s f)
  | .abandonWait f => if (s.frames f).pinCount = 1 then some (s.dispose f, .push f) else none
  | .push f => some (s.push f, .done)
  | .stamp f p =>
    some (s.setFrame f { s.frames f with pageId := p, state := .resident, pinCount := 1 }, .fill f p)
  | .fill f p => some (fill s f p, .insert f p)
  | .insert f p => insert acts s f p
  | .flushPage p => flushPage acts s p
  | .flushFrom f => some (flushFrom s f)
  | .deletePage p => deletePage acts s p
  | .deleteClear p f => some (s.setEvictable f false, .deallocate p (some f))
  | .deallocate p f => deallocate cfg s p f
  | .deletePush _ f => some (s.push f, .done)

end Steps

inductive Call where
  | fetchPage (latch : Latch) (p : PageId)
  | newPage
  | flushPage (p : PageId)
  | flushAllPages
  | deletePage (p : PageId)
  deriving DecidableEq, Repr

def Call.start : Call → Activity
  | .fetchPage latch p => .lookup p latch
  | .newPage => .tryPop .newPage
  | .flushPage p => .flushPage p
  | .flushAllPages => .flushFrom 0
  | .deletePage p => .deletePage p

structure System where
  shared : Shared
  acts : List Activity

/-- Who moves: a thread makes a call, an activity takes its next step, a write guard changes its page. -/
inductive Choice where
  | call (c : Call)
  | run (i : Nat)
  | edit (i : Nat) (e : Edit)

def step (cfg : PoolConfig) (s : System) : Choice → Option System
  | .call c => if s.shared.aborted then none else some { s with acts := s.acts ++ [c.start] }
  | .run i =>
    if s.shared.aborted then none
    else match s.acts[i]? with
      | none => none
      | some a => (advance cfg s.acts s.shared a).map fun (sh, a') => ⟨sh, s.acts.set i a'⟩
  | .edit i e =>
    if s.shared.aborted then none
    else match s.acts[i]? with
      | some (.guard _ .write f) =>
        let fr := s.shared.frames f
        some { s with shared := s.shared.setFrame f { fr with data := e.apply fr.data } }
      | _ => none

/-- A pool of free frames over an open disk; `owned` are the pages already there. -/
def System.new (disk : DiskManager) (capacity : Nat) (owned : List PageId) : System where
  shared := {
    capacity := capacity
    frames := fun _ => {}
    table := fun _ => none
    freeList := (List.range capacity).reverse
    replacer := Replacer.new capacity
    disk := disk
    aborted := false
    owned := owned
    freed := [] }
  acts := []

end KernSql.Concurrent
