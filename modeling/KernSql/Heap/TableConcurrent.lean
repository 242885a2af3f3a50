import KernSql.Lib.Machine
import KernSql.Heap.TableRun

/- A table used by many threads (src/heap/table_heap.cpp).

   What a thread does between taking and dropping a page's guard is one step, and
   so is the load of one of the object's own fields outside such a section. The
   extension of the chain is one step: it holds the old last page until the new
   one is linked and published. A call comes in with its first step, so `Delete`
   is a single step, and `Update` has three parts: the section that looks at the
   row, then, if the new bytes do not fit, all the steps of an `Insert`, then those
   of a `Delete`.

   `history` is what the calls have done to rows, newest first. Nothing in a step
   depends on it, or on `start`, the rows there were at the start: they are there
   to say what the table ought to hold. Each version of a row carries a tag, so
   that an update can say which version it found. -/
namespace KernSql.TableHeap.Concurrent
open Exec

/-- The row or the version of a row that was there at the start, or came with the `n`-th event. -/
inductive Origin where
  | start (r : RID)
  | event (n : Nat)
  deriving DecidableEq, Repr

/-- Which row a record id holds, and which version of it. -/
structure Tag where
  row : Origin
  version : Origin
  deriving DecidableEq, Repr

/-- What a call did to a row. -/
inductive Event where
  /-- `Insert` returned `rid`. -/
  | inserted (rid : RID) (tuple : List UInt8)
  /-- `Delete` removed the row and returned OK. -/
  | deleted (rid : RID)
  /-- `Update` wrote over the row where it was, and returned `rid`. -/
  | updated (rid : RID) (tuple : List UInt8)
  /-- `Update` found that the new bytes do not fit. -/
  | examined (rid : RID)
  /-- `Update` inserted the new copy of the row it had found at `old`. -/
  | copied (old new : RID) (tuple : List UInt8) (found : Option Tag)
  /-- `Update` returned `new`; its `Delete` removed what `old` held, or found nothing there. -/
  | relocated (old new : RID) (tuple : List UInt8) (found : Option Tag) (removed : Bool)
  /-- The `Delete` of an `Update` failed: the row is there twice, and `Update` says so. -/
  | stranded (old new : RID) (found : Option Tag)
  deriving DecidableEq, Repr

/-- What an event does to the rows. -/
def Event.write : Event → RidMap → RidMap
  | .inserted r t, m => Function.update m r (some t)
  | .deleted r, m => Function.update m r none
  | .updated r t, m => Function.update m r (some t)
  | .examined _, m => m
  | .copied _ new t _, m => Function.update m new (some t)
  | .relocated old _ _ _ removed, m => if removed then Function.update m old none else m
  | .stranded _ _ _, m => m

/-- The rows there are after a history. -/
def written (start : RidMap) (history : List Event) : RidMap := history.foldr Event.write start

/-- What the `n`-th event does to the tags. -/
def Event.tag (n : Nat) : Event → (RID → Option Tag) → RID → Option Tag
  | .inserted r _, m => Function.update m r (some ⟨.event n, .event n⟩)
  | .deleted r, m => Function.update m r none
  | .updated r _, m => Function.update m r ((m r).map fun tag => ⟨tag.row, .event n⟩)
  | .examined _, m => m
  -- A copy is another version of the row that was found.
  | .copied _ new _ found, m => Function.update m new (some ⟨(found.map Tag.row).getD (.event n), .event n⟩)
  | .relocated old _ _ _ removed, m => if removed then Function.update m old none else m
  | .stranded _ _ _, m => m

/-- The row and the version each record id holds after a history. -/
def tags (start : RidMap) : List Event → RID → Option Tag
  | [] => fun r => (start r).map fun _ => ⟨.start r, .start r⟩
  | e :: h => e.tag h.length (tags start h)

/-- What an `Insert` is for: a call of its own, or the relocation of a row. -/
inductive Purpose where
  | insert
  | relocate (old : RID) (found : Option Tag)
  deriving DecidableEq, Repr

/-- Where a thread is in its call. -/
inductive Activity where
  /-- About to start on `Insert`. -/
  | loadHint (why : Purpose) (tuple : List UInt8)
  /-- `left` more probes of the cursor, the next one of `page`. -/
  | probe (why : Purpose) (tuple : List UInt8) (left : Nat) (page : PageId) (fromHint : Bool)
  | loadLast (why : Purpose) (tuple : List UInt8)
  | append (why : Purpose) (tuple : List UInt8) (last : PageId)
  /-- The new copy is in, the old row is still to be deleted. -/
  | remove (old new : RID) (tuple : List UInt8) (found : Option Tag)
  | returned (result : Except Status Answer)

inductive Call where
  | insert (tuple : List UInt8)
  | delete (rid : RID)
  | update (rid : RID) (tuple : List UInt8)

/-- The head of the probe loop. -/
def sweep (why : Purpose) (tuple : List UInt8) (left : Nat) (page : PageId) (fromHint : Bool) : Activity :=
  if left = 0 ∨ page = invalidPage then .loadLast why tuple else .probe why tuple left page fromHint

/-- The tuple is on a page: `Insert` returns, to its caller or to `Update`. -/
def landed (tuple : List UInt8) (rid : RID) : Purpose → Activity × Option Event
  | .insert => (.returned (.ok (.rid rid)), some (.inserted rid tuple))
  | .relocate old found => (.remove old rid tuple found, some (.copied old rid tuple found))

section Steps
variable (env : PoolEnv) (build : Build)

/-- The checks on the tuple, and the load of the cursor. -/
def beginInsert (why : Purpose) (tuple : List UInt8) : TableM (Activity × Option Event) := do
  if tuple = [] then fail ⟨.invalidArgument, "cannot insert a zero-length tuple"⟩
  else if maxTupleSize < tuple.length then fail ⟨.invalidArgument, "tuple exceeds the maximum tuple size"⟩
  else do
    let t ← self
    let start := if t.insertHint = invalidPage then t.firstPageId else t.insertHint
    pure (sweep why tuple insertProbeLimit start true, none)

/-- The next step of a call. -/
def advance : Activity → TableM (Activity × Option Event)
  | .loadHint why tuple => beginInsert why tuple
  | .probe why tuple left p fromHint => do
    let t ← self
    let hintRecoverable := fromHint && p ≠ t.firstPageId
    match ← onPool (TableHeap.probe env build p tuple) with
    | .unusable e =>
      if hintRecoverable then pure (sweep why tuple (left - 1) t.firstPageId false, none) else fail e
    | .landed slot => do
      setSelf { t with insertHint := p }
      pure (landed tuple ⟨p, slot⟩ why)
    | .full next => do
      let p' := if next = invalidPage then t.firstPageId else next
      setSelf { t with insertHint := p' }
      pure (sweep why tuple (left - 1) p' false, none)
  | .loadLast why tuple => do
    let t ← self
    pure (.append why tuple t.lastPageId, none)
  | .append why tuple last => do
    match ← onPool (appendAt env build last tuple) with
    | .follow next => pure (.append why tuple next, none)
    | .landed slot => do
      let t ← self
      setSelf { t with insertHint := last }
      pure (landed tuple ⟨last, slot⟩ why)
    | .extended newId slot => do
      let t ← self
      setSelf { t with lastPageId := newId, insertHint := newId }
      pure (landed tuple ⟨newId, slot⟩ why)
  | .remove old new tuple found => do
    match ← attempt (delete env build old) with
    | .ok _ => pure (.returned (.ok (.rid new)), some (.relocated old new tuple found true))
    | .error e =>
      if e.code ≠ .notFound then
        pure (.returned (.error ⟨.internal,
          "update relocated the row but could not remove the original; it is now duplicated"⟩),
          some (.stranded old new found))
      else pure (.returned (.ok (.rid new)), some (.relocated old new tuple found false))
  | .returned _ => lift none

/-- The first section of `Update`. -/
def examine (rid : RID) (tuple : List UInt8) : TableM UpdateOutcome := onPool <| inScope do
  fetchPageWrite env rid.pageId
  asHeapPage rid.pageId
  onBody rid.pageId (HeapPage.update build rid.slot tuple)

/-- The first step of a call; `found` is the tag a row has that an update looks at. -/
def enter (found : RID → Option Tag) : Call → TableM (Activity × Option Event)
  | .insert tuple => beginInsert .insert tuple
  | .delete rid => do
    delete env build rid
    pure (.returned (.ok .done), some (.deleted rid))
  | .update rid tuple => do
    match ← examine env build rid tuple with
    | .samePage => pure (.returned (.ok (.rid rid)), some (.updated rid tuple))
    | .doesNotFit => pure (.loadHint (.relocate rid (found rid)) tuple, some (.examined rid))

end Steps

structure System where
  shared : PageStore × TableHeap
  acts : List Activity
  history : List Event
  start : RidMap

/-- Nobody has called yet. -/
def System.new (shared : PageStore × TableHeap) (start : RidMap) : System := ⟨shared, [], [], start⟩

inductive Choice where
  /-- Some thread calls. -/
  | call (c : Call)
  | run (i : Nat)

/-- A step's outcome: where the thread is now, or the status its call returned. -/
def settle : Except Status (Activity × Option Event) → Activity × Option Event
  | .ok r => r
  | .error e => (.returned (.error e), none)

def System.after (s : System) (r : Except Status (Activity × Option Event)) (shared : PageStore × TableHeap)
    (acts : Activity → List Activity) : System :=
  ⟨shared, acts (settle r).1, (settle r).2.toList ++ s.history, s.start⟩

def step (env : PoolEnv) (build : Build) (s : System) : Choice → Option System
  | .call c => do
    let (r, shared) ← enter env build (tags s.start s.history) c s.shared
    some (s.after r shared fun a => s.acts ++ [a])
  | .run i => do
    let a ← s.acts[i]?
    let (r, shared) ← advance env build a s.shared
    some (s.after r shared fun a' => s.acts.set i a')

end KernSql.TableHeap.Concurrent
