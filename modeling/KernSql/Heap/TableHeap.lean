import KernSql.Buffer.PageStore
import KernSql.Heap.HeapPageSpec

/- Table heaps (src/heap/table_heap.hpp and .cpp).

   A table is a chain of heap pages linked through their headers. The object holds
   the first page id, the id an append starts from, and the cursor where the next
   insert starts to look; all of it is part of the state, since `Insert` moves the
   cursor also when it fails later. A page is worked on under one guard at a time,
   except that the last page's guard is held while the chain is extended.

   The append loop follows links until a page has none. It is bounded by a fuel:
   page ids are 32 bits wide and a chain does not come back to a page, so `2 ^ 32`
   steps always suffice. -/
namespace KernSql
open Exec

/-- `INSERT_PROBE_LIMIT`. -/
def insertProbeLimit : Nat := 4

/-- `COMPACT_THRESHOLD`. -/
def compactThreshold : Nat := pageBodySize / 8

/-- The check of `AsHeapPage`. -/
def asHeapPage (p : PageId) : PoolM Unit := do
  let pg ← guarded p
  if pg.header.pageType ≠ .heap then fail ⟨.corruption, "page is not a heap page"⟩

/-- A heap-page operation on the body behind a guard. -/
def onBody {α : Type} (p : PageId) (m : HeapPage.PageM α) : PoolM α := fun s =>
  match s.pages p with
  | none => none
  | some pg =>
    match m pg.body with
    | none => none
    | some (r, b) => some (r, s.setPage p (some { pg with body := b }))

structure TableHeap where
  firstPageId : PageId
  lastPageId : PageId
  insertHint : PageId
  deriving DecidableEq, Repr

/-- A computation over the pool and one table. -/
abbrev TableM := Exec (PageStore × TableHeap) Status

/-- `TryInsertOnPage`: `none` is a page that cannot take the tuple. -/
def tryInsertOnPage (build : Build) (tuple : List UInt8) (threshold : Nat) : HeapPage.PageM (Option SlotId) := do
  let need := tuple.length + slotSize
  let b ← Exec.get
  let free ← lift (ConstHeapPage.contiguous build b)
  let room ← (if free < need then do
      let reclaimable ← lift (ConstHeapPage.reclaimable build b)
      if reclaimable < need then pure false
      else if (ConstHeapPage.header b).deadBytes < threshold then pure false
      else do
        HeapPage.compact build
        pure true
    else pure true)
  if room then do
    match ← attempt (HeapPage.insert build tuple) with
    | .ok slot => pure (some slot)
    | .error e => if e.code = .pageFull then pure none else fail e
  else pure none

namespace TableHeap

/-- What one probe of the insert cursor found. -/
inductive Probe where
  /-- The page could not be fetched, or is no heap page. -/
  | unusable (e : Status)
  | landed (slot : SlotId)
  | full (next : PageId)

/-- What one turn of the append loop did. -/
inductive Append where
  | follow (next : PageId)
  | landed (slot : SlotId)
  | extended (newId : PageId) (slot : SlotId)

section Operations
variable (env : PoolEnv) (build : Build)

def create : PoolM TableHeap := inScope do
  let p ← newPage env
  setPageType p .heap
  setNextPageId p invalidPage
  asHeapPage p
  onBody p HeapPage.init
  pure ⟨p, p, p⟩

/-- `Open`: reads no page; the cursor starts at the front. -/
def open_ (firstPageId lastPageId : PageId) : TableHeap := ⟨firstPageId, lastPageId, firstPageId⟩

def probe (p : PageId) (tuple : List UInt8) : PoolM Probe := inScope do
  match ← attempt (fetchPageWrite env p) with
  | .error e => pure (.unusable e)
  | .ok _ =>
    match ← attempt (asHeapPage p) with
    | .error e => pure (.unusable e)
    | .ok _ =>
      match ← onBody p (tryInsertOnPage build tuple compactThreshold) with
      | some slot => pure (.landed slot)
      | none => do
        let pg ← guarded p
        pure (.full pg.header.nextPageId)

/-- The rotating cursor: at most `n` more probes, from page `p`. A hint that does not resolve sends the
sweep to the front; a link that does not is an error. -/
def probes (tuple : List UInt8) : Nat → PageId → Bool → TableM (Option RID)
  | 0, _, _ => pure none
  | n + 1, p, fromHint => do
    if p = invalidPage then pure none
    else do
      let t ← self
      let hintRecoverable := fromHint && p ≠ t.firstPageId
      match ← onPool (probe env build p tuple) with
      | .unusable e => if hintRecoverable then probes tuple n t.firstPageId false else fail e
      | .landed slot => do
        setSelf { t with insertHint := p }
        pure (some ⟨p, slot⟩)
      | .full next => do
        let p' := if next = invalidPage then t.firstPageId else next
        setSelf { t with insertHint := p' }
        probes tuple n p' false

/-- One turn of the append loop, under the guard of page `last`. -/
def appendAt (last : PageId) (tuple : List UInt8) : PoolM Append := inScope do
  fetchPageWrite env last
  let pg ← guarded last
  if pg.header.nextPageId ≠ invalidPage then pure (.follow pg.header.nextPageId)
  else do
    asHeapPage last
    match ← onBody last (tryInsertOnPage build tuple 0) with
    | some slot => pure (.landed slot)
    | none => do
      let newId ← newPage env
      setPageType newId .heap
      setNextPageId newId invalidPage
      asHeapPage newId
      onBody newId HeapPage.init
      let slot ← onBody newId (HeapPage.insert build tuple)
      setNextPageId last newId
      pure (.extended newId slot)

def append (tuple : List UInt8) : Nat → PageId → TableM RID
  | 0, _ => lift none
  | fuel + 1, last => do
    match ← onPool (appendAt env build last tuple) with
    | .follow next => append tuple fuel next
    | .landed slot => do
      let t ← self
      setSelf { t with insertHint := last }
      pure ⟨last, slot⟩
    | .extended newId slot => do
      let t ← self
      setSelf { t with lastPageId := newId, insertHint := newId }
      pure ⟨newId, slot⟩

def insert (fuel : Nat) (tuple : List UInt8) : TableM RID := do
  if tuple = [] then fail ⟨.invalidArgument, "cannot insert a zero-length tuple"⟩
  else if maxTupleSize < tuple.length then fail ⟨.invalidArgument, "tuple exceeds the maximum tuple size"⟩
  else do
    let t ← self
    let start := if t.insertHint = invalidPage then t.firstPageId else t.insertHint
    match ← probes env build tuple insertProbeLimit start true with
    | some rid => pure rid
    | none => do
      let t ← self
      append env build tuple fuel t.lastPageId

def get (rid : RID) : TableM (List UInt8) := onPool <| inScope do
  fetchPageRead env rid.pageId
  asHeapPage rid.pageId
  let pg ← guarded rid.pageId
  match ← lift (ConstHeapPage.get build pg.body rid.slot) with
  | .error e => fail e
  | .ok bytes => pure bytes

def delete (rid : RID) : TableM Unit := do
  onPool <| inScope do
    fetchPageWrite env rid.pageId
    asHeapPage rid.pageId
    onBody rid.pageId (HeapPage.delete build rid.slot)
  let t ← self
  setSelf { t with insertHint := rid.pageId }

/-- `Update`. The guard of the first part is gone before the relocation takes latches of its own. -/
def update (fuel : Nat) (rid : RID) (tuple : List UInt8) : TableM RID := do
  let outcome ← onPool <| inScope do
    fetchPageWrite env rid.pageId
    asHeapPage rid.pageId
    onBody rid.pageId (HeapPage.update build rid.slot tuple)
  match outcome with
  | .samePage => pure rid
  | .doesNotFit => do
    -- insert first: a failed insert then leaves the old row in place
    let newRid ← insert env build fuel tuple
    match ← attempt (delete env build rid) with
    | .ok _ => pure newRid
    | .error e =>
      if e.code ≠ .notFound then
        fail ⟨.internal, "update relocated the row but could not remove the original; it is now duplicated"⟩
      else pure newRid

end Operations
end TableHeap
end KernSql
