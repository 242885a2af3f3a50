import KernSql.Buffer.PageStore
import KernSql.Index.Structural

/- The B+tree (src/indices/b_plus_tree.hpp and .cpp) over the buffer pool.

   Each operation is translated as it stands: the same fetches in the same
   order, the same order of checks, planning before the first write, and the
   mutations page by page. A view of a page is taken from the bytes the page
   holds at that moment and its result written back, so a page id stands for the
   guard the code keeps. `.value()` on a checked result is `orFault`, an `assert`
   is `check`: both go wrong when the code's own claim about itself fails. A
   `std::vector` of path nodes is a list; loops that climb the path run over it
   leaf first. -/
namespace KernSql
open Exec Bytes

structure IndexHeader where
  rootPageId : PageId
  height : Nat
  leafMax : Nat
  internalMax : Nat
  reserved : Nat := 0
  deriving DecidableEq, Repr

def IndexHeader.readFrom (body : Body) : IndexHeader where
  rootPageId := pageIdOf (body.slice 0 4)
  height := leNat (body.slice 4 2)
  leafMax := leNat (body.slice 6 2)
  internalMax := leNat (body.slice 8 2)
  reserved := leNat (body.slice 10 2)

def IndexHeader.bytes (h : IndexHeader) : List UInt8 :=
  pageIdBytes h.rootPageId ++ leBytes 2 h.height ++ leBytes 2 h.leafMax ++ leBytes 2 h.internalMax ++
    leBytes 2 h.reserved

def IndexHeader.writeTo (h : IndexHeader) (body : Body) : Body := body.write 0 h.bytes

/-! Typed access to a guarded page. -/

def corruption (msg : String) : Status := ⟨.corruption, msg⟩

def asLeaf (p : PageId) : PoolM Body := do
  let pg ← guarded p
  if pg.header.pageType ≠ .indexLeaf then fail (corruption "not a leaf page")
  else pure pg.body

def asInternal (p : PageId) : PoolM Body := do
  let pg ← guarded p
  if pg.header.pageType ≠ .indexInternal then fail (corruption "not an internal node page")
  else pure pg.body

def readIndexHeader (p : PageId) : PoolM IndexHeader := do
  let pg ← guarded p
  if pg.header.pageType ≠ .indexHeader then fail (corruption "not an index header page")
  else pure (IndexHeader.readFrom pg.body)

def writeIndexHeader (p : PageId) (h : IndexHeader) : PoolM Unit := do
  let pg ← guarded p
  if pg.header.pageType ≠ .indexHeader then fail (corruption "not an index header page")
  else setBody p (h.writeTo pg.body)

/-- Run a node operation on a leaf already validated and write the result back. -/
def editLeaf (p : PageId) (f : Body → Option Body) : PoolM Unit := do
  let b ← orFault (asLeaf p)
  let b' ← lift (f b)
  setBody p b'

def editInternal (p : PageId) (f : Body → Option Body) : PoolM Unit := do
  let b ← orFault (asInternal p)
  let b' ← lift (f b)
  setBody p b'

/-! The tree object. -/

/-- A `BPlusTree`: the header page id and the cached fanout. -/
structure BPlusTree where
  headerPageId : PageId
  leafMax : Nat
  internalMax : Nat
  deriving DecidableEq, Repr

def fanoutInRange (max : Nat) : Bool := minFanout ≤ max ∧ max ≤ nodeCapacity

namespace BPlusTree

section Operations
variable (env : PoolEnv)

def create (leafMax internalMax : Nat) : PoolM BPlusTree := inScope do
  if leafMax < minFanout ∨ nodeCapacity < leafMax then
    fail ⟨.invalidArgument, "leaf_max outside [MIN_FANOUT, NODE_CAPACITY]"⟩
  else if internalMax < minFanout ∨ nodeCapacity < internalMax then
    fail ⟨.invalidArgument, "internal_max outside [MIN_FANOUT, NODE_CAPACITY]"⟩
  else do
    let headerId ← newPage env
    match ← attempt (newPage env) with
    | .error e => do
      -- DeletePage rejects a pinned page, so the guard goes first; best effort
      dropGuard headerId .write
      let _ ← attempt (deletePage env headerId)
      fail e
    | .ok rootId => do
      setPageType rootId .indexLeaf
      let root ← asLeaf rootId
      setBody rootId (LeafNode.init root)
      setPageType headerId .indexHeader
      writeIndexHeader headerId ⟨rootId, 1, leafMax, internalMax, 0⟩
      pure ⟨headerId, leafMax, internalMax⟩

/-- Reopen from the header page; the fanout is read back from it. -/
def open_ (headerPageId : PageId) : PoolM BPlusTree := inScope do
  fetchPageRead env headerPageId
  let h ← readIndexHeader headerPageId
  if !fanoutInRange h.leafMax || !fanoutInRange h.internalMax then
    fail (corruption "invalid page Fanout!")
  else pure ⟨headerPageId, h.leafMax, h.internalMax⟩

/-- The levels above the leaf on the read path, one guard at a time. -/
def descendRead (key : Key) : Nat → PageId → PoolM PageId
  | 0, p => pure p
  | n + 1, p => do
    let next ← inScope do
      fetchPageRead env p
      let b ← asInternal p
      let i ← lift (InternalNode.childIndexFor b key)
      lift (InternalNode.childAt b i)
    descendRead key n next

/-- Returns the leaf's page id with its read guard alive, not yet validated as a leaf. -/
def findLeafRead (t : BPlusTree) (key : Key) : PoolM PageId := do
  let h ← inScope do
    fetchPageRead env t.headerPageId
    readIndexHeader t.headerPageId
  if h.height = 0 then fail (corruption "index header height is zero")
  else do
    let leaf ← descendRead env key (h.height - 1) h.rootPageId
    fetchPageRead env leaf
    pure leaf

def get (t : BPlusTree) (key : Key) : PoolM RID := inScope do
  let leaf ← findLeafRead env t key
  let b ← asLeaf leaf
  let i ← lift (LeafNode.lowerBound b key)
  if i = LeafNode.count b then fail ⟨.notFound, "key not in index"⟩
  else do
    let e ← lift (LeafNode.entryAt b i)
    if e.key ≠ key then fail ⟨.notFound, "key not in index"⟩ else pure e.rid

/-! The write path. -/

/-- `WritePath`: the header, and the nodes from the root to the leaf with the child
index taken at each internal one. -/
structure WritePath where
  header : IndexHeader
  nodes : List PageId
  childIndexes : List Nat
  deriving Repr

def descendWrite (key : Key) : Nat → PageId → PoolM (List PageId × List Nat)
  | 0, p => do
    fetchPageWrite env p
    let _ ← asLeaf p
    pure ([p], [])
  | n + 1, p => do
    fetchPageWrite env p
    let b ← asInternal p
    let i ← lift (InternalNode.childIndexFor b key)
    let next ← lift (InternalNode.childAt b i)
    let below ← descendWrite key n next
    pure (p :: below.1, i :: below.2)

def findLeafWrite (t : BPlusTree) (key : Key) : PoolM WritePath := do
  fetchPageWrite env t.headerPageId
  let h ← readIndexHeader t.headerPageId
  if h.height = 0 then fail (corruption "tree height can't be 0")
  else do
    let path ← descendWrite env key (h.height - 1) h.rootPageId
    pure ⟨h, path.1, path.2⟩

def isLeafFull (t : BPlusTree) (leaf : Body) : Bool := t.leafMax ≤ LeafNode.count leaf
def isInternalFull (t : BPlusTree) (node : Body) : Bool := t.internalMax ≤ InternalNode.count node
def isLeafAtFloor (t : BPlusTree) (leaf : Body) : Bool :=
  LeafNode.count leaf ≤ leafMinEntries t.leafMax
def isInternalAtFloor (t : BPlusTree) (node : Body) : Bool :=
  InternalNode.count node ≤ internalMinChildren t.internalMax

/-! Insert. -/

/-- The run of full nodes above the leaf, nearest first. -/
def countFull (t : BPlusTree) : List PageId → PoolM Nat
  | [] => pure 0
  | p :: up => do
    let b ← orFault (asInternal p)
    if t.isInternalFull b then do
      let n ← countFull t up
      pure (n + 1)
    else pure 0

/-- `CountSplits` over the path, leaf first. -/
def countSplits (t : BPlusTree) : List PageId → PoolM Nat
  | [] => lift none
  | leaf :: up => do
    let b ← orFault (asLeaf leaf)
    if t.isLeafFull b then do
      let n ← countFull t up
      pure (u16 (n + 1))
    else pure 0

/-- Best-effort deletes: the results are ignored. -/
def deleteAll : List PageId → PoolM Unit
  | [] => pure ()
  | p :: ps => do
    let _ ← attempt (deletePage env p)
    deleteAll ps

def dropGuards : List PageId → PoolM Unit
  | [] => pure ()
  | p :: ps => do
    dropGuard p .write
    dropGuards ps

/-- `AllocatePages`: all or nothing, `pages` being those obtained so far. -/
def allocatePages : Nat → List PageId → PoolM (List PageId)
  | 0, pages => pure pages
  | n + 1, pages => do
    match ← attempt (newPage env) with
    | .ok p => allocatePages n (pages ++ [p])
    | .error e => do
      dropGuards pages
      deleteAll env pages
      fail e

/-- The climb after the leaf split: `up` is the path above it with the child
indexes, nearest first. `none` means the separator found room; otherwise it is the
separator and right page still to be placed above the root, and the next unused
page. -/
def splitUp (t : BPlusTree) (pages : List PageId) :
    List (PageId × Nat) → Nat → Key → PageId → PoolM (Option (Nat × Key × PageId))
  | [], nextPage, sep, rightId => pure (some (nextPage, sep, rightId))
  | (parent, childIndex) :: up, nextPage, sep, rightId => do
    let b ← orFault (asInternal parent)
    let entry : InternalEntry := ⟨sep, rightId, 0⟩
    let pos := u16 (childIndex + 1)
    if !t.isInternalFull b then do
      editInternal parent fun b => InternalNode.insertAt b pos entry
      pure none
    else do
      let right ← lift pages[nextPage]?
      setPageType right .indexInternal
      editInternal right fun r => InternalNode.init r (InternalNode.level b)
      let r ← orFault (asInternal right)
      let split ← lift (splitInternal b r pos entry)
      setBody parent split.1
      setBody right split.2.1
      splitUp t pages up (nextPage + 1) split.2.2 right

/-- The leaf split into `pages[0]`: the separator and the right page. -/
def splitLeafInto (pages : List PageId) (leaf : PageId) (index : Nat) (entry : LeafEntry) :
    PoolM (Key × PageId) := do
  let leafRight ← lift pages[0]?
  setPageType leafRight .indexLeaf
  editLeaf leafRight fun r => some (LeafNode.init r)
  let b ← orFault (asLeaf leaf)
  let r ← orFault (asLeaf leafRight)
  let split ← lift (splitLeaf b r leafRight index entry)
  setBody leaf split.1
  setBody leafRight split.2.1
  pure (split.2.2, leafRight)

/-- The leaf split and the climb. -/
def splitPath (t : BPlusTree) (pages : List PageId) (leaf : PageId) (up : List (PageId × Nat))
    (index : Nat) (entry : LeafEntry) : PoolM (Option (Nat × Key × PageId)) := do
  let right ← splitLeafInto pages leaf index entry
  splitUp t pages up 1 right.1 right.2

/-- Everything after the allocation; nothing here may fail. -/
def splitAll (t : BPlusTree) (path : WritePath) (pages : List PageId) (splits : Nat) (leaf : PageId)
    (up : List (PageId × Nat)) (index : Nat) (entry : LeafEntry) : PoolM Unit := do
  match ← splitPath t pages leaf up index entry with
  | none => pure ()
  | some (nextPage, sep, rightId) => do
    -- the run of full nodes reached the root: grow the tree by one level
    check (splits = path.nodes.length ∧ nextPage = splits)
    let root ← lift pages[nextPage]?
    setPageType root .indexInternal
    editInternal root fun b => InternalNode.init b path.header.height
    editInternal root fun b =>
      InternalNode.assign b [⟨int64Min, path.header.rootPageId, 0⟩, ⟨sep, rightId, 0⟩]
    orFault (writeIndexHeader t.headerPageId
      { path.header with rootPageId := root, height := u16 (path.header.height + 1) })

/-- The internal nodes of a path with the child index taken in each, nearest to the leaf first. -/
def WritePath.up (path : WritePath) : List (PageId × Nat) :=
  (path.nodes.dropLast.zip path.childIndexes).reverse

def insert (t : BPlusTree) (key : Key) (rid : RID) : PoolM Unit := inScope do
  let path ← findLeafWrite env t key
  let leaf ← lift path.nodes.getLast?
  let b ← orFault (asLeaf leaf)
  let i ← lift (LeafNode.lowerBound b key)
  let found ← lift (if i < LeafNode.count b then (LeafNode.keyAt b i).map fun k => decide (k = key)
    else some false)
  if found then fail ⟨.duplicateKey, s!"key {key.toInt} already exists"⟩
  else if !t.isLeafFull b then editLeaf leaf fun b => LeafNode.insertAt b i ⟨key, rid⟩
  else do
    let splits ← countSplits t path.nodes.reverse
    let newRoot := if splits = path.nodes.length then 1 else 0
    let pages ← allocatePages env (u16 (splits + newRoot)) []
    splitAll t path pages splits leaf path.up i ⟨key, rid⟩

/-! Delete. -/

inductive Fix where
  | redistribute | merge
  deriving DecidableEq, Repr

structure DeleteStep where
  sibling : PageId
  siblingIsLeft : Bool
  fix : Fix
  deriving DecidableEq, Repr

structure DeletePlan where
  steps : List DeleteStep
  collapseRoot : Bool
  deriving DecidableEq, Repr

/-- Is the path node at its floor? -/
def atFloor (t : BPlusTree) (isLeaf : Bool) (p : PageId) : PoolM Bool := do
  if isLeaf then do
    let b ← orFault (asLeaf p)
    pure (t.isLeafAtFloor b)
  else do
    let b ← orFault (asInternal p)
    pure (t.isInternalAtFloor b)

/-- Validate a fetched sibling and ask whether it is at its floor. -/
def siblingAtFloor (t : BPlusTree) (isLeaf : Bool) (p sibling : PageId) : PoolM Bool := do
  if isLeaf then do
    let b ← asLeaf sibling
    pure (t.isLeafAtFloor b)
  else do
    let b ← asInternal sibling
    let own ← orFault (asInternal p)
    if InternalNode.level b ≠ InternalNode.level own then
      fail (corruption s!"sibling page {sibling.toInt} is at the wrong level")
    else pure (t.isInternalAtFloor b)

/-- One round of the planning loop, for path node `p` at child `childIndex` of `parent`: the
fix it needs, or `none` when it is above its floor. -/
def planStep (t : BPlusTree) (isLeaf : Bool) (p parent : PageId) (childIndex : Nat) :
    PoolM (Option DeleteStep) := do
  if !(← atFloor t isLeaf p) then pure none
  else do
    let pb ← orFault (asInternal parent)
    let siblingIsLeft : Bool := 0 < childIndex
    let sibling ← lift (InternalNode.childAt pb
      (u16 (if siblingIsLeft then childIndex - 1 else childIndex + 1)))
    fetchPageWrite env sibling
    if !(← siblingAtFloor t isLeaf p sibling) then pure (some ⟨sibling, siblingIsLeft, .redistribute⟩)
    else pure (some ⟨sibling, siblingIsLeft, .merge⟩)

/-- The planning loop: `p` is the path node whose entry goes, `up` the path above
it, nearest first. Returns the steps and whether every level below the root merged. -/
def planSteps (t : BPlusTree) : Bool → PageId → List (PageId × Nat) → PoolM (List DeleteStep × Bool)
  | _, _, [] => pure ([], true)
  | isLeaf, p, (parent, childIndex) :: up => do
    match ← planStep env t isLeaf p parent childIndex with
    | none => pure ([], false)
    | some step =>
      if step.fix = .redistribute then pure ([step], false)
      else do
        let rest ← planSteps t false parent up
        pure (step :: rest.1, rest.2)

/-- `PlanDelete`: reads only, apart from the sibling guards it takes. -/
def planDelete (t : BPlusTree) (leaf : PageId) (up : List (PageId × Nat)) (root : PageId) :
    PoolM DeletePlan := do
  let plan ← planSteps env t true leaf up
  if plan.2 && !plan.1.isEmpty then do
    let b ← orFault (asInternal root)
    pure ⟨plan.1, InternalNode.count b = 2⟩
  else pure ⟨plan.1, false⟩

/-- Redistribute between two adjacent nodes in key order; the new separator. -/
def redistribute (isLeaf siblingIsLeft : Bool) (left right : PageId) (separator : Key) : PoolM Key := do
  if isLeaf then do
    let l ← orFault (asLeaf left)
    let r ← orFault (asLeaf right)
    let out ← lift (if siblingIsLeft then rotateLeafRight l r else rotateLeafLeft l r)
    setBody left out.1
    setBody right out.2.1
    pure out.2.2
  else do
    let l ← orFault (asInternal left)
    let r ← orFault (asInternal right)
    let out ← lift (if siblingIsLeft then rotateInternalRight l r separator
      else rotateInternalLeft l r separator)
    setBody left out.1
    setBody right out.2.1
    pure out.2.2

def mergeInto (isLeaf : Bool) (left right : PageId) (separator : Key) : PoolM Unit := do
  if isLeaf then do
    let r ← orFault (asLeaf right)
    editLeaf left fun l => mergeLeaf l r
  else do
    let r ← orFault (asInternal right)
    editInternal left fun l => mergeInternal l r separator

/-- The pair a step works on, in key order. The right one's slot in the parent is where the
separator between them lives, and the slot a merge removes. -/
structure StepPair where
  left : PageId
  right : PageId
  rightSlot : Nat
  separator : Key

def stepPair (p parent : PageId) (childIndex : Nat) (step : DeleteStep) : PoolM StepPair := do
  let pb ← orFault (asInternal parent)
  let rightSlot := u16 (if step.siblingIsLeft then childIndex else childIndex + 1)
  let separator ← lift (InternalNode.keyAt pb rightSlot)
  pure ⟨if step.siblingIsLeft then step.sibling else p, if step.siblingIsLeft then p else step.sibling,
    rightSlot, separator⟩

/-- A step in which the sibling lends. -/
def applyRedistribute (isLeaf : Bool) (p parent : PageId) (childIndex : Nat) (step : DeleteStep) :
    PoolM Unit := do
  let pair ← stepPair p parent childIndex step
  let newSeparator ← redistribute isLeaf step.siblingIsLeft pair.left pair.right pair.separator
  editInternal parent fun b => InternalNode.setKeyAt b pair.rightSlot newSeparator

/-- A step that merges right into left: the page it unlinks. -/
def applyMerge (isLeaf : Bool) (p parent : PageId) (childIndex : Nat) (step : DeleteStep) :
    PoolM PageId := do
  let pair ← stepPair p parent childIndex step
  mergeInto isLeaf pair.left pair.right pair.separator
  editInternal parent fun b => InternalNode.removeAt b pair.rightSlot
  pure pair.right

/-- The loop of `ApplyDeletePlan`: the pages it unlinks, in order. -/
def applySteps : Bool → PageId → List (PageId × Nat) → List DeleteStep → PoolM (List PageId)
  | _, _, _, [] => pure []
  | _, _, [], _ :: _ => lift none
  | isLeaf, p, (parent, childIndex) :: up, step :: steps =>
    match step.fix with
    | .redistribute => do
      applyRedistribute isLeaf p parent childIndex step
      -- a redistribute is always the last step
      check (steps = [])
      pure []
    | .merge => do
      let freed ← applyMerge isLeaf p parent childIndex step
      let rest ← applySteps false parent up steps
      pure (freed :: rest)

def applyDeletePlan (t : BPlusTree) (path : WritePath) (leaf root : PageId) (plan : DeletePlan) :
    PoolM (List PageId) := do
  let freed ← applySteps true leaf path.up plan.steps
  if plan.collapseRoot then do
    let b ← orFault (asInternal root)
    check (InternalNode.count b = 1)
    let child ← lift (InternalNode.childAt b 0)
    -- header first, then the free
    orFault (writeIndexHeader t.headerPageId
      { path.header with rootPageId := child, height := u16 (path.header.height + 65535) })
    pure (freed ++ [root])
  else pure freed

/-- The part of `Delete` that runs under the guards: the pages to free. -/
def deleteGuarded (t : BPlusTree) (key : Key) : PoolM (List PageId) := inScope do
  let path ← findLeafWrite env t key
  let leaf ← lift path.nodes.getLast?
  let root ← lift path.nodes.head?
  let b ← orFault (asLeaf leaf)
  let i ← lift (LeafNode.lowerBound b key)
  let found ← lift (if i = LeafNode.count b then some false
    else (LeafNode.keyAt b i).map fun k => decide (k = key))
  if !found then fail ⟨.notFound, s!"key {key.toInt} not in index"⟩
  else do
    let plan ← planDelete env t leaf path.up root
    editLeaf leaf fun b => LeafNode.removeAt b i
    applyDeletePlan t path leaf root plan

def delete (t : BPlusTree) (key : Key) : PoolM Unit := do
  let freed ← deleteGuarded env t key
  deleteAll env freed

end Operations
end BPlusTree
end KernSql
