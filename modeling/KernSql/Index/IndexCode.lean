import KernSql.Buffer.PoolCalls
import KernSql.Index.Run

/- The code of the index as a program over the calls of the pool.

   `BPlusTree.insert` and its like are what the code does to a page store. Here is
   the code itself, call by call, so that it can be run over the pool as well; each
   function's run over a store is the function of the same name there
   (`run_insert` and its like). -/
namespace KernSql.BPlusTree.Code
open Prog

/-! Typed access to a guarded page. -/

def asLeaf (p : PageId) : PoolProg Body := do
  let pg ← Pool.guarded p
  if pg.header.pageType ≠ .indexLeaf then fail (corruption "not a leaf page")
  else pure pg.body

def asInternal (p : PageId) : PoolProg Body := do
  let pg ← Pool.guarded p
  if pg.header.pageType ≠ .indexInternal then fail (corruption "not an internal node page")
  else pure pg.body

def readIndexHeader (p : PageId) : PoolProg IndexHeader := do
  let pg ← Pool.guarded p
  if pg.header.pageType ≠ .indexHeader then fail (corruption "not an index header page")
  else pure (IndexHeader.readFrom pg.body)

def writeIndexHeader (p : PageId) (h : IndexHeader) : PoolProg Unit := do
  let pg ← Pool.guarded p
  if pg.header.pageType ≠ .indexHeader then fail (corruption "not an index header page")
  else Pool.setBody p (h.writeTo pg.body)

def editLeaf (p : PageId) (f : Body → Option Body) : PoolProg Unit := do
  let b ← orFault (asLeaf p)
  let b' ← lift (f b)
  Pool.setBody p b'

def editInternal (p : PageId) (f : Body → Option Body) : PoolProg Unit := do
  let b ← orFault (asInternal p)
  let b' ← lift (f b)
  Pool.setBody p b'

/-! Create, open and the read path. -/

def create (leafMax internalMax : Nat) : PoolProg BPlusTree := Pool.inScope do
  if leafMax < minFanout ∨ nodeCapacity < leafMax then
    fail ⟨.invalidArgument, "leaf_max outside [MIN_FANOUT, NODE_CAPACITY]"⟩
  else if internalMax < minFanout ∨ nodeCapacity < internalMax then
    fail ⟨.invalidArgument, "internal_max outside [MIN_FANOUT, NODE_CAPACITY]"⟩
  else do
    let headerId ← Pool.newPage
    match ← attempt Pool.newPage with
    | .error e => do
      Pool.dropGuard headerId .write
      let _ ← attempt (Pool.deletePage headerId)
      fail e
    | .ok rootId => do
      Pool.setPageType rootId .indexLeaf
      let root ← asLeaf rootId
      Pool.setBody rootId (LeafNode.init root)
      Pool.setPageType headerId .indexHeader
      writeIndexHeader headerId ⟨rootId, 1, leafMax, internalMax, 0⟩
      pure ⟨headerId, leafMax, internalMax⟩

def open_ (headerPageId : PageId) : PoolProg BPlusTree := Pool.inScope do
  Pool.fetchPageRead headerPageId
  let h ← readIndexHeader headerPageId
  if !fanoutInRange h.leafMax || !fanoutInRange h.internalMax then
    fail (corruption "invalid page Fanout!")
  else pure ⟨headerPageId, h.leafMax, h.internalMax⟩

def descendRead (key : Key) : Nat → PageId → PoolProg PageId
  | 0, p => pure p
  | n + 1, p => do
    let next ← Pool.inScope do
      Pool.fetchPageRead p
      let b ← asInternal p
      let i ← lift (InternalNode.childIndexFor b key)
      lift (InternalNode.childAt b i)
    descendRead key n next

def findLeafRead (t : BPlusTree) (key : Key) : PoolProg PageId := do
  let h ← Pool.inScope do
    Pool.fetchPageRead t.headerPageId
    readIndexHeader t.headerPageId
  if h.height = 0 then fail (corruption "index header height is zero")
  else do
    let leaf ← descendRead key (h.height - 1) h.rootPageId
    Pool.fetchPageRead leaf
    pure leaf

def get (t : BPlusTree) (key : Key) : PoolProg RID := Pool.inScope do
  let leaf ← findLeafRead t key
  let b ← asLeaf leaf
  let i ← lift (LeafNode.lowerBound b key)
  if i = LeafNode.count b then fail ⟨.notFound, "key not in index"⟩
  else do
    let e ← lift (LeafNode.entryAt b i)
    if e.key ≠ key then fail ⟨.notFound, "key not in index"⟩ else pure e.rid

/-! The write path. -/

def descendWrite (key : Key) : Nat → PageId → PoolProg (List PageId × List Nat)
  | 0, p => do
    Pool.fetchPageWrite p
    let _ ← asLeaf p
    pure ([p], [])
  | n + 1, p => do
    Pool.fetchPageWrite p
    let b ← asInternal p
    let i ← lift (InternalNode.childIndexFor b key)
    let next ← lift (InternalNode.childAt b i)
    let below ← descendWrite key n next
    pure (p :: below.1, i :: below.2)

def findLeafWrite (t : BPlusTree) (key : Key) : PoolProg WritePath := do
  Pool.fetchPageWrite t.headerPageId
  let h ← readIndexHeader t.headerPageId
  if h.height = 0 then fail (corruption "tree height can't be 0")
  else do
    let path ← descendWrite key (h.height - 1) h.rootPageId
    pure ⟨h, path.1, path.2⟩

/-! Insert. -/

def countFull (t : BPlusTree) : List PageId → PoolProg Nat
  | [] => pure 0
  | p :: up => do
    let b ← orFault (asInternal p)
    if t.isInternalFull b then do
      let n ← countFull t up
      pure (n + 1)
    else pure 0

def countSplits (t : BPlusTree) : List PageId → PoolProg Nat
  | [] => lift none
  | leaf :: up => do
    let b ← orFault (asLeaf leaf)
    if t.isLeafFull b then do
      let n ← countFull t up
      pure (u16 (n + 1))
    else pure 0

def deleteAll : List PageId → PoolProg Unit
  | [] => pure ()
  | p :: ps => do
    let _ ← attempt (Pool.deletePage p)
    deleteAll ps

def dropGuards : List PageId → PoolProg Unit
  | [] => pure ()
  | p :: ps => do
    Pool.dropGuard p .write
    dropGuards ps

def allocatePages : Nat → List PageId → PoolProg (List PageId)
  | 0, pages => pure pages
  | n + 1, pages => do
    match ← attempt Pool.newPage with
    | .ok p => allocatePages n (pages ++ [p])
    | .error e => do
      dropGuards pages
      deleteAll pages
      fail e

def splitUp (t : BPlusTree) (pages : List PageId) :
    List (PageId × Nat) → Nat → Key → PageId → PoolProg (Option (Nat × Key × PageId))
  | [], nextPage, sep, rightId => pure (some (nextPage, sep, rightId))
  | (parent, childIndex) :: up, nextPage, sep, rightId => do
    let b ← orFault (asInternal parent)
    let entry : InternalEntry := ⟨sep, rightId, 0⟩
    let pos := u16 (childIndex + 1)
    if !t.isInternalFull b then do
      editInternal parent fun b => InternalNode.insertAt b pos entry
      pure none
    else do
      let right ← lift pages[nextPage]?
      Pool.setPageType right .indexInternal
      editInternal right fun r => InternalNode.init r (InternalNode.level b)
      let r ← orFault (asInternal right)
      let split ← lift (splitInternal b r pos entry)
      Pool.setBody parent split.1
      Pool.setBody right split.2.1
      splitUp t pages up (nextPage + 1) split.2.2 right

def splitLeafInto (pages : List PageId) (leaf : PageId) (index : Nat) (entry : LeafEntry) :
    PoolProg (Key × PageId) := do
  let leafRight ← lift pages[0]?
  Pool.setPageType leafRight .indexLeaf
  editLeaf leafRight fun r => some (LeafNode.init r)
  let b ← orFault (asLeaf leaf)
  let r ← orFault (asLeaf leafRight)
  let split ← lift (splitLeaf b r leafRight index entry)
  Pool.setBody leaf split.1
  Pool.setBody leafRight split.2.1
  pure (split.2.2, leafRight)

def splitPath (t : BPlusTree) (pages : List PageId) (leaf : PageId) (up : List (PageId × Nat))
    (index : Nat) (entry : LeafEntry) : PoolProg (Option (Nat × Key × PageId)) := do
  let right ← splitLeafInto pages leaf index entry
  splitUp t pages up 1 right.1 right.2

def splitAll (t : BPlusTree) (path : WritePath) (pages : List PageId) (splits : Nat) (leaf : PageId)
    (up : List (PageId × Nat)) (index : Nat) (entry : LeafEntry) : PoolProg Unit := do
  match ← splitPath t pages leaf up index entry with
  | none => pure ()
  | some (nextPage, sep, rightId) => do
    check (splits = path.nodes.length ∧ nextPage = splits)
    let root ← lift pages[nextPage]?
    Pool.setPageType root .indexInternal
    editInternal root fun b => InternalNode.init b path.header.height
    editInternal root fun b =>
      InternalNode.assign b [⟨int64Min, path.header.rootPageId, 0⟩, ⟨sep, rightId, 0⟩]
    orFault (writeIndexHeader t.headerPageId
      { path.header with rootPageId := root, height := u16 (path.header.height + 1) })

def insert (t : BPlusTree) (key : Key) (rid : RID) : PoolProg Unit := Pool.inScope do
  let path ← findLeafWrite t key
  let leaf ← lift path.nodes.getLast?
  let b ← orFault (asLeaf leaf)
  let i ← lift (LeafNode.lowerBound b key)
  let found ← lift (if i < LeafNode.count b then (LeafNode.keyAt b i).map fun k => decide (k = key)
    else some false)
  if found then fail ⟨.duplicateKey, s!"key {key.toInt} already exists"⟩
  else if !t.isLeafFull b then editLeaf leaf fun b => LeafNode.insertAt b i ⟨key, rid⟩
  else do
    let splits ← countSplits t path.nodes.reverse
    let newRoot := if splits = path.nodes.length then 1 else 0
    let pages ← allocatePages (u16 (splits + newRoot)) []
    splitAll t path pages splits leaf path.up i ⟨key, rid⟩

/-! Delete. -/

def atFloor (t : BPlusTree) (isLeaf : Bool) (p : PageId) : PoolProg Bool := do
  if isLeaf then do
    let b ← orFault (asLeaf p)
    pure (t.isLeafAtFloor b)
  else do
    let b ← orFault (asInternal p)
    pure (t.isInternalAtFloor b)

def siblingAtFloor (t : BPlusTree) (isLeaf : Bool) (p sibling : PageId) : PoolProg Bool := do
  if isLeaf then do
    let b ← asLeaf sibling
    pure (t.isLeafAtFloor b)
  else do
    let b ← asInternal sibling
    let own ← orFault (asInternal p)
    if InternalNode.level b ≠ InternalNode.level own then
      fail (corruption s!"sibling page {sibling.toInt} is at the wrong level")
    else pure (t.isInternalAtFloor b)

def planStep (t : BPlusTree) (isLeaf : Bool) (p parent : PageId) (childIndex : Nat) :
    PoolProg (Option DeleteStep) := do
  if !(← atFloor t isLeaf p) then pure none
  else do
    let pb ← orFault (asInternal parent)
    let siblingIsLeft : Bool := 0 < childIndex
    let sibling ← lift (InternalNode.childAt pb
      (u16 (if siblingIsLeft then childIndex - 1 else childIndex + 1)))
    Pool.fetchPageWrite sibling
    if !(← siblingAtFloor t isLeaf p sibling) then pure (some ⟨sibling, siblingIsLeft, .redistribute⟩)
    else pure (some ⟨sibling, siblingIsLeft, .merge⟩)

def planSteps (t : BPlusTree) : Bool → PageId → List (PageId × Nat) → PoolProg (List DeleteStep × Bool)
  | _, _, [] => pure ([], true)
  | isLeaf, p, (parent, childIndex) :: up => do
    match ← planStep t isLeaf p parent childIndex with
    | none => pure ([], false)
    | some step =>
      if step.fix = .redistribute then pure ([step], false)
      else do
        let rest ← planSteps t false parent up
        pure (step :: rest.1, rest.2)

def planDelete (t : BPlusTree) (leaf : PageId) (up : List (PageId × Nat)) (root : PageId) :
    PoolProg DeletePlan := do
  let plan ← planSteps t true leaf up
  if plan.2 && !plan.1.isEmpty then do
    let b ← orFault (asInternal root)
    pure ⟨plan.1, InternalNode.count b = 2⟩
  else pure ⟨plan.1, false⟩

def redistribute (isLeaf siblingIsLeft : Bool) (left right : PageId) (separator : Key) : PoolProg Key := do
  if isLeaf then do
    let l ← orFault (asLeaf left)
    let r ← orFault (asLeaf right)
    let out ← lift (if siblingIsLeft then rotateLeafRight l r else rotateLeafLeft l r)
    Pool.setBody left out.1
    Pool.setBody right out.2.1
    pure out.2.2
  else do
    let l ← orFault (asInternal left)
    let r ← orFault (asInternal right)
    let out ← lift (if siblingIsLeft then rotateInternalRight l r separator
      else rotateInternalLeft l r separator)
    Pool.setBody left out.1
    Pool.setBody right out.2.1
    pure out.2.2

def mergeInto (isLeaf : Bool) (left right : PageId) (separator : Key) : PoolProg Unit := do
  if isLeaf then do
    let r ← orFault (asLeaf right)
    editLeaf left fun l => mergeLeaf l r
  else do
    let r ← orFault (asInternal right)
    editInternal left fun l => mergeInternal l r separator

def stepPair (p parent : PageId) (childIndex : Nat) (step : DeleteStep) : PoolProg StepPair := do
  let pb ← orFault (asInternal parent)
  let rightSlot := u16 (if step.siblingIsLeft then childIndex else childIndex + 1)
  let separator ← lift (InternalNode.keyAt pb rightSlot)
  pure ⟨if step.siblingIsLeft then step.sibling else p, if step.siblingIsLeft then p else step.sibling,
    rightSlot, separator⟩

def applyRedistribute (isLeaf : Bool) (p parent : PageId) (childIndex : Nat) (step : DeleteStep) :
    PoolProg Unit := do
  let pair ← stepPair p parent childIndex step
  let newSeparator ← redistribute isLeaf step.siblingIsLeft pair.left pair.right pair.separator
  editInternal parent fun b => InternalNode.setKeyAt b pair.rightSlot newSeparator

def applyMerge (isLeaf : Bool) (p parent : PageId) (childIndex : Nat) (step : DeleteStep) :
    PoolProg PageId := do
  let pair ← stepPair p parent childIndex step
  mergeInto isLeaf pair.left pair.right pair.separator
  editInternal parent fun b => InternalNode.removeAt b pair.rightSlot
  pure pair.right

def applySteps : Bool → PageId → List (PageId × Nat) → List DeleteStep → PoolProg (List PageId)
  | _, _, _, [] => pure []
  | _, _, [], _ :: _ => lift none
  | isLeaf, p, (parent, childIndex) :: up, step :: steps =>
    match step.fix with
    | .redistribute => do
      applyRedistribute isLeaf p parent childIndex step
      check (steps = [])
      pure []
    | .merge => do
      let freed ← applyMerge isLeaf p parent childIndex step
      let rest ← applySteps false parent up steps
      pure (freed :: rest)

def applyDeletePlan (t : BPlusTree) (path : WritePath) (leaf root : PageId) (plan : DeletePlan) :
    PoolProg (List PageId) := do
  let freed ← applySteps true leaf path.up plan.steps
  if plan.collapseRoot then do
    let b ← orFault (asInternal root)
    check (InternalNode.count b = 1)
    let child ← lift (InternalNode.childAt b 0)
    orFault (writeIndexHeader t.headerPageId
      { path.header with rootPageId := child, height := u16 (path.header.height + 65535) })
    pure (freed ++ [root])
  else pure freed

def deleteGuarded (t : BPlusTree) (key : Key) : PoolProg (List PageId) := Pool.inScope do
  let path ← findLeafWrite t key
  let leaf ← lift path.nodes.getLast?
  let root ← lift path.nodes.head?
  let b ← orFault (asLeaf leaf)
  let i ← lift (LeafNode.lowerBound b key)
  let found ← lift (if i = LeafNode.count b then some false
    else (LeafNode.keyAt b i).map fun k => decide (k = key))
  if !found then fail ⟨.notFound, s!"key {key.toInt} not in index"⟩
  else do
    let plan ← planDelete t leaf path.up root
    editLeaf leaf fun b => LeafNode.removeAt b i
    applyDeletePlan t path leaf root plan

def delete (t : BPlusTree) (key : Key) : PoolProg Unit := do
  let freed ← deleteGuarded t key
  deleteAll freed

/-! The runs over a page store. -/

section Store
variable (env : PoolEnv)

@[simp] theorem run_asLeaf (p : PageId) : (asLeaf p).run (PageStore.answer env) = KernSql.asLeaf p := by
  simp [asLeaf, KernSql.asLeaf]

@[simp] theorem run_asInternal (p : PageId) : (asInternal p).run (PageStore.answer env) = KernSql.asInternal p := by
  simp [asInternal, KernSql.asInternal]

@[simp] theorem run_readIndexHeader (p : PageId) :
    (readIndexHeader p).run (PageStore.answer env) = KernSql.readIndexHeader p := by
  simp [readIndexHeader, KernSql.readIndexHeader]

@[simp] theorem run_writeIndexHeader (p : PageId) (h : IndexHeader) :
    (writeIndexHeader p h).run (PageStore.answer env) = KernSql.writeIndexHeader p h := by
  simp [writeIndexHeader, KernSql.writeIndexHeader]

@[simp] theorem run_editLeaf (p : PageId) (f : Body → Option Body) :
    (editLeaf p f).run (PageStore.answer env) = KernSql.editLeaf p f := by
  simp [editLeaf, KernSql.editLeaf]

@[simp] theorem run_editInternal (p : PageId) (f : Body → Option Body) :
    (editInternal p f).run (PageStore.answer env) = KernSql.editInternal p f := by
  simp [editInternal, KernSql.editInternal]

@[simp] theorem run_create (leafMax internalMax : Nat) :
    (create leafMax internalMax).run (PageStore.answer env) = BPlusTree.create env leafMax internalMax := by
  simp only [create, BPlusTree.create, Pool.run_inScope, run_ite, run_fail, run_bind, Pool.run_newPage, run_attempt]
  congr 4
  funext headerId
  congr 1
  funext r
  cases r <;> simp

@[simp] theorem run_open (headerPageId : PageId) :
    (open_ headerPageId).run (PageStore.answer env) = BPlusTree.open_ env headerPageId := by
  simp [open_, BPlusTree.open_]

@[simp] theorem run_descendRead (key : Key) : ∀ (n : Nat) (p : PageId),
    (descendRead key n p).run (PageStore.answer env) = BPlusTree.descendRead env key n p
  | 0, p => rfl
  | n + 1, p => by simp [descendRead, BPlusTree.descendRead, run_descendRead key n]

@[simp] theorem run_findLeafRead (t : BPlusTree) (key : Key) :
    (findLeafRead t key).run (PageStore.answer env) = BPlusTree.findLeafRead env t key := by
  simp [findLeafRead, BPlusTree.findLeafRead]

@[simp] theorem run_get (t : BPlusTree) (key : Key) :
    (get t key).run (PageStore.answer env) = BPlusTree.get env t key := by
  simp [get, BPlusTree.get]

@[simp] theorem run_descendWrite (key : Key) : ∀ (n : Nat) (p : PageId),
    (descendWrite key n p).run (PageStore.answer env) = BPlusTree.descendWrite env key n p
  | 0, p => by simp [descendWrite, BPlusTree.descendWrite]
  | n + 1, p => by simp [descendWrite, BPlusTree.descendWrite, run_descendWrite key n]

@[simp] theorem run_findLeafWrite (t : BPlusTree) (key : Key) :
    (findLeafWrite t key).run (PageStore.answer env) = BPlusTree.findLeafWrite env t key := by
  simp [findLeafWrite, BPlusTree.findLeafWrite]

@[simp] theorem run_countFull (t : BPlusTree) : ∀ ps : List PageId,
    (countFull t ps).run (PageStore.answer env) = BPlusTree.countFull t ps
  | [] => rfl
  | p :: up => by simp [countFull, BPlusTree.countFull, run_countFull t up]

@[simp] theorem run_countSplits (t : BPlusTree) (ps : List PageId) :
    (countSplits t ps).run (PageStore.answer env) = BPlusTree.countSplits t ps := by
  cases ps <;> simp [countSplits, BPlusTree.countSplits]

@[simp] theorem run_deleteAll : ∀ ps : List PageId,
    (deleteAll ps).run (PageStore.answer env) = BPlusTree.deleteAll env ps
  | [] => rfl
  | p :: ps => by simp [deleteAll, BPlusTree.deleteAll, run_deleteAll ps]

@[simp] theorem run_dropGuards : ∀ ps : List PageId,
    (dropGuards ps).run (PageStore.answer env) = BPlusTree.dropGuards ps
  | [] => rfl
  | p :: ps => by simp [dropGuards, BPlusTree.dropGuards, run_dropGuards ps]

@[simp] theorem run_allocatePages : ∀ (n : Nat) (pages : List PageId),
    (allocatePages n pages).run (PageStore.answer env) = BPlusTree.allocatePages env n pages
  | 0, pages => rfl
  | n + 1, pages => by
    simp only [allocatePages, BPlusTree.allocatePages, run_bind, run_attempt, Pool.run_newPage]
    congr 1
    funext r
    cases r with
    | ok p => exact run_allocatePages n _
    | error e => simp

@[simp] theorem run_splitUp (t : BPlusTree) (pages : List PageId) :
    ∀ (up : List (PageId × Nat)) (nextPage : Nat) (sep : Key) (rightId : PageId),
      (splitUp t pages up nextPage sep rightId).run (PageStore.answer env) =
        BPlusTree.splitUp t pages up nextPage sep rightId
  | [], nextPage, sep, rightId => rfl
  | (parent, childIndex) :: up, nextPage, sep, rightId => by
    simp [splitUp, BPlusTree.splitUp, run_splitUp t pages up]

@[simp] theorem run_splitLeafInto (pages : List PageId) (leaf : PageId) (index : Nat) (entry : LeafEntry) :
    (splitLeafInto pages leaf index entry).run (PageStore.answer env) =
      BPlusTree.splitLeafInto pages leaf index entry := by
  simp [splitLeafInto, BPlusTree.splitLeafInto]

@[simp] theorem run_splitPath (t : BPlusTree) (pages : List PageId) (leaf : PageId) (up : List (PageId × Nat))
    (index : Nat) (entry : LeafEntry) : (splitPath t pages leaf up index entry).run (PageStore.answer env) =
      BPlusTree.splitPath t pages leaf up index entry := by
  simp [splitPath, BPlusTree.splitPath]

@[simp] theorem run_splitAll (t : BPlusTree) (path : WritePath) (pages : List PageId) (splits : Nat) (leaf : PageId)
    (up : List (PageId × Nat)) (index : Nat) (entry : LeafEntry) :
    (splitAll t path pages splits leaf up index entry).run (PageStore.answer env) =
      BPlusTree.splitAll t path pages splits leaf up index entry := by
  simp only [splitAll, BPlusTree.splitAll, run_bind, run_splitPath]
  congr 1
  funext r
  cases r with
  | none => rfl
  | some x => simp

@[simp] theorem run_insert (t : BPlusTree) (key : Key) (rid : RID) :
    (insert t key rid).run (PageStore.answer env) = BPlusTree.insert env t key rid := by
  simp [insert, BPlusTree.insert]

@[simp] theorem run_atFloor (t : BPlusTree) (isLeaf : Bool) (p : PageId) :
    (atFloor t isLeaf p).run (PageStore.answer env) = BPlusTree.atFloor t isLeaf p := by
  simp [atFloor, BPlusTree.atFloor]

@[simp] theorem run_siblingAtFloor (t : BPlusTree) (isLeaf : Bool) (p sibling : PageId) :
    (siblingAtFloor t isLeaf p sibling).run (PageStore.answer env) = BPlusTree.siblingAtFloor t isLeaf p sibling := by
  simp [siblingAtFloor, BPlusTree.siblingAtFloor]

@[simp] theorem run_planStep (t : BPlusTree) (isLeaf : Bool) (p parent : PageId) (childIndex : Nat) :
    (planStep t isLeaf p parent childIndex).run (PageStore.answer env) =
      BPlusTree.planStep env t isLeaf p parent childIndex := by
  simp [planStep, BPlusTree.planStep]

@[simp] theorem run_planSteps (t : BPlusTree) : ∀ (isLeaf : Bool) (p : PageId) (up : List (PageId × Nat)),
    (planSteps t isLeaf p up).run (PageStore.answer env) = BPlusTree.planSteps env t isLeaf p up
  | _, _, [] => rfl
  | isLeaf, p, (parent, childIndex) :: up => by
    simp only [planSteps, BPlusTree.planSteps, run_bind, run_planStep]
    congr 1
    funext r
    cases r with
    | none => rfl
    | some step => simp [run_planSteps t false parent up]

@[simp] theorem run_planDelete (t : BPlusTree) (leaf : PageId) (up : List (PageId × Nat)) (root : PageId) :
    (planDelete t leaf up root).run (PageStore.answer env) = BPlusTree.planDelete env t leaf up root := by
  simp [planDelete, BPlusTree.planDelete]

@[simp] theorem run_redistribute (isLeaf siblingIsLeft : Bool) (left right : PageId) (separator : Key) :
    (redistribute isLeaf siblingIsLeft left right separator).run (PageStore.answer env) =
      BPlusTree.redistribute isLeaf siblingIsLeft left right separator := by
  simp [redistribute, BPlusTree.redistribute]

@[simp] theorem run_mergeInto (isLeaf : Bool) (left right : PageId) (separator : Key) :
    (mergeInto isLeaf left right separator).run (PageStore.answer env) =
      BPlusTree.mergeInto isLeaf left right separator := by
  simp [mergeInto, BPlusTree.mergeInto]

@[simp] theorem run_stepPair (p parent : PageId) (childIndex : Nat) (step : DeleteStep) :
    (stepPair p parent childIndex step).run (PageStore.answer env) = BPlusTree.stepPair p parent childIndex step := by
  simp [stepPair, BPlusTree.stepPair]

@[simp] theorem run_applyRedistribute (isLeaf : Bool) (p parent : PageId) (childIndex : Nat) (step : DeleteStep) :
    (applyRedistribute isLeaf p parent childIndex step).run (PageStore.answer env) =
      BPlusTree.applyRedistribute isLeaf p parent childIndex step := by
  simp [applyRedistribute, BPlusTree.applyRedistribute]

@[simp] theorem run_applyMerge (isLeaf : Bool) (p parent : PageId) (childIndex : Nat) (step : DeleteStep) :
    (applyMerge isLeaf p parent childIndex step).run (PageStore.answer env) =
      BPlusTree.applyMerge isLeaf p parent childIndex step := by
  simp [applyMerge, BPlusTree.applyMerge]

@[simp] theorem run_applySteps : ∀ (isLeaf : Bool) (p : PageId) (up : List (PageId × Nat)) (steps : List DeleteStep),
    (applySteps isLeaf p up steps).run (PageStore.answer env) = BPlusTree.applySteps isLeaf p up steps
  | _, _, [], [] => rfl
  | _, _, _ :: _, [] => rfl
  | _, _, [], _ :: _ => by simp [applySteps, BPlusTree.applySteps]
  | isLeaf, p, (parent, childIndex) :: up, step :: steps => by
    simp only [applySteps, BPlusTree.applySteps]
    cases step.fix with
    | redistribute => simp
    | merge => simp [run_applySteps false parent up steps]

@[simp] theorem run_applyDeletePlan (t : BPlusTree) (path : WritePath) (leaf root : PageId) (plan : DeletePlan) :
    (applyDeletePlan t path leaf root plan).run (PageStore.answer env) =
      BPlusTree.applyDeletePlan t path leaf root plan := by
  simp [applyDeletePlan, BPlusTree.applyDeletePlan]

@[simp] theorem run_deleteGuarded (t : BPlusTree) (key : Key) :
    (deleteGuarded t key).run (PageStore.answer env) = BPlusTree.deleteGuarded env t key := by
  simp [deleteGuarded, BPlusTree.deleteGuarded]

@[simp] theorem run_delete (t : BPlusTree) (key : Key) :
    (delete t key).run (PageStore.answer env) = BPlusTree.delete env t key := by
  simp [delete, BPlusTree.delete]

end Store

def perform (t : BPlusTree) : Op → PoolProg (Option RID)
  | .insert key rid => do
    insert t key rid
    pure none
  | .delete key => do
    delete t key
    pure none
  | .get key => do
    let rid ← get t key
    pure (some rid)

@[simp] theorem run_perform (env : PoolEnv) (t : BPlusTree) (op : Op) :
    (perform t op).run (PageStore.answer env) = BPlusTree.perform env t op := by
  cases op <;> simp [perform, BPlusTree.perform]

end KernSql.BPlusTree.Code
