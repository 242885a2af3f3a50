import KernSql.Buffer.PoolCalls
import KernSql.Heap.TableScan

/- The code of table heaps as programs over the calls of the pool.

   As for the index (`BPlusTree.Code`): the operations of `TableHeap` are the runs of
   this code over a page store. A table has fields of its own, so its programs read
   and set them between calls. Under the guard discipline a table never holds more
   than two guards, the last page's and that of the page it is about to link; a scan
   holds one. -/
namespace KernSql
open Prog
open Pool (KeepsGuards ObjectKeeps)

namespace TableHeap.Code

def asHeapPage (p : PageId) : PoolProg Unit := do
  let pg ← Pool.guarded p
  if pg.header.pageType ≠ .heap then fail ⟨.corruption, "page is not a heap page"⟩

/-- The page's operation may fail after it has changed the bytes. -/
def onBody {α : Type} (p : PageId) (m : HeapPage.PageM α) : PoolProg α := do
  let pg ← Pool.guarded p
  match m pg.body with
  | none => .fault
  | some (r, b) => do
    Pool.setBody p b
    .ret r

section Operations
variable (build : Build)

def create : PoolProg TableHeap := Pool.inScope do
  let p ← Pool.newPage
  Pool.setPageType p .heap
  Pool.setNextPageId p invalidPage
  asHeapPage p
  onBody p HeapPage.init
  pure ⟨p, p, p⟩

def probe (p : PageId) (tuple : List UInt8) : PoolProg Probe := Pool.inScope do
  match ← attempt (Pool.fetchPageWrite p) with
  | .error e => pure (.unusable e)
  | .ok _ =>
    match ← attempt (asHeapPage p) with
    | .error e => pure (.unusable e)
    | .ok _ =>
      match ← onBody p (tryInsertOnPage build tuple compactThreshold) with
      | some slot => pure (.landed slot)
      | none => do
        let pg ← Pool.guarded p
        pure (.full pg.header.nextPageId)

def probes (tuple : List UInt8) : Nat → PageId → Bool → ObjectProg TableHeap (Option RID)
  | 0, _, _ => pure none
  | n + 1, p, fromHint => do
    if p = invalidPage then pure none
    else do
      let t ← Pool.self
      let hintRecoverable := fromHint && p ≠ t.firstPageId
      match ← Pool.onPool (probe build p tuple) with
      | .unusable e => if hintRecoverable then probes tuple n t.firstPageId false else fail e
      | .landed slot => do
        Pool.setSelf { t with insertHint := p }
        pure (some ⟨p, slot⟩)
      | .full next => do
        let p' := if next = invalidPage then t.firstPageId else next
        Pool.setSelf { t with insertHint := p' }
        probes tuple n p' false

def appendAt (last : PageId) (tuple : List UInt8) : PoolProg Append := Pool.inScope do
  Pool.fetchPageWrite last
  let pg ← Pool.guarded last
  if pg.header.nextPageId ≠ invalidPage then pure (.follow pg.header.nextPageId)
  else do
    asHeapPage last
    match ← onBody last (tryInsertOnPage build tuple 0) with
    | some slot => pure (.landed slot)
    | none => do
      let newId ← Pool.newPage
      Pool.setPageType newId .heap
      Pool.setNextPageId newId invalidPage
      asHeapPage newId
      onBody newId HeapPage.init
      let slot ← onBody newId (HeapPage.insert build tuple)
      Pool.setNextPageId last newId
      pure (.extended newId slot)

def append (tuple : List UInt8) : Nat → PageId → ObjectProg TableHeap RID
  | 0, _ => lift none
  | fuel + 1, last => do
    match ← Pool.onPool (appendAt build last tuple) with
    | .follow next => append tuple fuel next
    | .landed slot => do
      let t ← Pool.self
      Pool.setSelf { t with insertHint := last }
      pure ⟨last, slot⟩
    | .extended newId slot => do
      let t ← Pool.self
      Pool.setSelf { t with lastPageId := newId, insertHint := newId }
      pure ⟨newId, slot⟩

def insert (fuel : Nat) (tuple : List UInt8) : ObjectProg TableHeap RID := do
  if tuple = [] then fail ⟨.invalidArgument, "cannot insert a zero-length tuple"⟩
  else if maxTupleSize < tuple.length then fail ⟨.invalidArgument, "tuple exceeds the maximum tuple size"⟩
  else do
    let t ← Pool.self
    let start := if t.insertHint = invalidPage then t.firstPageId else t.insertHint
    match ← probes build tuple insertProbeLimit start true with
    | some rid => pure rid
    | none => do
      let t ← Pool.self
      append build tuple fuel t.lastPageId

def get (rid : RID) : ObjectProg TableHeap (List UInt8) := Pool.onPool <| Pool.inScope do
  Pool.fetchPageRead rid.pageId
  asHeapPage rid.pageId
  let pg ← Pool.guarded rid.pageId
  match ← lift (ConstHeapPage.get build pg.body rid.slot) with
  | .error e => fail e
  | .ok bytes => pure bytes

/-- The part of `Delete` and `Update` that works on one row under its page's guard. -/
def onRow {α : Type} (p : PageId) (m : HeapPage.PageM α) : PoolProg α := Pool.inScope do
  Pool.fetchPageWrite p
  asHeapPage p
  onBody p m

def delete (rid : RID) : ObjectProg TableHeap Unit := do
  Pool.onPool (onRow rid.pageId (HeapPage.delete build rid.slot))
  let t ← Pool.self
  Pool.setSelf { t with insertHint := rid.pageId }

def update (fuel : Nat) (rid : RID) (tuple : List UInt8) : ObjectProg TableHeap RID := do
  let outcome ← Pool.onPool (onRow rid.pageId (HeapPage.update build rid.slot tuple))
  match outcome with
  | .samePage => pure rid
  | .doesNotFit => do
    let newRid ← insert build fuel tuple
    match ← attempt (delete build rid) with
    | .ok _ => pure newRid
    | .error e =>
      if e.code ≠ .notFound then
        fail ⟨.internal, "update relocated the row but could not remove the original; it is now duplicated"⟩
      else pure newRid

def perform (fuel : Nat) : Op → ObjectProg TableHeap Answer
  | .insert tuple => do let r ← insert build fuel tuple; pure (.rid r)
  | .get rid => do let bs ← get build rid; pure (.bytes bs)
  | .delete rid => do delete build rid; pure .done
  | .update rid tuple => do let r ← update build fuel rid tuple; pure (.rid r)
  | .reopen last => do
    let t ← Pool.self
    Pool.setSelf (open_ t.firstPageId last)
    pure .done

end Operations

/-! The runs over a page store. -/

section Store
variable (env : PoolEnv) (build : Build)

@[simp] theorem run_asHeapPage (p : PageId) : (asHeapPage p).run (PageStore.answer env) = KernSql.asHeapPage p := by
  simp [asHeapPage, KernSql.asHeapPage]

@[simp] theorem run_onBody {α : Type} (p : PageId) (m : HeapPage.PageM α) :
    (onBody p m).run (PageStore.answer env) = KernSql.onBody p m := by
  unfold onBody
  rw [run_bind, Pool.run_guarded]
  funext s
  unfold KernSql.onBody
  cases hp : s.pages p with
  | none => exact Exec.bind_of_none (by rw [guarded, hp]; rfl)
  | some pg =>
    rw [Exec.bind_of_ok (show guarded p s = some (.ok pg, s) by rw [guarded, hp]; rfl)]
    dsimp only
    cases hm : m pg.body with
    | none => rfl
    | some x =>
      obtain ⟨r, b⟩ := x
      dsimp only
      rw [run_bind, Pool.run_setBody]
      refine Exec.bind_of_ok (a := ()) ?_
      rw [KernSql.setBody, Exec.bind_of_ok (show guarded p s = some (.ok pg, s) by rw [guarded, hp]; rfl)]
      rfl

@[simp] theorem run_create : create.run (PageStore.answer env) = TableHeap.create env := by
  simp [create, TableHeap.create]

@[simp] theorem run_probe (p : PageId) (tuple : List UInt8) :
    (probe build p tuple).run (PageStore.answer env) = TableHeap.probe env build p tuple := by
  simp only [probe, TableHeap.probe, Pool.run_inScope, run_bind, run_attempt, Pool.run_fetchPageWrite]
  congr 2
  funext r
  cases r with
  | error e => rfl
  | ok _ =>
    simp only [run_bind, run_attempt, run_asHeapPage]
    congr 1
    funext r
    cases r with
    | error e => rfl
    | ok _ =>
      simp only [run_bind, run_onBody]
      congr 1
      funext r
      cases r <;> simp

@[simp] theorem run_probes (tuple : List UInt8) : ∀ (n : Nat) (p : PageId) (fromHint : Bool),
    (probes build tuple n p fromHint).run (Pool.objectAnswer TableHeap env) =
      TableHeap.probes env build tuple n p fromHint
  | 0, _, _ => rfl
  | n + 1, p, fromHint => by
    simp only [probes, TableHeap.probes, run_ite, run_bind, Pool.run_self, Pool.run_onPool, run_probe, run_pure]
    congr 2
    funext t
    congr 1
    funext r
    cases r with
    | unusable e => simp [run_probes tuple n]
    | landed slot => simp
    | full next => simp [run_probes tuple n]

@[simp] theorem run_appendAt (last : PageId) (tuple : List UInt8) :
    (appendAt build last tuple).run (PageStore.answer env) = TableHeap.appendAt env build last tuple := by
  simp only [appendAt, TableHeap.appendAt, Pool.run_inScope, run_bind, Pool.run_fetchPageWrite, Pool.run_guarded,
    run_ite, run_pure, run_asHeapPage, run_onBody]
  congr 2
  funext _
  congr 1
  funext pg
  congr 2
  funext _
  congr 1
  funext r
  cases r <;> simp

@[simp] theorem run_append (tuple : List UInt8) : ∀ (fuel : Nat) (last : PageId),
    (append build tuple fuel last).run (Pool.objectAnswer TableHeap env) = TableHeap.append env build tuple fuel last
  | 0, _ => by simp [append, TableHeap.append]
  | fuel + 1, last => by
    simp only [append, TableHeap.append, run_bind, Pool.run_onPool, run_appendAt]
    congr 1
    funext r
    cases r with
    | follow next => exact run_append tuple fuel next
    | landed slot => simp
    | extended newId slot => simp

@[simp] theorem run_insert (fuel : Nat) (tuple : List UInt8) :
    (insert build fuel tuple).run (Pool.objectAnswer TableHeap env) = TableHeap.insert env build fuel tuple := by
  simp only [insert, TableHeap.insert, run_ite, run_fail, run_bind, Pool.run_self, run_probes]
  congr 3
  funext t
  congr 1
  funext r
  cases r <;> simp

@[simp] theorem run_get (rid : RID) :
    (get build rid).run (Pool.objectAnswer TableHeap env) = TableHeap.get env build rid := by
  simp only [get, TableHeap.get, Pool.run_onPool, Pool.run_inScope, run_bind, Pool.run_fetchPageRead, run_asHeapPage,
    Pool.run_guarded, run_lift]
  congr 3
  funext _
  congr 1
  funext _
  congr 1
  funext pg
  congr 1
  funext r
  cases r <;> rfl

@[simp] theorem run_onRow {α : Type} (p : PageId) (m : HeapPage.PageM α) :
    (onRow p m).run (PageStore.answer env) = inScope (do
      KernSql.fetchPageWrite env p
      KernSql.asHeapPage p
      KernSql.onBody p m) := by
  simp [onRow]

@[simp] theorem run_delete (rid : RID) :
    (delete build rid).run (Pool.objectAnswer TableHeap env) = TableHeap.delete env build rid := by
  simp [delete, TableHeap.delete]

@[simp] theorem run_update (fuel : Nat) (rid : RID) (tuple : List UInt8) :
    (update build fuel rid tuple).run (Pool.objectAnswer TableHeap env) = TableHeap.update env build fuel rid tuple := by
  simp only [update, TableHeap.update, run_bind, Pool.run_onPool, run_onRow]
  congr 1
  funext outcome
  cases outcome with
  | samePage => rfl
  | doesNotFit =>
    simp only [run_bind, run_insert, run_attempt, run_delete]
    congr 1
    funext newRid
    congr 1
    funext r
    cases r <;> simp

@[simp] theorem run_perform (fuel : Nat) (op : Op) :
    (perform build fuel op).run (Pool.objectAnswer TableHeap env) = TableHeap.perform env build fuel op := by
  cases op <;> simp [perform, TableHeap.perform]

end Store

/-! The guard discipline, whatever the pages contain. -/

section Discipline
variable {limit : Option Nat} {g : List Guard} {p : PageId} {latch : Latch} {E : Status → List Guard → Prop}
  {build : Build} {α : Type}

theorem follows_asHeapPage {Q : Unit → List Guard → Prop} (hg : ⟨p, latch⟩ ∈ g) (hQ : Q () g) (hE : ∀ e, E e g) :
    (asHeapPage p).Follows (guardProtocol limit) Q E g := by
  unfold asHeapPage
  rw [follows_bind]
  apply Pool.follows_guarded hg
  intro pg
  rw [follows_ite]
  exact ⟨fun _ => hE _, fun _ => hQ⟩

theorem follows_onBody {m : HeapPage.PageM α} {Q : α → List Guard → Prop} (hg : ⟨p, .write⟩ ∈ g) (hQ : ∀ a, Q a g)
    (hE : ∀ e, E e g) : (onBody p m).Follows (guardProtocol limit) Q E g := by
  unfold onBody
  rw [follows_bind]
  apply Pool.follows_guarded hg
  intro pg
  rcases m pg.body with _ | ⟨r, b⟩
  · trivial
  · dsimp only
    rw [follows_bind]
    apply Pool.follows_setBody hg
    cases r with
    | ok a => exact hQ a
    | error e => exact hE e

theorem follows_create (hk : ∀ k ∈ limit, g.length < k) :
    KeepsGuards limit create g := by
  refine Pool.follows_inScope ?_
  rw [follows_bind]
  refine Pool.follows_newPage hk (fun p hp => ?_) fun _ => ⟨List.suffix_rfl, rfl⟩
  have hown : ⟨p, .write⟩ ∈ ⟨p, .write⟩ :: g := List.mem_cons_self
  rw [follows_bind]
  refine Pool.follows_setPageType hown hp (by decide) ?_
  rw [follows_bind]
  refine Pool.follows_setNextPageId hown ?_
  rw [follows_bind]
  refine follows_asHeapPage hown ?_ fun _ => ⟨List.suffix_cons _ _, rfl⟩
  rw [follows_bind]
  exact follows_onBody hown (fun _ => ⟨List.suffix_cons _ _, rfl⟩) fun _ => ⟨List.suffix_cons _ _, rfl⟩

theorem follows_probe {tuple : List UInt8} (hk : ∀ k ∈ limit, g.length < k) :
    KeepsGuards limit (probe build p tuple) g := by
  refine Pool.follows_inScope ?_
  rw [follows_bind, follows_attempt]
  refine Pool.follows_fetchPage hk ?_ fun _ => ⟨List.suffix_rfl, rfl⟩
  have hown : ⟨p, .write⟩ ∈ ⟨p, .write⟩ :: g := List.mem_cons_self
  dsimp only
  rw [follows_bind, follows_attempt]
  refine follows_asHeapPage hown ?_ fun _ => ⟨List.suffix_cons _ _, rfl⟩
  dsimp only
  rw [follows_bind]
  refine follows_onBody hown (fun r => ?_) fun _ => ⟨List.suffix_cons _ _, rfl⟩
  cases r with
  | some slot => exact ⟨List.suffix_cons _ _, rfl⟩
  | none =>
    dsimp only
    rw [follows_bind]
    exact Pool.follows_guarded hown fun _ => ⟨List.suffix_cons _ _, rfl⟩

/-- The only place with two guards: the last page's is held while the new page is made and linked. -/
theorem follows_appendAt {tuple : List UInt8} (hk : ∀ k ∈ limit, g.length + 1 < k) :
    KeepsGuards limit (appendAt build p tuple) g := by
  have hfirst : ∀ k ∈ limit, g.length < k := fun k hmem => Nat.lt_of_succ_lt (hk k hmem)
  refine Pool.follows_inScope ?_
  rw [follows_bind]
  refine Pool.follows_fetchPage hfirst ?_ fun _ => ⟨List.suffix_rfl, rfl⟩
  have hown : ⟨p, .write⟩ ∈ ⟨p, .write⟩ :: g := List.mem_cons_self
  rw [follows_bind]
  refine Pool.follows_guarded hown fun pg => ?_
  rw [follows_ite]
  refine ⟨fun _ => ⟨List.suffix_cons _ _, rfl⟩, fun _ => ?_⟩
  rw [follows_bind]
  refine follows_asHeapPage hown ?_ fun _ => ⟨List.suffix_cons _ _, rfl⟩
  rw [follows_bind]
  refine follows_onBody hown (fun r => ?_) fun _ => ⟨List.suffix_cons _ _, rfl⟩
  cases r with
  | some slot => exact ⟨List.suffix_cons _ _, rfl⟩
  | none =>
    dsimp only
    rw [follows_bind]
    refine Pool.follows_newPage hk (fun new hnew => ?_) fun _ => ⟨List.suffix_cons _ _, rfl⟩
    have hsuf : g <:+ ⟨new, .write⟩ :: ⟨p, .write⟩ :: g := (List.suffix_cons _ _).trans (List.suffix_cons _ _)
    have hmine : ⟨new, .write⟩ ∈ ⟨new, .write⟩ :: ⟨p, .write⟩ :: g := List.mem_cons_self
    rw [follows_bind]
    refine Pool.follows_setPageType hmine hnew (by decide) ?_
    rw [follows_bind]
    refine Pool.follows_setNextPageId hmine ?_
    rw [follows_bind]
    refine follows_asHeapPage hmine ?_ fun _ => ⟨hsuf, rfl⟩
    rw [follows_bind]
    refine follows_onBody hmine (fun _ => ?_) fun _ => ⟨hsuf, rfl⟩
    rw [follows_bind]
    refine follows_onBody hmine (fun _ => ?_) fun _ => ⟨hsuf, rfl⟩
    rw [follows_bind]
    exact Pool.follows_setNextPageId (List.mem_cons_of_mem _ hown) ⟨hsuf, rfl⟩

theorem follows_onRow {m : HeapPage.PageM α} (hk : ∀ k ∈ limit, g.length < k) :
    KeepsGuards limit (onRow p m) g := by
  refine Pool.follows_inScope ?_
  rw [follows_bind]
  refine Pool.follows_fetchPage hk ?_ fun _ => ⟨List.suffix_rfl, rfl⟩
  rw [follows_bind]
  refine follows_asHeapPage List.mem_cons_self ?_ fun _ => ⟨List.suffix_cons _ _, rfl⟩
  exact follows_onBody List.mem_cons_self (fun _ => ⟨List.suffix_cons _ _, rfl⟩) fun _ => ⟨List.suffix_cons _ _, rfl⟩

end Discipline

section Operations
variable {limit : Option Nat} {g : List Guard × TableHeap} {build : Build} {tuple : List UInt8} {fuel : Nat} {rid : RID}

theorem follows_probes {gs : List Guard} (hk : ∀ k ∈ limit, gs.length < k) :
    ∀ (n : Nat) (p : PageId) (fromHint : Bool) (o : TableHeap),
    ObjectKeeps limit (probes build tuple n p fromHint) (gs, o)
  | 0, _, _, _ => rfl
  | n + 1, p, fromHint, o => by
    unfold ObjectKeeps probes
    rw [follows_ite]
    refine ⟨fun _ => rfl, fun _ => ?_⟩
    rw [follows_bind]
    refine Pool.follows_self ?_
    refine Pool.ObjectKeeps.bind (Pool.objectKeeps_onPool (follows_probe hk)) fun r o' => ?_
    cases r with
    | unusable e =>
      unfold ObjectKeeps
      dsimp only
      rw [follows_ite]
      exact ⟨fun _ => follows_probes hk n _ _ o', fun _ => rfl⟩
    | landed slot =>
      unfold ObjectKeeps
      dsimp only
      rw [follows_bind]
      exact Pool.follows_setSelf rfl
    | full next =>
      unfold ObjectKeeps
      dsimp only
      rw [follows_bind]
      exact Pool.follows_setSelf (follows_probes hk n _ _ _)

theorem follows_append {gs : List Guard} (hk : ∀ k ∈ limit, gs.length + 1 < k) :
    ∀ (fuel : Nat) (last : PageId) (o : TableHeap), ObjectKeeps limit (append build tuple fuel last) (gs, o)
  | 0, _, _ => trivial
  | fuel + 1, last, o => by
    unfold append
    refine Pool.ObjectKeeps.bind (Pool.objectKeeps_onPool (follows_appendAt hk)) fun r o' => ?_
    cases r with
    | follow next => exact follows_append hk fuel next o'
    | landed slot =>
      unfold ObjectKeeps
      dsimp only
      rw [follows_bind]
      refine Pool.follows_self ?_
      rw [follows_bind]
      exact Pool.follows_setSelf rfl
    | extended newId slot =>
      unfold ObjectKeeps
      dsimp only
      rw [follows_bind]
      refine Pool.follows_self ?_
      rw [follows_bind]
      exact Pool.follows_setSelf rfl

theorem follows_insert (hk : ∀ k ∈ limit, g.1.length + 1 < k) : ObjectKeeps limit (insert build fuel tuple) g := by
  have hfirst : ∀ k ∈ limit, g.1.length < k := fun k hmem => Nat.lt_of_succ_lt (hk k hmem)
  unfold ObjectKeeps insert
  rw [follows_ite, follows_ite]
  refine ⟨fun _ => rfl, fun _ => ⟨fun _ => rfl, fun _ => ?_⟩⟩
  rw [follows_bind]
  refine Pool.follows_self (Pool.ObjectKeeps.bind (follows_probes hfirst _ _ _ g.2) fun r o => ?_)
  cases r with
  | some rid => exact rfl
  | none =>
    unfold ObjectKeeps
    dsimp only
    rw [follows_bind]
    exact Pool.follows_self (follows_append hk fuel o.lastPageId o)

theorem follows_get (hk : ∀ k ∈ limit, g.1.length < k) : ObjectKeeps limit (get build rid) g := by
  refine Pool.objectKeeps_onPool (Pool.follows_inScope ?_)
  rw [follows_bind]
  refine Pool.follows_fetchPage hk ?_ fun _ => ⟨List.suffix_rfl, rfl⟩
  rw [follows_bind]
  refine follows_asHeapPage List.mem_cons_self ?_ fun _ => ⟨List.suffix_cons _ _, rfl⟩
  rw [follows_bind]
  refine Pool.follows_guarded List.mem_cons_self fun pg => ?_
  rw [follows_bind, follows_lift]
  intro r _
  cases r with
  | error e => exact ⟨List.suffix_cons _ _, rfl⟩
  | ok bytes => exact ⟨List.suffix_cons _ _, rfl⟩

theorem follows_delete (hk : ∀ k ∈ limit, g.1.length < k) : ObjectKeeps limit (delete build rid) g := by
  refine Pool.ObjectKeeps.bind (Pool.objectKeeps_onPool (follows_onRow hk)) fun _ o => ?_
  unfold ObjectKeeps
  rw [follows_bind]
  exact Pool.follows_self (Pool.follows_setSelf rfl)

theorem follows_update (hk : ∀ k ∈ limit, g.1.length + 1 < k) : ObjectKeeps limit (update build fuel rid tuple) g := by
  have hfirst : ∀ k ∈ limit, g.1.length < k := fun k hmem => Nat.lt_of_succ_lt (hk k hmem)
  refine Pool.ObjectKeeps.bind (Pool.objectKeeps_onPool (follows_onRow hfirst)) fun outcome o => ?_
  cases outcome with
  | samePage => exact rfl
  | doesNotFit =>
    refine Pool.ObjectKeeps.bind (follows_insert hk) fun newRid o' => ?_
    unfold ObjectKeeps
    rw [follows_bind, follows_attempt]
    refine Follows.mono (follows_delete hfirst) (fun _ _ h => h) fun e g' h => ?_
    dsimp only
    rw [follows_ite]
    exact ⟨fun _ => h, fun _ => h⟩

/-- Every operation of a table ends with the guards it began with, on every path and over any pages, and takes at
most two more on the way. -/
theorem follows_perform (hk : ∀ k ∈ limit, g.1.length + 1 < k) (op : Op) :
    ObjectKeeps limit (perform build fuel op) g := by
  have hfirst : ∀ k ∈ limit, g.1.length < k := fun k hmem => Nat.lt_of_succ_lt (hk k hmem)
  cases op with
  | insert tuple => exact Pool.ObjectKeeps.bind (follows_insert hk) fun _ _ => rfl
  | get rid => exact Pool.ObjectKeeps.bind (follows_get hfirst) fun _ _ => rfl
  | delete rid => exact Pool.ObjectKeeps.bind (follows_delete hfirst) fun _ _ => rfl
  | update rid tuple => exact Pool.ObjectKeeps.bind (follows_update hk) fun _ _ => rfl
  | reopen last =>
    unfold ObjectKeeps perform
    rw [follows_bind]
    refine Pool.follows_self ?_
    rw [follows_bind]
    exact Pool.follows_setSelf rfl

end Operations
end TableHeap.Code

/-! Scans. -/

namespace TableIterator.Code
open ConstHeapPage

section Calls
variable (build : Build)

def arrive : ObjectProg TableIterator Unit := do
  let it ← Pool.self
  if it.held then pure ()
  else do
    Pool.onPool (Pool.fetchPageRead it.pageId)
    Pool.setSelf { it with held := true }

def walk : Nat → ObjectProg TableIterator Bool
  | 0 => lift none
  | fuel + 1 => do
    let it ← Pool.self
    if it.pageId = invalidPage then pure false
    else do
      arrive
      Pool.onPool (TableHeap.Code.asHeapPage it.pageId)
      let pg ← Pool.onPool (Pool.guarded it.pageId)
      let h := header pg.body
      let found ← (if 0 < h.liveCount then lift (firstLive build pg.body (h.slotCount - it.slot.toNat) it.slot)
        else pure none)
      let here ← Pool.self
      match found with
      | some (slot, .error e) => do
        Pool.setSelf { here with slot := slot }
        fail e
      | some (slot, .ok bytes) => do
        Pool.setSelf { here with slot := slot, tuple := bytes }
        pure true
      | none => do
        Pool.onPool (Pool.dropGuard it.pageId .read)
        Pool.setSelf { here with held := false, pageId := pg.header.nextPageId, slot := 0 }
        walk fuel

def next (fuel : Nat) : ObjectProg TableIterator Bool := do
  let it ← Pool.self
  if it.pageId = invalidPage then pure false
  else do
    Pool.setSelf (if it.initialized then { it with slot := it.slot + 1 } else { it with initialized := true, slot := 0 })
    walk build fuel

def nextRow (fuel : Nat) : ObjectProg TableIterator (Option (RID × List UInt8)) := do
  let more ← next build fuel
  let it ← Pool.self
  pure (if more then some (it.rid, it.tuple) else none)

/-- `Next` until it answers false: the loop of `CmdTableScan` and of the first half of `CmdTablePurge`. -/
def collect (fuel : Nat) : Nat → ObjectProg TableIterator (List (RID × List UInt8))
  | 0 => lift none
  | n + 1 => do
    match ← nextRow build fuel with
    | none => pure []
    | some row => do
      let rest ← collect fuel n
      pure (row :: rest)

/-- The iterator's destructor. -/
def destroy (it : TableIterator) : PoolProg Unit := if it.held then Pool.dropGuard it.pageId .read else pure ()

/-- `Scan` and its use to the end. -/
def scanAll (fuel n : Nat) (t : TableHeap) : PoolProg (List (RID × List UInt8)) :=
  Pool.owning t.scan (collect build fuel n) destroy

end Calls

section Store
variable (env : PoolEnv) (build : Build)

@[simp] theorem run_arrive : arrive.run (Pool.objectAnswer TableIterator env) = TableIterator.arrive env := by
  simp [arrive, TableIterator.arrive]

@[simp] theorem run_walk : ∀ fuel : Nat,
    (walk build fuel).run (Pool.objectAnswer TableIterator env) = TableIterator.walk env build fuel
  | 0 => by simp [walk, TableIterator.walk]
  | fuel + 1 => by
    simp only [walk, TableIterator.walk, run_bind, run_ite, Pool.run_self, Pool.run_onPool, run_arrive, run_pure,
      TableHeap.Code.run_asHeapPage, Pool.run_guarded, run_lift]
    congr 1
    funext it
    congr 2
    funext _
    congr 1
    funext _
    congr 1
    funext pg
    congr 1
    funext found
    congr 1
    funext here
    rcases found with _ | ⟨slot, _ | bytes⟩
    · simp [run_walk fuel]
    · simp
    · simp

@[simp] theorem run_next (fuel : Nat) :
    (next build fuel).run (Pool.objectAnswer TableIterator env) = TableIterator.next env build fuel := by
  simp [next, TableIterator.next]

@[simp] theorem run_nextRow (fuel : Nat) :
    (nextRow build fuel).run (Pool.objectAnswer TableIterator env) = TableIterator.nextRow env build fuel () := by
  simp [nextRow, TableIterator.nextRow]

end Store

section Discipline
variable {limit : Option Nat} {gs : List Guard} {build : Build} {fuel : Nat}

/-- The iterator holds its guard, or none, besides those of others. -/
def Holds (gs : List Guard) (g : List Guard × TableIterator) : Prop :=
  g.1 = if g.2.held then ⟨g.2.pageId, .read⟩ :: gs else gs

/-- A call on an iterator. -/
def Keeps {α : Type} (limit : Option Nat) (gs : List Guard) (m : ObjectProg TableIterator α)
    (g : List Guard × TableIterator) : Prop :=
  m.Follows (Pool.objectProtocol TableIterator limit) (fun _ => Holds gs) (fun _ => Holds gs) g

theorem follows_arrive (hk : ∀ k ∈ limit, gs.length < k) {g : List Guard × TableIterator} (hg : Holds gs g) :
    arrive.Follows (Pool.objectProtocol TableIterator limit)
      (fun _ g' => g'.2 = { g.2 with held := true } ∧ Holds gs g') (fun _ => Holds gs) g := by
  unfold arrive
  rw [follows_bind]
  refine Pool.follows_self ?_
  rw [follows_ite]
  refine ⟨fun hh => ⟨by rw [← hh], hg⟩, fun hh => ?_⟩
  unfold Holds at hg
  rw [if_neg hh] at hg
  rw [follows_bind]
  refine Pool.follows_onPool (Pool.follows_fetchPage (by rw [hg]; exact hk) ?_ fun _ => ?_)
  · refine Pool.follows_setSelf ⟨rfl, ?_⟩
    rw [hg]
    rfl
  · unfold Holds
    rw [if_neg hh]
    exact hg

theorem follows_walk (hk : ∀ k ∈ limit, gs.length < k) : ∀ (fuel : Nat) {g : List Guard × TableIterator}, Holds gs g →
    Keeps limit gs (walk build fuel) g
  | 0, _, _ => trivial
  | fuel + 1, g, hg => by
    unfold Keeps walk
    rw [follows_bind]
    refine Pool.follows_self ?_
    rw [follows_ite]
    refine ⟨fun _ => hg, fun _ => ?_⟩
    refine (follows_arrive hk hg).bind (fun _ g₁ h₁ => ?_) fun _ _ he => he
    obtain ⟨hit, hg₁⟩ := h₁
    have hguards : g₁.1 = ⟨g.2.pageId, .read⟩ :: gs := by
      unfold Holds at hg₁
      rw [hit] at hg₁
      exact hg₁
    have hown : ⟨g.2.pageId, .read⟩ ∈ g₁.1 := by
      rw [hguards]
      exact List.mem_cons_self
    rw [follows_bind]
    refine Pool.follows_onPool (TableHeap.Code.follows_asHeapPage hown ?_ fun _ => hg₁)
    rw [follows_bind]
    refine Pool.follows_onPool (Pool.follows_guarded hown fun pg => ?_)
    rw [follows_bind]
    -- whatever the slot loop found
    have hrest : ∀ found : Option (SlotId × Except Status (List UInt8)),
        (do
          let here ← Pool.self
          match found with
          | some (slot, .error e) => do
            Pool.setSelf { here with slot := slot }
            fail e
          | some (slot, .ok bytes) => do
            Pool.setSelf { here with slot := slot, tuple := bytes }
            pure true
          | none => do
            Pool.onPool (Pool.dropGuard g.2.pageId .read)
            Pool.setSelf { here with held := false, pageId := pg.header.nextPageId, slot := 0 }
            walk build fuel : ObjectProg TableIterator Bool).Follows (Pool.objectProtocol TableIterator limit)
          (fun _ => Holds gs) (fun _ => Holds gs) g₁ := by
      intro found
      rw [follows_bind]
      refine Pool.follows_self ?_
      rcases found with _ | ⟨slot, e | bytes⟩
      · dsimp only
        rw [follows_bind]
        refine Pool.follows_onPool (Pool.follows_dropGuard hown ?_)
        rw [follows_bind]
        refine Pool.follows_setSelf (follows_walk hk fuel ?_)
        show g₁.1.erase ⟨g.2.pageId, .read⟩ = gs
        rw [hguards, List.erase_cons_head]
      · dsimp only
        rw [follows_bind]
        exact Pool.follows_setSelf hg₁
      · dsimp only
        rw [follows_bind]
        exact Pool.follows_setSelf hg₁
    rw [follows_ite, follows_lift]
    exact ⟨fun _ found _ => hrest found, fun _ => hrest none⟩

theorem follows_next (hk : ∀ k ∈ limit, gs.length < k) {g : List Guard × TableIterator} (hg : Holds gs g) :
    Keeps limit gs (next build fuel) g := by
  unfold Keeps next
  rw [follows_bind]
  refine Pool.follows_self ?_
  rw [follows_ite]
  refine ⟨fun _ => hg, fun _ => ?_⟩
  rw [follows_bind]
  refine Pool.follows_setSelf (follows_walk hk fuel ?_)
  by_cases hi : g.2.initialized = true
  · rw [if_pos hi]
    exact hg
  · rw [if_neg hi]
    exact hg

theorem follows_collect (hk : ∀ k ∈ limit, gs.length < k) : ∀ (n : Nat) {g : List Guard × TableIterator}, Holds gs g →
    Keeps limit gs (collect build fuel n) g
  | 0, _, _ => trivial
  | n + 1, g, hg => by
    unfold Keeps collect nextRow
    rw [follows_bind, follows_bind]
    refine (follows_next hk hg).mono (fun more g₁ hg₁ => ?_) fun _ _ he => he
    rw [follows_bind]
    refine Pool.follows_self ?_
    rw [follows_pure]
    cases more with
    | false => exact hg₁
    | true =>
      refine (follows_collect hk n hg₁).bind (fun _ _ h => h) fun _ _ he => he

/-- A scan takes one guard at a time and leaves none. -/
theorem follows_scanAll (hk : ∀ k ∈ limit, gs.length < k) (n : Nat) (t : TableHeap) :
    KeepsGuards limit (scanAll build fuel n t) gs := by
  refine Pool.follows_owning (I := Holds gs) (follows_collect hk n rfl) fun g' it hI => ?_
  unfold Holds at hI
  unfold destroy
  rw [follows_ite]
  refine ⟨fun hh => ?_, fun hh => ?_⟩
  · rw [if_pos hh] at hI
    dsimp only at hI
    rw [hI]
    refine Pool.follows_dropGuard List.mem_cons_self ?_
    rw [List.erase_cons_head]
  · rw [if_neg hh] at hI
    exact hI

end Discipline
end TableIterator.Code
end KernSql
