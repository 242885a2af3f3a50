import KernSql.Lib.Prog
import KernSql.Buffer.BadFetch
import KernSql.Buffer.Shutdown

/- The pool as an interface: the code above it, run over a page store or over the pool itself.

   `PoolCall` lists what the index and the table heap do to the pool: the three
   calls that can fail, looking at a page and changing it through a guard, letting
   a guard go, and the scopes at whose end guards die. A program over these calls
   (`PoolProg`) runs over a `PageStore` (`PageStore.answer`) and over the frames, the
   page table and the disk of a `BufferPool` (`BufferPool.answer`), where every access
   goes through a guard that is held.

   `guardProtocol` is what a client owes: no access without a guard, no change
   without a write guard, no guard let go twice, no page stamped FREE. Clients that
   keep to it cannot tell the two apart (`simulates_faulty` and its like): whatever
   the pool answers, some lawful environment makes the store answer the same. -/
namespace KernSql

inductive PoolCall where
  | fetch (latch : Latch) (p : PageId)
  | new
  | delete (p : PageId)
  /-- The page behind a guard. -/
  | look (p : PageId)
  /-- A change through a write guard. -/
  | edit (p : PageId) (e : Edit)
  | drop (p : PageId) (latch : Latch)
  /-- A scope begins: the guards alive. -/
  | enter
  /-- A scope ends: the guards taken since it began die. -/
  | leave (saved : List Guard)

@[reducible] def PoolCall.Reply : PoolCall → Type
  | .fetch _ _ => Except Status Unit
  | .new => Except Status PageId
  | .delete _ => Except Status Unit
  | .look _ => Page
  | .edit _ _ => Unit
  | .drop _ _ => Unit
  | .enter => List Guard
  | .leave _ => Unit

abbrev PoolProg := Prog PoolCall PoolCall.Reply Status

/-! The calls as the code makes them. -/

namespace Pool

def fetchPage (latch : Latch) (p : PageId) : PoolProg Unit := .call (.fetch latch p) .ret
def fetchPageRead (p : PageId) : PoolProg Unit := fetchPage .read p
def fetchPageWrite (p : PageId) : PoolProg Unit := fetchPage .write p
def newPage : PoolProg PageId := .call .new .ret
def deletePage (p : PageId) : PoolProg Unit := .call (.delete p) .ret
def guarded (p : PageId) : PoolProg Page := .call (.look p) fun pg => .ret (.ok pg)
def edit (p : PageId) (e : Edit) : PoolProg Unit := .call (.edit p e) fun _ => .ret (.ok ())
def setPageType (p : PageId) (type : PageType) : PoolProg Unit := edit p (.pageType type)
def setBody (p : PageId) (b : Body) : PoolProg Unit := edit p (.body b)
def setNextPageId (p : PageId) (next : PageId) : PoolProg Unit := edit p (.nextPageId next)
def dropGuard (p : PageId) (latch : Latch) : PoolProg Unit := .call (.drop p latch) fun _ => .ret (.ok ())

def inScope {α : Type} (m : PoolProg α) : PoolProg α :=
  .call .enter fun saved => m.andThen fun r => .call (.leave saved) fun _ => .ret r

end Pool

/-! Over a page store. -/

def PageStore.answer (env : PoolEnv) : Handler PoolCall PoolCall.Reply PageStore
  | .fetch latch p, s => fetchPage env latch p s
  | .new, s => newPage env s
  | .delete p, s => deletePage env p s
  | .look p, s => (s.pages p).map fun pg => (pg, s)
  | .edit p e, s => (s.pages p).map fun pg => ((), s.setPage p (some (e.apply pg)))
  | .drop p latch, s => some ((), { s with guards := s.guards.erase ⟨p, latch⟩ })
  | .enter, s => some (s.guards, s)
  | .leave saved, s => some ((), { s with guards := saved })

namespace Pool
section Store
variable (env : PoolEnv) {α : Type}

@[simp] theorem run_fetchPage (latch : Latch) (p : PageId) :
    (fetchPage latch p).run (PageStore.answer env) = KernSql.fetchPage env latch p := by
  funext s
  exact Option.bind_fun_some _

@[simp] theorem run_fetchPageRead (p : PageId) :
    (fetchPageRead p).run (PageStore.answer env) = KernSql.fetchPageRead env p := run_fetchPage env .read p

@[simp] theorem run_fetchPageWrite (p : PageId) :
    (fetchPageWrite p).run (PageStore.answer env) = KernSql.fetchPageWrite env p := run_fetchPage env .write p

@[simp] theorem run_newPage : newPage.run (PageStore.answer env) = KernSql.newPage env := by
  funext s
  exact Option.bind_fun_some _

@[simp] theorem run_deletePage (p : PageId) :
    (deletePage p).run (PageStore.answer env) = KernSql.deletePage env p := by
  funext s
  exact Option.bind_fun_some _

@[simp] theorem run_guarded (p : PageId) : (guarded p).run (PageStore.answer env) = KernSql.guarded p := by
  funext s
  show ((s.pages p).map _).bind _ = (s.pages p).map _
  cases s.pages p <;> rfl

theorem run_edit (p : PageId) (e : Edit) : (edit p e).run (PageStore.answer env) = (do
    let pg ← KernSql.guarded p
    Exec.modify (·.setPage p (some (e.apply pg)))) := by
  funext s
  show ((s.pages p).map _).bind _ = Exec.andThen _ _ s
  unfold Exec.andThen KernSql.guarded
  cases s.pages p <;> rfl

@[simp] theorem run_setPageType (p : PageId) (type : PageType) :
    (setPageType p type).run (PageStore.answer env) = KernSql.setPageType p type := run_edit env p _

@[simp] theorem run_setBody (p : PageId) (b : Body) :
    (setBody p b).run (PageStore.answer env) = KernSql.setBody p b := run_edit env p _

@[simp] theorem run_setNextPageId (p : PageId) (next : PageId) :
    (setNextPageId p next).run (PageStore.answer env) = KernSql.setNextPageId p next := run_edit env p _

@[simp] theorem run_dropGuard (p : PageId) (latch : Latch) :
    (dropGuard p latch).run (PageStore.answer env) = KernSql.dropGuard p latch := rfl

@[simp] theorem run_inScope (m : PoolProg α) :
    (inScope m).run (PageStore.answer env) = KernSql.inScope (m.run (PageStore.answer env)) := by
  funext s
  show (m.andThen _).run _ s = Exec.finally_ _ _ s
  rw [Prog.run_andThen]
  unfold Exec.finally_
  cases m.run (PageStore.answer env) s <;> rfl

end Store
end Pool

/-! Over the pool. -/

/-- A guard as the layers above know it. -/
def Held.guard (g : Held) : Guard := ⟨g.page, g.latch⟩

namespace BufferPool
open Exec DiskManager

/-- The result of a call that has no error to return. -/
def settle {α : Type} : Option (Except Status α × BufferPool) → Option (α × BufferPool)
  | some (.ok a, b) => some (a, b)
  | _ => none

/-- The destructors at the end of a scope: the newest `n` guards die, the newest first. -/
def dropNewest (cfg : PoolConfig) : Nat → BufferPool → Option BufferPool
  | 0, b => some b
  | n + 1, b => match b.held with
    | [] => some b
    | g :: _ => (settle (drop cfg g b)).bind fun x => dropNewest cfg n x.2

/-- A client of the pool. It reaches a page only through a guard it holds. -/
def answer (cfg : PoolConfig) : Handler PoolCall PoolCall.Reply BufferPool
  | .fetch latch p, b => (fetchPage cfg latch p b).map fun x => (x.1.map fun _ => (), x.2)
  | .new, b => (newPage cfg b).map fun x => (x.1.map Held.page, x.2)
  | .delete p, b => deletePage cfg p b
  | .look p, b => (b.held.find? fun g => g.page = p).bind fun g => settle (show_ g b)
  | .edit p e, b => (b.held.find? fun g => g.guard = ⟨p, .write⟩).bind fun g => settle (write g e b)
  | .drop p latch, b => (b.held.find? fun g => g.guard = ⟨p, latch⟩).bind fun g => settle (drop cfg g b)
  | .enter, b => some (b.held.map Held.guard, b)
  | .leave saved, b => (dropNewest cfg (b.held.length - saved.length) b).map fun b' => ((), b')

end BufferPool

/-! What a client owes. -/

/-- `limit`, if given, is the number of guards the client may come to hold. -/
def guardProtocol (limit : Option Nat) : Protocol PoolCall PoolCall.Reply (List Guard) where
  legal g
    | .fetch _ _ => ∀ k ∈ limit, g.length < k
    | .new => ∀ k ∈ limit, g.length < k
    | .delete _ => True
    | .look p => ∃ latch, ⟨p, latch⟩ ∈ g
    | .edit p e => ⟨p, .write⟩ ∈ g ∧ BufferPool.Edit.Allowed BufferPool.keepsTypes p e
    | .drop p latch => ⟨p, latch⟩ ∈ g
    | .enter => True
    -- the scope has let go of nothing that was there before it
    | .leave saved => saved <:+ g
  answers g
    | .new, .ok p => catalogRootPageId < p
    | .enter, saved => saved = g
    | _, _ => True
  next g
    | .fetch latch p, .ok _ => ⟨p, latch⟩ :: g
    | .new, .ok p => ⟨p, .write⟩ :: g
    | .drop p latch, _ => g.erase ⟨p, latch⟩
    | .leave saved, _ => saved
    | _, _ => g

namespace Pool
section Protocol
variable {limit : Option Nat} {α : Type} {g : List Guard} {E : Status → List Guard → Prop} {p : PageId}

theorem follows_fetchPage {latch : Latch} {Q : Unit → List Guard → Prop} (hk : ∀ k ∈ limit, g.length < k)
    (hQ : Q () (⟨p, latch⟩ :: g)) (hE : ∀ e, E e g) : (fetchPage latch p).Follows (guardProtocol limit) Q E g := by
  refine ⟨hk, fun r _ => ?_⟩
  cases r with
  | ok _ => exact hQ
  | error e => exact hE e

theorem follows_newPage {Q : PageId → List Guard → Prop} (hk : ∀ k ∈ limit, g.length < k)
    (hQ : ∀ p, catalogRootPageId < p → Q p (⟨p, .write⟩ :: g)) (hE : ∀ e, E e g) :
    newPage.Follows (guardProtocol limit) Q E g := by
  refine ⟨hk, fun r hr => ?_⟩
  cases r with
  | ok p => exact hQ p hr
  | error e => exact hE e

theorem follows_deletePage {Q : Unit → List Guard → Prop} (hQ : Q () g) (hE : ∀ e, E e g) :
    (deletePage p).Follows (guardProtocol limit) Q E g := by
  refine ⟨trivial, fun r _ => ?_⟩
  cases r with
  | ok _ => exact hQ
  | error e => exact hE e

theorem follows_guarded {Q : Page → List Guard → Prop} {latch : Latch} (hg : ⟨p, latch⟩ ∈ g) (hQ : ∀ pg, Q pg g) :
    (guarded p).Follows (guardProtocol limit) Q E g := ⟨⟨latch, hg⟩, fun pg _ => hQ pg⟩

theorem follows_setBody {Q : Unit → List Guard → Prop} {b : Body} (hg : ⟨p, .write⟩ ∈ g) (hQ : Q () g) :
    (setBody p b).Follows (guardProtocol limit) Q E g := ⟨⟨hg, trivial⟩, fun _ _ => hQ⟩

theorem follows_setNextPageId {Q : Unit → List Guard → Prop} {next : PageId} (hg : ⟨p, .write⟩ ∈ g) (hQ : Q () g) :
    (setNextPageId p next).Follows (guardProtocol limit) Q E g := ⟨⟨hg, trivial⟩, fun _ _ => hQ⟩

/-- Types are given to pages of one's own, and never FREE. -/
theorem follows_setPageType {Q : Unit → List Guard → Prop} {type : PageType} (hg : ⟨p, .write⟩ ∈ g)
    (hp : catalogRootPageId < p) (htype : type ≠ .free) (hQ : Q () g) :
    (setPageType p type).Follows (guardProtocol limit) Q E g := by
  refine ⟨⟨hg, htype, fun he => absurd hp ?_⟩, fun _ _ => hQ⟩
  rw [he]
  exact Int32.lt_irrefl

theorem follows_dropGuard {Q : Unit → List Guard → Prop} {latch : Latch} (hg : ⟨p, latch⟩ ∈ g)
    (hQ : Q () (g.erase ⟨p, latch⟩)) : (dropGuard p latch).Follows (guardProtocol limit) Q E g :=
  ⟨hg, fun _ _ => hQ⟩

theorem follows_inScope {m : PoolProg α} {Q : α → List Guard → Prop}
    (h : m.Follows (guardProtocol limit) (fun a g' => g <:+ g' ∧ Q a g) (fun e g' => g <:+ g' ∧ E e g) g) :
    (inScope m).Follows (guardProtocol limit) Q E g := by
  refine ⟨trivial, fun saved hsaved => ?_⟩
  obtain rfl : saved = g := hsaved
  rw [Prog.follows_andThen]
  exact h.mono (fun _ _ hq => ⟨hq.1, fun _ _ => hq.2⟩) fun _ _ he => ⟨he.1, fun _ _ => he.2⟩

/-- A program that ends, however it ends, with the guards it began with. -/
def KeepsGuards (limit : Option Nat) (m : PoolProg α) (g : List Guard) : Prop :=
  m.Follows (guardProtocol limit) (fun _ g' => g' = g) (fun _ g' => g' = g) g

end Protocol
end Pool

/-! What the discipline says of a run over a store. -/

namespace PageStore
variable {env : PoolEnv} {limit : Option Nat} {s s' : PageStore} {α : Type}

/-- A store keeps the client's guards as the protocol counts them. -/
theorem answer_guards (limit : Option Nat) (hlaw : env.Lawful) {c : PoolCall} {r : c.Reply}
    (h : PageStore.answer env c s = some (r, s')) :
    (guardProtocol limit).answers s.guards c r ∧ s'.guards = (guardProtocol limit).next s.guards c r := by
  cases c with
  | fetch latch p =>
    refine ⟨trivial, ?_⟩
    simp only [answer, fetchPage] at h
    split at h
    · cases h
    · split at h
      · cases h
        rfl
      · split at h <;> cases h <;> rfl
  | new =>
    simp only [answer, newPage] at h
    cases hn : env.newFails s with
    | some e =>
      rw [hn] at h
      cases h
      exact ⟨trivial, rfl⟩
    | none =>
      rw [hn] at h
      cases h
      exact ⟨(hlaw s hn).2, rfl⟩
  | delete p =>
    refine ⟨trivial, ?_⟩
    simp only [answer, deletePage] at h
    split at h
    · cases h
      rfl
    · split at h
      · cases h
        rfl
      · split at h <;> cases h <;> rfl
  | look p =>
    obtain ⟨pg, -, he⟩ := Option.map_eq_some_iff.mp h
    cases he
    exact ⟨trivial, rfl⟩
  | edit p e =>
    obtain ⟨pg, -, he⟩ := Option.map_eq_some_iff.mp h
    cases he
    exact ⟨trivial, rfl⟩
  | drop p latch =>
    cases h
    exact ⟨trivial, rfl⟩
  | enter =>
    cases h
    exact ⟨rfl, rfl⟩
  | leave saved =>
    cases h
    exact ⟨trivial, rfl⟩

/-- The guards at the end of a run. -/
theorem guards_of_follows (hlaw : env.Lawful) {Q : α → List Guard → Prop} {E : Status → List Guard → Prop}
    {m : PoolProg α} {r : Except Status α} (hm : m.Follows (guardProtocol limit) Q E s.guards)
    (hrun : m.run (answer env) s = some (r, s')) :
    (∀ a, r = .ok a → Q a s'.guards) ∧ ∀ e, r = .error e → E e s'.guards := by
  induction m generalizing s with
  | ret r' =>
    cases hrun
    cases r with
    | ok a =>
      refine ⟨fun b hb => ?_, fun e he => by cases he⟩
      cases hb
      exact hm
    | error e =>
      refine ⟨fun b hb => (by cases hb), fun e' he => ?_⟩
      cases he
      exact hm
  | fault => cases hrun
  | call c k ih =>
    obtain ⟨⟨r₁, s₁⟩, hc, hk⟩ := Option.bind_eq_some_iff.mp hrun
    obtain ⟨hans, hnext⟩ := answer_guards limit hlaw hc
    exact ih r₁ (hnext ▸ hm.2 r₁ hans) hk

theorem guards_of_keeps (hlaw : env.Lawful) {m : PoolProg α} {r : Except Status α}
    (hm : Pool.KeepsGuards limit m s.guards) (hrun : m.run (answer env) s = some (r, s')) : s'.guards = s.guards := by
  obtain ⟨hok, herr⟩ := guards_of_follows hlaw hm hrun
  cases r with
  | ok a => exact hok a rfl
  | error e => exact herr e rfl

/-- A specification of a client that keeps its guards says so. -/
theorem wp_keeps (hlaw : env.Lawful) {m : PoolProg α} {Q : α → PageStore → Prop} {E : Status → PageStore → Prop}
    (hm : Pool.KeepsGuards limit m s.guards) (h : Exec.wp (m.run (answer env)) Q E s) :
    Exec.wp (m.run (answer env)) (fun a s' => Q a s' ∧ s'.guards = s.guards) (fun e s' => E e s' ∧ s'.guards = s.guards) s := by
  rcases Exec.wp_run h with ⟨a, s', hrun, hQ⟩ | ⟨e, s', hrun, hE⟩
  · exact Exec.wp_of_ok hrun ⟨hQ, guards_of_keeps hlaw hm hrun⟩
  · exact Exec.wp_of_error hrun ⟨hE, guards_of_keeps hlaw hm hrun⟩

end PageStore

/-! Programs of an object with fields of its own. -/

abbrev ObjectProg (τ : Type) := Prog (WithField τ PoolCall) (WithField.Reply PoolCall.Reply) Status

namespace Pool
open Prog
variable {τ α β : Type}

def onPool (m : PoolProg α) : ObjectProg τ α := WithField.onCalls m
def self : ObjectProg τ τ := WithField.self
def setSelf (o : τ) : ObjectProg τ Unit := WithField.setSelf o

/-- An object of a scope: it is used, and destroyed however the use ended. -/
def owning (o : τ) (m : ObjectProg τ α) (destroy : τ → PoolProg Unit) : PoolProg α := do
  let x ← WithField.passing m o
  destroy x.2
  .ret x.1

section Store
variable (env : PoolEnv)

/-- Over a page store. -/
abbrev objectAnswer (τ : Type) (env : PoolEnv) :
    Handler (WithField τ PoolCall) (WithField.Reply PoolCall.Reply) (PageStore × τ) :=
  WithField.handler (PageStore.answer env)

@[simp] theorem run_onPool (m : PoolProg α) :
    (onPool m : ObjectProg τ α).run (objectAnswer τ env) = KernSql.onPool (m.run (PageStore.answer env)) := by
  funext s
  unfold onPool KernSql.onPool
  rw [WithField.run_onCalls]
  cases m.run (PageStore.answer env) s.1 <;> rfl

@[simp] theorem run_self : (self : ObjectProg τ τ).run (objectAnswer τ env) = KernSql.self := rfl

@[simp] theorem run_setSelf (o : τ) :
    (setSelf o : ObjectProg τ Unit).run (objectAnswer τ env) = KernSql.setSelf o := rfl

/-- The use of an object, then its destruction. -/
theorem wp_passing {m : ObjectProg τ α} {o : τ} {s : PageStore} {Q : Except Status α × τ → PageStore → Prop}
    {E : Status → PageStore → Prop}
    (h : Exec.wp (m.run (objectAnswer τ env)) (fun a st => Q (.ok a, st.2) st.1) (fun e st => Q (.error e, st.2) st.1)
      (s, o)) : Exec.wp ((WithField.passing m o).run (PageStore.answer env)) Q E s := by
  unfold Exec.wp at h ⊢
  rw [WithField.run_passing]
  rcases hrun : m.run (objectAnswer τ env) (s, o) with _ | ⟨_ | _, _⟩ <;> rw [hrun] at h <;> exact h

end Store

section Protocol
variable {limit : Option Nat} {g : List Guard × τ} {E : Status → List Guard × τ → Prop}

abbrev objectProtocol (τ : Type) (limit : Option Nat) :
    Protocol (WithField τ PoolCall) (WithField.Reply PoolCall.Reply) (List Guard × τ) :=
  WithField.protocol (guardProtocol limit)

theorem follows_onPool {m : PoolProg α} {Q : α → List Guard × τ → Prop}
    (h : m.Follows (guardProtocol limit) (fun a g' => Q a (g', g.2)) (fun e g' => E e (g', g.2)) g.1) :
    (onPool m).Follows (objectProtocol τ limit) Q E g := (WithField.follows_onCalls m).mpr h

theorem follows_self {Q : τ → List Guard × τ → Prop} (h : Q g.2 g) : self.Follows (objectProtocol τ limit) Q E g :=
  WithField.follows_self.mpr h

theorem follows_setSelf {o : τ} {Q : Unit → List Guard × τ → Prop} (h : Q () (g.1, o)) :
    (setSelf o).Follows (objectProtocol τ limit) Q E g := WithField.follows_setSelf.mpr h

/-- `KeepsGuards` of an object. -/
def ObjectKeeps (limit : Option Nat) (m : ObjectProg τ α) (g : List Guard × τ) : Prop :=
  m.Follows (objectProtocol τ limit) (fun _ g' => g'.1 = g.1) (fun _ g' => g'.1 = g.1) g

theorem ObjectKeeps.bind {m : ObjectProg τ α} {f : α → ObjectProg τ β} (h : ObjectKeeps limit m g)
    (hf : ∀ a o, ObjectKeeps limit (f a) (g.1, o)) : ObjectKeeps limit (m >>= f) g := by
  refine Follows.bind h (fun a g' hg' => ?_) fun _ _ he => he
  rw [show g' = (g.1, g'.2) from Prod.ext hg' rfl]
  exact hf a g'.2

theorem objectKeeps_onPool {m : PoolProg α} (h : KeepsGuards limit m g.1) :
    ObjectKeeps limit (onPool m : ObjectProg τ α) g := follows_onPool h

theorem ObjectKeeps.passing {m : ObjectProg τ α} {gs : List Guard} {o : τ} (h : ObjectKeeps limit m (gs, o)) :
    KeepsGuards limit (WithField.passing m o) gs :=
  WithField.follows_passing h (fun _ _ _ hg => hg) fun _ _ _ hg => hg

/-- The destructor lets go of what the object still holds. -/
theorem follows_owning {m : ObjectProg τ α} {destroy : τ → PoolProg Unit} {gs : List Guard} {o : τ}
    {I : List Guard × τ → Prop} (hm : m.Follows (objectProtocol τ limit) (fun _ g' => I g') (fun _ g' => I g') (gs, o))
    (hdestroy : ∀ g' o', I (g', o') → (destroy o').Follows (guardProtocol limit) (fun _ g'' => g'' = gs)
      (fun _ g'' => g'' = gs) g') : KeepsGuards limit (owning o m destroy) gs := by
  unfold KeepsGuards owning
  rw [follows_bind]
  refine WithField.follows_passing hm (fun a g' o' hI => ?_) fun e g' o' hI => ?_
  · rw [follows_bind]
    exact (hdestroy g' o' hI).mono (fun _ _ h => h) fun _ _ h => h
  · rw [follows_bind]
    exact (hdestroy g' o' hI).mono (fun _ _ h => h) fun _ _ h => h

end Protocol
end Pool
end KernSql
