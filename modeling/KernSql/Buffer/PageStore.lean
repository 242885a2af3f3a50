import KernSql.Lib.Exec
import KernSql.Common.Types

/- The buffer pool as the layers above it see it.

   A `PageStore` is the allocated pages with the bytes a guard on them shows, and
   the guards alive. Which calls fail, and which id `NewPage` hands out, is not
   decided here: a `PoolEnv` answers every call from the state it is made in, which
   carries a call counter, so an environment can make any pattern of calls fail.
   An environment is lawful when the ids it hands out are not in use.

   A call that would wait for a latch its own thread holds never returns: it is a
   run gone wrong. A `DeletePage` that fails leaves the page in whatever state
   the pool and the disk left it (its unflushed bytes are gone, its header may be
   stamped FREE), so its contents are then the environment's choice. -/
namespace KernSql

inductive Latch where
  | read | write
  deriving DecidableEq, Repr

structure Guard where
  page : PageId
  latch : Latch
  deriving DecidableEq, Repr

structure PageStore where
  pages : PageId → Option Page
  guards : List Guard
  /-- Calls made so far. -/
  calls : Nat := 0
  /-- Fetches and `NewPage`s that failed. -/
  failures : Nat := 0
  /-- `DeletePage`s that failed. -/
  leaks : Nat := 0

structure PoolEnv where
  fetchFails : PageStore → PageId → Option Status
  /-- The answer to a fetch of a page that is not allocated. -/
  absent : PageStore → PageId → Status
  newFails : PageStore → Option Status
  fresh : PageStore → PageId
  /-- A failing `DeletePage` and what it leaves of the page. -/
  deleteFails : PageStore → PageId → Option (Status × Option Page)

/-- `NewPage` never hands out a page in use, or a reserved one. -/
def PoolEnv.Lawful (env : PoolEnv) : Prop :=
  ∀ s, env.newFails s = none → s.pages (env.fresh s) = none ∧ catalogRootPageId < env.fresh s

/-- The errors the pool answers with. -/
def PoolEnv.Refuses (env : PoolEnv) (e : Status) : Prop :=
  (∃ s p, env.fetchFails s p = some e) ∨ ∃ s, env.newFails s = some e

/-- Those it answers with, for allocated and new pages, while fewer than `k` guards are alive. -/
def PoolEnv.RefusesUnder (env : PoolEnv) (k : Nat) (e : Status) : Prop :=
  (∃ s p, env.fetchFails s p = some e ∧ s.pages p ≠ none ∧ s.guards.length < k) ∨
    ∃ s, env.newFails s = some e ∧ s.guards.length < k

/-- Ids counted up from the first that is not reserved; nothing fails but a `NewPage` whose id is taken. -/
def PoolEnv.countUp : PoolEnv where
  fetchFails _ _ := none
  absent _ p := ⟨.notFound, s!"page {p.toInt} is not allocated"⟩
  fresh s := Int32.ofNat (s.calls + 2)
  newFails s :=
    if (s.pages (Int32.ofNat (s.calls + 2))).isNone ∧ catalogRootPageId < Int32.ofNat (s.calls + 2) then none
    else some ⟨.ioError, "no page id left"⟩
  deleteFails _ _ := none

theorem PoolEnv.countUp_lawful : PoolEnv.countUp.Lawful := by
  intro s h
  simp only [PoolEnv.countUp, ite_eq_left_iff, reduceCtorEq, imp_false, not_not, Option.isNone_iff_eq_none] at h
  exact h

/-- The same with a disk that cannot be read. -/
def PoolEnv.unreadable : PoolEnv :=
  { PoolEnv.countUp with fetchFails := fun _ _ => some ⟨.ioError, "read failed"⟩ }

theorem PoolEnv.unreadable_lawful : PoolEnv.unreadable.Lawful := PoolEnv.countUp_lawful

/-- Nothing allocated, nobody reading. -/
def PageStore.empty : PageStore where
  pages _ := none
  guards := []

/-- A computation over the pool. -/
abbrev PoolM := Exec PageStore Status

/-- A new page: zeroed, typed ALLOCATED, carrying its own id. -/
def blankPage (p : PageId) : Page := ⟨{ pageType := .allocated, pageId := p }, Bytes.Region.zero⟩

namespace PageStore

def setPage (s : PageStore) (p : PageId) (pg : Option Page) : PageStore :=
  { s with pages := Function.update s.pages p pg }

/-- Would a guard with this latch on `p` wait for one already alive? -/
def conflicts (s : PageStore) (latch : Latch) (p : PageId) : Bool :=
  s.guards.any fun g => g.page = p ∧ (latch = .write ∨ g.latch = .write)

def pinned (s : PageStore) (p : PageId) : Bool := s.guards.any fun g => g.page = p

end PageStore

section Calls
variable (env : PoolEnv)

def fetchPage (latch : Latch) (p : PageId) : PoolM Unit := fun s =>
  if s.conflicts latch p then none
  else match env.fetchFails s p with
    | some e => some (.error e, { s with calls := s.calls + 1, failures := s.failures + 1 })
    | none => match s.pages p with
      | none =>
        some (.error (env.absent s p), { s with calls := s.calls + 1, failures := s.failures + 1 })
      | some _ => some (.ok (), { s with calls := s.calls + 1, guards := ⟨p, latch⟩ :: s.guards })

def fetchPageRead (p : PageId) : PoolM Unit := fetchPage env .read p
def fetchPageWrite (p : PageId) : PoolM Unit := fetchPage env .write p

def newPage : PoolM PageId := fun s =>
  match env.newFails s with
  | some e => some (.error e, { s with calls := s.calls + 1, failures := s.failures + 1 })
  | none =>
    let p := env.fresh s
    some (.ok p, { s.setPage p (some (blankPage p)) with
      calls := s.calls + 1, guards := ⟨p, .write⟩ :: s.guards })

def deletePage (p : PageId) : PoolM Unit := fun s =>
  if p = metaPageId ∨ p = catalogRootPageId then
    some (.error ⟨.invalidArgument, s!"page {p.toInt} is reserved and cannot be deleted"⟩,
      { s with calls := s.calls + 1, leaks := s.leaks + 1 })
  else if s.pinned p then
    let holders := s.guards.countP fun g => g.page = p
    some (.error ⟨.invalidArgument, s!"page {p.toInt} is pinned ({holders} holders) and cannot be deleted"⟩,
      { s with calls := s.calls + 1, leaks := s.leaks + 1 })
  else match env.deleteFails s p with
    | some (e, left) =>
      some (.error e, { s.setPage p left with calls := s.calls + 1, leaks := s.leaks + 1 })
    | none => some (.ok (), { s.setPage p none with calls := s.calls + 1 })

end Calls

/-- The page behind a guard. -/
def guarded (p : PageId) : PoolM Page := fun s => (s.pages p).map fun pg => (.ok pg, s)

def setPageType (p : PageId) (type : PageType) : PoolM Unit := do
  let pg ← guarded p
  Exec.modify (·.setPage p (some { pg with header := { pg.header with pageType := type } }))

def setBody (p : PageId) (b : Body) : PoolM Unit := do
  let pg ← guarded p
  Exec.modify (·.setPage p (some { pg with body := b }))

def dropGuard (p : PageId) (latch : Latch) : PoolM Unit :=
  Exec.modify fun s => { s with guards := s.guards.erase ⟨p, latch⟩ }

/-- A scope: the guards taken inside die at its end, however it ends. -/
def inScope {α : Type} (m : PoolM α) : PoolM α :=
  Exec.finally_ m fun s s' => { s' with guards := s.guards }

def setNextPageId (p : PageId) (next : PageId) : PoolM Unit := do
  let pg ← guarded p
  Exec.modify (·.setPage p (some { pg with header := { pg.header with nextPageId := next } }))

/-! Computations over the pool and one object with fields of its own. -/

section Object
variable {τ α : Type}

/-- A call to the pool. -/
def onPool (m : PoolM α) : Exec (PageStore × τ) Status α := fun s =>
  match m s.1 with
  | none => none
  | some (r, s') => some (r, (s', s.2))

def self : Exec (PageStore × τ) Status τ := fun s => some (.ok s.2, s)

def setSelf (o : τ) : Exec (PageStore × τ) Status Unit := fun s => some (.ok (), (s.1, o))

end Object

/-! What a stretch of a computation did. -/

/-- Only read: it took the guards `taken`, and no call failed. -/
structure ReadTo (taken : List Guard) (s s' : PageStore) : Prop where
  pages : s'.pages = s.pages
  guards : s'.guards = taken ++ s.guards
  failures : s'.failures = s.failures
  leaks : s'.leaks = s.leaks

/-- A fetch or a `NewPage` failed before anything was written. -/
structure Refused (s s' : PageStore) : Prop where
  pages : s'.pages = s.pages
  failures : s.failures < s'.failures
  leaks : s'.leaks = s.leaks

/-- The same, and with what error the pool refused. -/
structure RefusedUnder (env : PoolEnv) (k : Nat) (e : Status) (s s' : PageStore) : Prop extends Refused s s' where
  cause : env.RefusesUnder k e

/-- Only wrote, and only to pages in `S`; the same pages are allocated. -/
structure Touches (S : Set PageId) (s s' : PageStore) : Prop where
  pages : ∀ p ∉ S, s'.pages p = s.pages p
  allocated : ∀ p, s'.pages p = none ↔ s.pages p = none
  guards : s'.guards = s.guards
  failures : s'.failures = s.failures
  leaks : s'.leaks = s.leaks

theorem ReadTo.refl (s : PageStore) : ReadTo [] s s := ⟨rfl, rfl, rfl, rfl⟩

theorem ReadTo.trans {xs ys : List Guard} {s s' s'' : PageStore} (h : ReadTo xs s s')
    (h' : ReadTo ys s' s'') : ReadTo (ys ++ xs) s s'' :=
  ⟨h'.pages.trans h.pages, by rw [h'.guards, h.guards, List.append_assoc], h'.failures.trans h.failures,
    h'.leaks.trans h.leaks⟩

theorem ReadTo.refused {xs : List Guard} {s s' s'' : PageStore} (h : ReadTo xs s s')
    (h' : Refused s' s'') : Refused s s'' :=
  ⟨h'.pages.trans h.pages, h.failures ▸ h'.failures, h'.leaks.trans h.leaks⟩

theorem PoolEnv.RefusesUnder.mono {env : PoolEnv} {k k' : Nat} {e : Status} (h : env.RefusesUnder k e) (hk : k ≤ k') :
    env.RefusesUnder k' e := by
  cases h with
  | inl h =>
    obtain ⟨s, p, hf, hp, hlt⟩ := h
    exact .inl ⟨s, p, hf, hp, Nat.lt_of_lt_of_le hlt hk⟩
  | inr h =>
    obtain ⟨s, hf, hlt⟩ := h
    exact .inr ⟨s, hf, Nat.lt_of_lt_of_le hlt hk⟩

theorem RefusedUnder.mono {env : PoolEnv} {k k' : Nat} {e : Status} {s s' : PageStore} (h : RefusedUnder env k e s s')
    (hk : k ≤ k') : RefusedUnder env k' e s s' := ⟨h.toRefused, h.cause.mono hk⟩

/-- A refusal after reading, counted from where the reading began. -/
theorem ReadTo.refusedUnder {env : PoolEnv} {xs : List Guard} {k : Nat} {e : Status} {s s' s'' : PageStore}
    (h : ReadTo xs s s') (h' : RefusedUnder env (s'.guards.length + k) e s' s'') :
    RefusedUnder env (s.guards.length + (xs.length + k)) e s s'' := by
  refine ⟨h.refused h'.toRefused, h'.cause.mono (Nat.le_of_eq ?_)⟩
  rw [h.guards, List.length_append]
  omega

@[simp] theorem PageStore.setPage_same (s : PageStore) (p : PageId) (pg : Option Page) :
    (s.setPage p pg).pages p = pg := Function.update_self _ _ _

theorem PageStore.setPage_other (s : PageStore) {p q : PageId} (pg : Option Page) (h : q ≠ p) :
    (s.setPage p pg).pages q = s.pages q := Function.update_of_ne h _ _

namespace Touches
variable {S T : Set PageId} {s s' s'' : PageStore}

theorem refl (S : Set PageId) (s : PageStore) : Touches S s s := ⟨fun _ _ => rfl, fun _ => Iff.rfl, rfl, rfl, rfl⟩

theorem mono (h : Touches S s s') (hST : S ⊆ T) : Touches T s s' :=
  ⟨fun p hp => h.pages p fun hS => hp (hST hS), h.allocated, h.guards, h.failures, h.leaks⟩

theorem trans (h : Touches S s s') (h' : Touches S s' s'') : Touches S s s'' :=
  ⟨fun p hp => (h'.pages p hp).trans (h.pages p hp), fun p => (h'.allocated p).trans (h.allocated p),
    h'.guards.trans h.guards, h'.failures.trans h.failures, h'.leaks.trans h.leaks⟩

theorem setPage {p : PageId} {old : Page} (h : s.pages p = some old) (pg : Page) :
    Touches {p} s (s.setPage p (some pg)) := by
  refine ⟨fun q hq => s.setPage_other _ (by simpa using hq), fun q => ?_, rfl, rfl, rfl⟩
  by_cases hq : q = p
  · rw [hq, PageStore.setPage_same, h]; simp
  · rw [s.setPage_other _ hq]

end Touches

/-! The calls, one specification each. -/

section Specs
open Exec
variable {env : PoolEnv} {α : Type} {s : PageStore}

theorem PageStore.not_conflicts {p : PageId} (h : ∀ g ∈ s.guards, g.page ≠ p) (latch : Latch) :
    s.conflicts latch p = false := by
  simp only [PageStore.conflicts, List.any_eq_false, decide_eq_true_eq, not_and]
  exact fun g hg he => absurd he (h g hg)

/-- Readers only wait for writers. -/
theorem PageStore.conflicts_read {p : PageId} :
    s.conflicts .read p = false ↔ ∀ g ∈ s.guards, g.page = p → g.latch = .read := by
  simp only [PageStore.conflicts, List.any_eq_false, decide_eq_true_eq, not_and, not_or]
  constructor
  · intro h g hg hp
    cases hl : g.latch with
    | read => rfl
    | write => exact absurd hl (h g hg hp).2
  · intro h g hg hp
    rw [h g hg hp]
    exact ⟨by decide, by decide⟩

theorem PageStore.conflicts_congr {s' : PageStore} (h : s'.guards = s.guards) (latch : Latch) (p : PageId) :
    s'.conflicts latch p = s.conflicts latch p := by
  rw [PageStore.conflicts, PageStore.conflicts, h]

theorem wp_fetchPage {latch : Latch} {p : PageId} (hfree : s.conflicts latch p = false)
    (hpage : s.pages p ≠ none) :
    wp (fetchPage env latch p) (fun _ s' => ReadTo [⟨p, latch⟩] s s') (fun _ s' => Refused s s') s := by
  obtain ⟨pg, hpg⟩ := Option.ne_none_iff_exists'.mp hpage
  unfold wp fetchPage
  rw [hfree, hpg]
  rcases env.fetchFails s p with _ | e
  · exact ⟨rfl, rfl, rfl, rfl⟩
  · exact ⟨rfl, Nat.lt_succ_self _, rfl⟩

theorem wp_fetchPage_under {latch : Latch} {p : PageId} (hfree : s.conflicts latch p = false)
    (hpage : s.pages p ≠ none) :
    wp (fetchPage env latch p) (fun _ s' => ReadTo [⟨p, latch⟩] s s')
      (fun e s' => RefusedUnder env (s.guards.length + 1) e s s') s := by
  have hcause : wp (fetchPage env latch p) (fun _ _ => True)
      (fun e _ => env.RefusesUnder (s.guards.length + 1) e) s := by
    obtain ⟨pg, hpg⟩ := Option.ne_none_iff_exists'.mp hpage
    unfold wp fetchPage
    rw [hfree, hpg]
    rcases h : env.fetchFails s p with _ | e
    · trivial
    · exact .inl ⟨s, p, h, hpage, Nat.lt_succ_self _⟩
  exact wp_mono (wp_and (wp_fetchPage hfree hpage) hcause) (fun _ _ h => h.1) fun _ _ h => ⟨h.1, h.2⟩

/-- The error of a fetch of an allocated page is the pool's own. -/
theorem wp_fetchPage_refuses {latch : Latch} {p : PageId} (hfree : s.conflicts latch p = false)
    (hpage : s.pages p ≠ none) :
    wp (fetchPage env latch p) (fun _ s' => ReadTo [⟨p, latch⟩] s s') (fun e s' => Refused s s' ∧ env.Refuses e) s := by
  obtain ⟨pg, hpg⟩ := Option.ne_none_iff_exists'.mp hpage
  have hcause : wp (fetchPage env latch p) (fun _ _ => True) (fun e _ => env.Refuses e) s := by
    unfold wp fetchPage
    rw [hfree, hpg]
    rcases h : env.fetchFails s p with _ | e
    · trivial
    · exact .inl ⟨s, p, h⟩
  exact wp_mono (wp_and (wp_fetchPage hfree hpage) hcause) (fun _ _ h => h.1) fun _ _ h => h

theorem wp_newPage_refuses : wp (newPage env) (fun _ _ => True) (fun e _ => env.Refuses e) s := by
  unfold wp newPage
  rcases h : env.newFails s with _ | e
  · trivial
  · exact .inr ⟨s, h⟩

theorem wp_newPage_under :
    wp (newPage env) (fun _ _ => True) (fun e _ => env.RefusesUnder (s.guards.length + 1) e) s := by
  unfold wp newPage
  rcases h : env.newFails s with _ | e
  · trivial
  · exact .inr ⟨s, h, Nat.lt_succ_self _⟩

/-- A failed fetch takes no guard. -/
theorem wp_fetchPage_guards {latch : Latch} {p : PageId} (hfree : s.conflicts latch p = false) :
    wp (fetchPage env latch p) (fun _ _ => True) (fun _ s' => s'.guards = s.guards) s := by
  unfold wp fetchPage
  rw [hfree]
  rcases env.fetchFails s p with _ | e
  · rcases s.pages p with _ | pg
    · rfl
    · trivial
  · rfl

theorem wp_newPage (hlaw : env.Lawful) : wp (newPage env)
    (fun p s' => s.pages p = none ∧ catalogRootPageId < p ∧ s'.pages = Function.update s.pages p (some (blankPage p)) ∧
      s'.guards = ⟨p, .write⟩ :: s.guards ∧ s'.failures = s.failures ∧ s'.leaks = s.leaks)
    (fun _ s' => Refused s s' ∧ s'.guards = s.guards) s := by
  unfold wp newPage
  rcases h : env.newFails s with _ | e
  · obtain ⟨h1, h2⟩ := hlaw s h
    exact ⟨h1, h2, rfl, rfl, rfl, rfl⟩
  · exact ⟨⟨rfl, Nat.lt_succ_self _, rfl⟩, rfl⟩

/-- A `DeletePage` of an unpinned page: it frees the page, or fails and leaves it in any state. -/
theorem wp_deletePage {p : PageId} (hp : catalogRootPageId < p) (hfree : ∀ g ∈ s.guards, g.page ≠ p) :
    wp (deletePage env p)
      (fun _ s' => s'.pages = Function.update s.pages p none ∧ s'.guards = s.guards ∧
        s'.failures = s.failures ∧ s'.leaks = s.leaks)
      (fun _ s' => (∀ q, q ≠ p → s'.pages q = s.pages q) ∧ s'.guards = s.guards ∧
        s'.failures = s.failures ∧ s.leaks < s'.leaks) s := by
  have h1 : ¬(p = metaPageId ∨ p = catalogRootPageId) := by
    rintro (rfl | rfl)
    · exact absurd hp (by decide)
    · exact absurd hp (by decide)
  have h2 : s.pinned p = false := by
    simp only [PageStore.pinned, List.any_eq_false, decide_eq_true_eq]
    exact hfree
  unfold wp deletePage
  rw [if_neg h1, h2]
  rcases env.deleteFails s p with _ | ⟨e, left⟩
  · exact ⟨rfl, rfl, rfl, rfl⟩
  · exact ⟨fun q hq => PageStore.setPage_other s left hq, rfl, rfl, Nat.lt_succ_self _⟩

theorem wp_guarded {p : PageId} {pg : Page} {Q : Page → PageStore → Prop} {E : Status → PageStore → Prop}
    (h : s.pages p = some pg) : wp (guarded p) Q E s ↔ Q pg s := by
  unfold wp guarded
  rw [h]
  rfl

theorem wp_setBody {p : PageId} {pg : Page} {Q : Unit → PageStore → Prop} {E : Status → PageStore → Prop}
    {b : Body} (h : s.pages p = some pg) :
    wp (setBody p b) Q E s ↔ Q () (s.setPage p (some { pg with body := b })) := by
  unfold setBody
  rw [wp_bind, wp_guarded h, wp_modify]

theorem wp_setPageType {p : PageId} {pg : Page} {Q : Unit → PageStore → Prop}
    {E : Status → PageStore → Prop} {type : PageType} (h : s.pages p = some pg) :
    wp (setPageType p type) Q E s ↔
      Q () (s.setPage p (some { pg with header := { pg.header with pageType := type } })) := by
  unfold setPageType
  rw [wp_bind, wp_guarded h, wp_modify]

theorem wp_setNextPageId {p : PageId} {pg : Page} {Q : Unit → PageStore → Prop}
    {E : Status → PageStore → Prop} {next : PageId} (h : s.pages p = some pg) :
    wp (setNextPageId p next) Q E s ↔
      Q () (s.setPage p (some { pg with header := { pg.header with nextPageId := next } })) := by
  unfold setNextPageId
  rw [wp_bind, wp_guarded h, wp_modify]

theorem wp_inScope {m : PoolM α} {Q : α → PageStore → Prop} {E : Status → PageStore → Prop} :
    wp (inScope m) Q E s ↔ wp m (fun a s' => Q a { s' with guards := s.guards })
      (fun e s' => E e { s' with guards := s.guards }) s := wp_finally _ _

section Object
variable {τ : Type} {st : PageStore × τ}

theorem wp_onPool {m : PoolM α} {Q : α → PageStore × τ → Prop} {E : Status → PageStore × τ → Prop} :
    wp (onPool m) Q E st ↔ wp m (fun a s' => Q a (s', st.2)) (fun e s' => E e (s', st.2)) st.1 := by
  unfold wp onPool
  rcases m st.1 with _ | ⟨_ | _, _⟩ <;> rfl

theorem wp_self {Q : τ → PageStore × τ → Prop} {E : Status → PageStore × τ → Prop} : wp self Q E st ↔ Q st.2 st := Iff.rfl

theorem wp_setSelf {o : τ} {Q : Unit → PageStore × τ → Prop} {E : Status → PageStore × τ → Prop} :
    wp (setSelf o) Q E st ↔ Q () (st.1, o) := Iff.rfl

end Object
end Specs
end KernSql
