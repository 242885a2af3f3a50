import KernSql.Engine.Service
import KernSql.Buffer.Flag

/- The engine across restarts.

   A restart shuts the pool down, opens the file with a new manager, puts a pool of
   any size on it, and opens every object again by the page ids its client has kept.
   On a disk that does not fail it goes through, and each object has the value it
   had. So the runs of the engine are runs of the maps, restarts included. -/
namespace KernSql

namespace BPlusTree
open Exec
variable {env : PoolEnv} {t : BPlusTree} {s : PageStore} {T : Σ n, KTree n}

/-- `Open` of a tree that is there gives back its handle. -/
theorem wp_open (h : TreeAt t s.pages T) (hfree : s.conflicts .read t.headerPageId = false) :
    wp (open_ env t.headerPageId) (fun t' s' => t' = t ∧ ReadTo [] s s')
      (fun e s' => RefusedUnder env (s.guards.length + 1) e s s' ∧ s'.guards = s.guards) s := by
  unfold open_
  rw [wp_inScope]
  refine wp_call (wp_fetchPage_under hfree (HeaderAt.some h.header)) (fun _ s' hr => ?_)
    fun _ _ hr => ⟨⟨⟨hr.pages, hr.failures, hr.leaks⟩, hr.cause⟩, rfl⟩
  have hheader : HeaderAt s'.pages _ _ := h.header.congr (by rw [hr.pages])
  rw [wp_bind]
  refine wp_readIndexHeader hheader ?_
  obtain ⟨hleaf, hinternal⟩ := h.range
  have hbad : ¬(!fanoutInRange t.leafMax || !fanoutInRange t.internalMax) = true := by
    simp [fanoutInRange, hleaf, hinternal]
  rw [if_neg hbad, wp_pure]
  exact ⟨rfl, hr.pages, rfl, hr.failures, hr.leaks⟩

end BPlusTree

namespace Engine
open Exec Prog BufferPool
open Pool (KeepsGuards)

/-- The objects of a client, opened by the page ids in their old handles. -/
def reopen : List Object → PoolProg (List Object)
  | [] => pure []
  | .index t :: objs => do
    let t' ← BPlusTree.Code.open_ t.headerPageId
    let objs' ← reopen objs
    pure (.index t' :: objs')
  | .table t :: objs => do
    let objs' ← reopen objs
    pure (.table (TableHeap.open_ t.firstPageId t.lastPageId) :: objs')

/-- `Shutdown`, a new manager on the same file, and a new pool of `n` frames. -/
def restart (cfg : PoolConfig) (n : Nat) : Exec State Status Reply := fun st =>
  match shutdown cfg st.1 with
  | none => none
  | some (.error e, b) => some (.error e, (b, st.2))
  | some (.ok _, b) => match DiskManager.open_ cfg.disk b.disk with
    | none => none
    | some (.error .stopped, _) => none
    | some (.error (.status e), d) => some (.error e, ({ b with disk := d }, st.2))
    | some (.ok _, d) => match (reopen st.2).run (answer cfg) (new d n) with
      | none => none
      | some (.error e, b') => some (.error e, (b', st.2))
      | some (.ok objs, b') => some (.ok .done, (b', objs))

section Reopen
variable {cfg : PoolConfig} {objs : List Object} {env : PoolEnv} {s : PageStore}

theorem keepsGuards_reopen : KeepsGuards none (reopen objs) [] := by
  induction objs with
  | nil => rfl
  | cons o objs ih =>
    cases o with
    | index t =>
      refine (BPlusTree.Code.follows_open t.headerPageId (by simp)).bind (fun t' g hg => ?_) fun _ _ he => he
      subst hg
      exact ih.bind (fun _ _ h => h) fun _ _ he => he
    | table t => exact ih.bind (fun _ _ h => h) fun _ _ he => he

/-- The calls of a client that makes no page and fetches only `p`. -/
def OnlyFetches (p : PageId) : PoolCall → Prop
  | .fetch _ q => q = p
  | .new => False
  | _ => True

theorem open_only (p : PageId) :
    (BPlusTree.Code.open_ p).Follows (.only (OnlyFetches p)) (fun _ _ => True) (fun _ _ => True) () := by
  have hend (saved : List Guard) (r : Except Status BPlusTree) :
      (.call (.leave saved) fun _ => .ret r : PoolProg BPlusTree).Follows (.only (OnlyFetches p)) (fun _ _ => True)
        (fun _ _ => True) () := ⟨trivial, fun _ _ => by cases r <;> trivial⟩
  refine ⟨trivial, fun saved _ => (follows_andThen _ _).mpr ((follows_bind _ _).mpr ⟨rfl, fun r _ => ?_⟩)⟩
  cases r with
  | error e => exact hend saved _
  | ok _ =>
    refine (follows_bind _ _).mpr ((follows_bind _ _).mpr ⟨trivial, fun pg _ => (follows_ite _ _ _).mpr ?_⟩)
    refine ⟨fun _ => hend saved _, fun _ => (follows_ite _ _ _).mpr ?_⟩
    exact ⟨fun _ => hend saved _, fun _ => hend saved _⟩

/-- Reopening makes no page and fetches only headers, so it is inside the pool's contract. -/
theorem avoids_reopen (h : ∀ t, .index t ∈ objs → Askable cfg t.headerPageId) {b : BufferPool} :
    (reopen objs).Avoids (answer cfg) (Outside cfg) b := by
  induction objs generalizing b with
  | nil => trivial
  | cons o objs ih =>
    have hrest : ∀ {b}, (reopen objs).Avoids (answer cfg) (Outside cfg) b := ih fun t ht => h t (List.mem_cons_of_mem _ ht)
    cases o with
    | index t =>
      have hask := h t List.mem_cons_self
      refine avoids_bind.mpr ⟨?_, fun t' b' _ => avoids_bind.mpr ⟨hrest, fun _ _ _ => trivial⟩⟩
      refine (open_only t.headerPageId).avoids fun b c hc hout => ?_
      cases c with
      | new => exact hc
      | fetch latch p =>
        cases hc
        exact hout hask
      | _ => exact hout
    | table t => exact avoids_bind.mpr ⟨hrest, fun _ _ _ => trivial⟩

/-- The handle of a table opened again: what it had, with the hint back at the first page. -/
theorem holds_open {t : TableHeap} {v : Value} {foot : Set PageId} {pages : PageId → Option Page}
    (h : Object.Holds (.table t) v foot pages) :
    Object.Holds (.table (TableHeap.open_ t.firstPageId t.lastPageId)) v foot pages := by
  cases v with
  | index m => exact h.elim
  | table m =>
    obtain ⟨ps, hps, hfoot⟩ := h
    exact ⟨ps, ⟨hps.table, hps.first, hps.last, List.mem_of_mem_head? hps.first⟩, hfoot⟩

theorem wp_reopen (hq : s.guards = []) (h : ∀ t, .index t ∈ objs → ∃ T, BPlusTree.TreeAt t s.pages T) :
    wp ((reopen objs).run (PageStore.answer env))
      (fun objs' s' => s'.pages = s.pages ∧
        List.Forall₂ (fun o o' => ∀ v foot, Object.Holds o v foot s.pages → Object.Holds o' v foot s.pages) objs objs')
      (fun e _ => env.RefusesUnder 1 e) s := by
  induction objs generalizing s with
  | nil => exact ⟨rfl, .nil⟩
  | cons o objs ih =>
    have hrest : ∀ t, .index t ∈ objs → ∃ T, BPlusTree.TreeAt t s.pages T := fun t ht => h t (List.mem_cons_of_mem _ ht)
    cases o with
    | index t =>
      obtain ⟨T, hT⟩ := h t List.mem_cons_self
      have hfree : s.conflicts .read t.headerPageId = false :=
        (BPlusTree.apart_of_quiet hq).unlatched (T := T) _ List.mem_cons_self
      rw [reopen, run_bind, BPlusTree.Code.run_open]
      refine wp_call (BPlusTree.wp_open hT hfree) (fun t' s' hr => ?_) fun e s' hr => ?_
      · obtain ⟨rfl, hr⟩ := hr
        rw [run_bind]
        refine wp_call (ih (hr.guards.trans hq) (hr.pages ▸ hrest)) (fun objs' s'' hr' => ?_) fun e s'' he => he
        rw [hr.pages] at hr'
        exact ⟨hr'.1, .cons (fun _ _ hv => hv) hr'.2⟩
      · have hcause := hr.1.cause
        rw [hq] at hcause
        exact hcause
    | table t =>
      rw [reopen, run_bind]
      refine wp_call (ih hq hrest) (fun objs' s' hr => ?_) fun e s' he => he
      exact ⟨hr.1, .cons (fun _ _ hv => holds_open hv) hr.2⟩

end Reopen

section Restart
variable {cfg : PoolConfig} {build : Build} {fuel n n' : Nat} {st : State} {vs : List Value}

theorem Holds.trees (h : Holds n st vs) : ∀ t, .index t ∈ st.2 → ∃ T, BPlusTree.TreeAt t st.1.view T := by
  intro t ht
  obtain ⟨feet, hb⟩ := h.beside
  obtain ⟨i, hi, hget⟩ := List.mem_iff_getElem.mp ht
  obtain ⟨T, -, hT, -⟩ := index_value (s := seen st.1) hb (List.getElem?_eq_some_iff.mpr ⟨hi, hget⟩)
  exact ⟨T, hT⟩

/-- The objects of a client in an idle pool, opened again. -/
theorem Holds.reopened (h : Holds n st vs) (hrel : DiskManager.Reliable cfg.disk) (hn : 1 ≤ n) :
    ∃ objs b, (reopen st.2).run (answer cfg) st.1 = some (.ok objs, b) ∧ Holds n (b, objs) vs := by
  obtain ⟨feet, hb⟩ := h.beside
  have hav : (reopen st.2).Avoids (answer cfg) (Outside cfg) st.1 := avoids_reopen fun t ht _ => by
    obtain ⟨T, hT⟩ := h.trees t ht
    exact Int32.le_trans (by decide) (Int32.le_of_lt (hT.ids _ List.mem_cons_self))
  have hspec := Mirrors.wp_reliable (B := fun _ _ => False) hrel h.mirrors keepsGuards_reopen hav fun env _ =>
    wp_mono (wp_reopen (s := seen st.1) rfl h.trees) (fun _ _ ha => ha) fun _ _ he => .inr (he.mono hn)
  rcases wp_run hspec with ⟨objs, b, hrun, s', hm, ⟨hpages, hsame⟩, hg⟩ | ⟨_, _, _, _, _, hf, _⟩
  · refine ⟨objs, b, hrun, hm.inv, List.map_eq_nil_iff.mp (hm.guards.trans hg), hm.capacity, feet, ?_⟩
    rw [hm.pages, hpages]
    exact hb.rename hsame
  · exact hf.elim

/-- What a `Shutdown` that returned OK leaves behind, on whatever disk. -/
theorem Holds.shut {cfg' : PoolConfig} {b : BufferPool} (h : Holds n st vs) (hup : st.1.isShutdown = false)
    (hdown : shutdown cfg st.1 = some (.ok (), b)) (hrel : DiskManager.Reliable cfg'.disk) (n' : Nat) :
    ∃ d, DiskManager.open_ cfg'.disk b.disk = some (.ok (), d) ∧ Holds n' (new d n', st.2) vs := by
  obtain ⟨feet, hb⟩ := h.beside
  obtain ⟨hq, hview⟩ := shutdown_leaves h.inv h.idle hup hdown
  obtain ⟨d, hopen, hre, hd⟩ := BufferPool.reopen hq.inv.catalog_sound hrel
  -- the new count is the length of the file, so every page that was there is
  have hkept : ∀ p, st.1.view p ≠ none → onDiskView d p = st.1.view p := by
    intro p hp
    have hin : p < b.disk.pageCount := hq.pageCount.symm ▸ (h.inv.shown_inside hp).2
    have hin' : p < d.pageCount := hre.pageCount.symm ▸ PageId.lt_of_lt_of_le hin hq.inv.two_le_count.2
    rw [← hview]
    exact onDiskView_congr ⟨fun _ => hin, fun _ => hin'⟩ fun _ _ => by rw [hre.file]
  exact ⟨d, hopen, inv_new hd.sound hd.catalog, rfl, rfl, feet, hb.keep hkept⟩

/-- A restart on a disk that does not fail. -/
theorem restart_ok (h : Holds n st vs) (hup : st.1.isShutdown = false) (hrel : DiskManager.Reliable cfg.disk) (hn : 1 ≤ n') :
    ∃ st', restart cfg n' st = some (.ok .done, st') ∧ Holds n' st' vs ∧ st'.1.isShutdown = false := by
  rcases wp_run (wp_shutdown h.inv hup h.idle : wp (shutdown cfg) _ _ st.1) with ⟨_, b, hdown, -⟩ | ⟨e, b, -, hbad⟩
  · obtain ⟨d, hopen, hnew⟩ := h.shut hup hdown hrel n'
    obtain ⟨objs, b', hrun, h'⟩ := hnew.reopened hrel hn
    refine ⟨(b', objs), ?_, h', fixesFlag_run cfg (reopen st.2) (new d n') _ b' hrun⟩
    unfold restart
    rw [hdown]
    dsimp only
    rw [hopen]
    dsimp only
    rw [hrun]
  · exact absurd hrel hbad.2.2

end Restart

/-! Requests and restarts. -/

inductive Action where
  | request (req : Request)
  /-- With another number of frames, if the client likes. -/
  | restart (frames : Nat)

section Act
variable (cfg : PoolConfig) (build : Build) (fuel : Nat)

def act : Action → Exec State Status Reply
  | .request req => perform cfg build fuel req
  | .restart n => restart cfg n

def ActionLegal (st : State) : Action → Prop
  | .request req => Admits cfg build fuel st req
  | .restart n => 2 ≤ n

end Act

/-- What the client sees: the maps, and the size of the pool. -/
def Behaves (m : Nat × List Value) : Action → Except Status Reply → Nat × List Value → Prop
  | .request req, a, m' => m'.1 = m.1 ∧ Serves m.1 m.2 req a m'.2
  | .restart n, a, m' => a = .ok .done ∧ m' = (n, m.2)

/-- A pool in use. -/
structure Up (st : State) (m : Nat × List Value) : Prop where
  holds : Holds m.1 st m.2
  frames : 2 ≤ m.1
  flag : st.1.isShutdown = false

section Runs
variable {cfg : PoolConfig} {build : Build} {fuel : Nat}

theorem perform_flag {req : Request} {st st' : State} {a : Except Status Reply}
    (h : perform cfg build fuel req st = some (a, st')) : st'.1.isShutdown = st.1.isShutdown := by
  unfold perform at h
  rcases hrun : (serve build fuel st.2 req).run (answer cfg) st.1 with _ | ⟨_ | x, b⟩ <;> rw [hrun] at h <;> cases h
  · exact fixesFlag_run cfg _ _ _ _ hrun
  · exact fixesFlag_run cfg _ _ _ _ hrun

theorem simulates_actions (hfuel : 2 ^ 64 < fuel) (hrel : DiskManager.Reliable cfg.disk) :
    Refine.Simulation (act cfg build fuel) Behaves (ActionLegal cfg build fuel) Up fun _ => 0 where
  step {st m action} hlegal h := by
    cases action with
    | request req =>
      obtain ⟨a, st', vs', hrun, h', -, hspec⟩ := (simulates_reliable hfuel hrel h.frames).step hlegal h.holds
      exact ⟨a, st', (m.1, vs'), hrun, ⟨h', h.frames, (perform_flag hrun).trans h.flag⟩, Nat.le_refl _,
        fun _ => ⟨rfl, hspec rfl⟩⟩
    | restart n =>
      obtain ⟨st', hrun, h', hflag⟩ := restart_ok h.holds h.flag hrel (Nat.le_of_succ_le hlegal)
      exact ⟨_, st', (n, m.2), hrun, ⟨h', hlegal, hflag⟩, Nat.le_refl _, fun _ => ⟨rfl, rfl⟩⟩

theorem up_new {d : DiskManager} {n : Nat} (hd : Opened d) (hn : 2 ≤ n) : Up (new d n, []) (n, []) where
  holds := ⟨inv_new hd.sound hd.catalog, rfl, rfl, fun _ => ∅, .nil _ _ _⟩
  frames := hn
  flag := rfl

/-- A request on any handles, over pages that may hold anything. -/
theorem perform_atRest {st st' : State} {req : Request} {a : Except Status Reply} (hinv : st.1.Inv keepsTypes [])
    (hrest : st.1.AtRest) (hav : (serve build fuel st.2 req).Avoids (answer cfg) (Outside cfg) st.1)
    (h : perform cfg build fuel req st = some (a, st')) : st'.1.Inv keepsTypes [] ∧ st'.1.AtRest := by
  unfold perform at h
  rcases hrun : (serve build fuel st.2 req).run (answer cfg) st.1 with _ | ⟨_ | x, b⟩ <;> rw [hrun] at h <;> cases h
  · exact (mirrors_seen hinv hrest.1).run_atRest rfl (keepsGuards_serve req) hav hrun
  · exact (mirrors_seen hinv hrest.1).run_atRest rfl (keepsGuards_serve req) hav hrun

/-- No request leaks a pin, whatever is on the pages, whatever handles the client made up and whatever the disk
does: between requests no guard is alive and no frame is pinned, so `Shutdown` finds the pool as it asserts. -/
theorem pool_at_rest_between_requests {b : BufferPool} (hinv : b.Inv keepsTypes []) (hrest : b.AtRest)
    (hup : b.isShutdown = false) {objs : List Object} {reqs : List Request}
    (hkept : Refine.Kept (perform cfg build fuel)
      (fun st req => (serve build fuel st.2 req).Avoids (answer cfg) (Outside cfg) st.1) reqs (b, objs))
    {r : Except Status (List (Except Status Reply))} {st : State}
    (hrun : Refine.run (perform cfg build fuel) reqs (b, objs) = some (r, st)) :
    st.1.AtRest ∧ ∃ a b', shutdown cfg st.1 = some (a, b') := by
  obtain ⟨⟨hinv', hrest'⟩, hup'⟩ := hkept.run_preserves (s := (b, objs))
    (I := fun st => (st.1.Inv keepsTypes [] ∧ st.1.AtRest) ∧ st.1.isShutdown = false)
    (fun hav hI h => ⟨perform_atRest hI.1.1 hI.1.2 hav h, (perform_flag h).trans hI.2⟩) ⟨⟨hinv, hrest⟩, hup⟩ hrun
  refine ⟨hrest', ?_⟩
  rcases wp_run (wp_shutdown hinv' hup' hrest'.1 : wp (shutdown cfg) _ _ st.1) with ⟨a, b', h, -⟩ | ⟨e, b', h, -⟩
  · exact ⟨_, b', h⟩
  · exact ⟨_, b', h⟩

/-- The engine from an opened file on. Whatever a client does, on a disk that does not fail: the engine ends every
request and every restart; each index and each table answers as a finite map would that no other request and no
restart touches; and a request is refused only with `BufferPoolFull`, only if it needs more frames than the pool
has, and then it changes nothing. -/
theorem engine_is_finite_maps (hfuel : 2 ^ 64 < fuel) (herr : ∀ i, cfg.ioError i = none) {d : DiskManager} {n : Nat}
    (hd : Opened d) (hn : 2 ≤ n) {actions : List Action}
    (hkept : Refine.Kept (act cfg build fuel) (ActionLegal cfg build fuel) actions (new d n, [])) :
    ∃ as st n' vs, Refine.run (act cfg build fuel) actions (new d n, []) = some (.ok as, st) ∧ Holds n' st vs ∧
      Refine.Allowed Behaves (n, []) actions as (n', vs) := by
  obtain ⟨as, st, m, hrun, hup, -, hallowed⟩ :=
    (simulates_actions hfuel (reliable_of_no_error herr)).run hkept (up_new hd hn)
  exact ⟨as, st, m.1, m.2, hrun, hup.holds, hallowed rfl⟩

def isIndex : Option Object → Bool
  | some (.index _) => true
  | _ => false

def isTable : Option Object → Bool
  | some (.table _) => true
  | _ => false

/-- `Legal` of a client that keeps no record ids. -/
def legalFirst (objs : List Object) : Request → Bool
  | .createIndex _ _ => true
  | .createTable => true
  | .index i _ => isIndex objs[i]?
  | .scanIndex i _ _ => isIndex objs[i]?
  | .table i (.insert _) => isTable objs[i]?
  | .table _ _ => false
  | .scanTable i => isTable objs[i]?

theorem of_isIndex : ∀ {o : Option Object}, isIndex o = true → ∃ t, o = some (.index t)
  | some (.index t), _ => ⟨t, rfl⟩

theorem of_isTable : ∀ {o : Option Object}, isTable o = true → ∃ t, o = some (.table t)
  | some (.table t), _ => ⟨t, rfl⟩

theorem legal_of_legalFirst {objs : List Object} {pages : PageId → Option Page} {req : Request}
    (h : legalFirst objs req = true) : Legal pages objs req := by
  cases req with
  | createIndex leafMax internalMax => trivial
  | createTable => trivial
  | index i op => exact of_isIndex h
  | scanIndex i lo hi => exact of_isIndex h
  | scanTable i => exact of_isTable h
  | table i op =>
    cases op with
    | insert tuple =>
      obtain ⟨t, ht⟩ := of_isTable h
      exact ⟨t, ht, trivial⟩
    | _ => cases h

def admitsFirst (cfg : PoolConfig) (build : Build) (fuel : Nat) (st : State) (req : Request) : Bool :=
  legalFirst st.2 req && (serve build fuel st.2 req).avoids (answer cfg) (Outside cfg) st.1

theorem admits_of_first {st : State} {req : Request} (h : admitsFirst cfg build fuel st req = true) :
    Admits cfg build fuel st req := by
  rw [admitsFirst, Bool.and_eq_true] at h
  exact ⟨legal_of_legalFirst h.1, .of_avoids h.2⟩

def actionFirst (cfg : PoolConfig) (build : Build) (fuel : Nat) (st : State) : Action → Bool
  | .request req => admitsFirst cfg build fuel st req
  | .restart n => 2 ≤ n

theorem actionLegal_of_first {st : State} {action : Action} (h : actionFirst cfg build fuel st action = true) :
    ActionLegal cfg build fuel st action := by
  cases action with
  | request req => exact admits_of_first h
  | restart n => exact of_decide_eq_true (p := 2 ≤ n) h

/-- A new file, operations that are each allowed where they are made, and a good end. -/
def endsFromNew {ι : Type} (cfg : PoolConfig) (run : ι → Exec State Status Reply) (ok : State → ι → Bool) (n : Nat)
    (objs : List Object) (ops : List ι) (good : State → Bool) : Bool :=
  match DiskManager.open_ cfg.disk DiskManager.missing with
  | some (.ok _, d) => Refine.keeps run (fun st op => ok st op = true) ops (new d n, objs) &&
      match Refine.run run ops (new d n, objs) with
      | some (_, st) => good st
      | none => false
  | _ => false

theorem of_endsFromNew {ι : Type} {run : ι → Exec State Status Reply} {ok : State → ι → Bool} {n : Nat}
    {objs : List Object} {ops : List ι} {good : State → Bool} (h : endsFromNew cfg run ok n objs ops good = true) :
    ∃ d r st, DiskManager.open_ cfg.disk DiskManager.missing = some (.ok (), d) ∧
      Refine.Kept run (fun st op => ok st op = true) ops (new d n, objs) ∧
      Refine.run run ops (new d n, objs) = some (r, st) ∧ good st = true := by
  unfold endsFromNew at h
  split at h
  · next d hopen =>
    obtain ⟨hkeeps, hgood⟩ := Bool.and_eq_true_iff.mp h
    split at hgood
    · next r st hrun => exact ⟨d, r, st, hopen, .of_keeps hkeeps, hrun, hgood⟩
    · cases hgood
  · cases h

/-- An index and a table in four frames, a restart with two, and both read. -/
theorem engine_is_finite_maps_demo : ∃ d as st n' vs,
    DiskManager.open_ tinyPool.disk DiskManager.missing = some (.ok (), d) ∧
    Refine.run (act tinyPool ⟨true, Bytes.Region.zero⟩ (2 ^ 64 + 1))
      [.request (.createIndex 4 4), .request .createTable, .request (.index 0 (.insert 5 ⟨7, 1⟩)),
        .request (.table 1 (.insert [1, 2, 3])), .restart 2, .request (.index 0 (.get 5)), .request (.scanTable 1)]
      (new d 4, []) = some (.ok as, st) ∧ Holds n' st vs ∧
    Refine.Allowed Behaves (4, [])
      [.request (.createIndex 4 4), .request .createTable, .request (.index 0 (.insert 5 ⟨7, 1⟩)),
        .request (.table 1 (.insert [1, 2, 3])), .restart 2, .request (.index 0 (.get 5)), .request (.scanTable 1)]
      as (n', vs) := by
  have hlegal : endsFromNew tinyPool (act tinyPool ⟨true, Bytes.Region.zero⟩ (2 ^ 64 + 1))
      (actionFirst tinyPool ⟨true, Bytes.Region.zero⟩ (2 ^ 64 + 1)) 4 []
      [.request (.createIndex 4 4), .request .createTable, .request (.index 0 (.insert 5 ⟨7, 1⟩)),
        .request (.table 1 (.insert [1, 2, 3])), .restart 2, .request (.index 0 (.get 5)), .request (.scanTable 1)]
      (fun _ => true) = true := by decide +kernel
  obtain ⟨d, -, -, hopen, hkept, -⟩ := of_endsFromNew hlegal
  obtain ⟨as, st, n', vs, hrun, h⟩ := engine_is_finite_maps (Nat.lt_succ_self _) (fun _ => rfl) (opened_new hopen)
    (by decide) (hkept.imp fun _ _ => actionLegal_of_first)
  exact ⟨d, as, st, n', vs, hopen, hrun, h⟩

/-- Handles that name the catalog page and a page that is not there. -/
theorem pool_at_rest_between_requests_demo : ∃ d r st,
    DiskManager.open_ tinyPool.disk DiskManager.missing = some (.ok (), d) ∧
    Refine.run (perform tinyPool ⟨true, Bytes.Region.zero⟩ (2 ^ 64 + 1))
      [.index 0 (.insert 5 ⟨7, 1⟩), .table 1 (.delete ⟨1, 0⟩), .scanTable 1, .scanIndex 2 0 9]
      (new d 2, [.index ⟨1, 4, 4⟩, .table ⟨1, 1, 1⟩, .index ⟨9, 4, 4⟩]) = some (r, st) ∧ st.1.AtRest := by
  have hends : endsFromNew tinyPool (perform tinyPool ⟨true, Bytes.Region.zero⟩ (2 ^ 64 + 1))
      (fun st req => (serve ⟨true, Bytes.Region.zero⟩ (2 ^ 64 + 1) st.2 req).avoids (answer tinyPool) (Outside tinyPool) st.1)
      2 [.index ⟨1, 4, 4⟩, .table ⟨1, 1, 1⟩, .index ⟨9, 4, 4⟩]
      [.index 0 (.insert 5 ⟨7, 1⟩), .table 1 (.delete ⟨1, 0⟩), .scanTable 1, .scanIndex 2 0 9] (fun _ => true) = true := by
    decide +kernel
  obtain ⟨d, r, st, hopen, hkept, hrun, -⟩ := of_endsFromNew hends
  have hnew : (new d 2).Inv keepsTypes [] := inv_new (opened_new hopen).sound (opened_new hopen).catalog
  exact ⟨d, r, st, hopen, hrun, (pool_at_rest_between_requests hnew (hnew.atRest rfl) rfl
    (hkept.imp fun _ _ => .of_avoids) hrun).1⟩

/-- The engine on a disk that may fail at any call. It ends every request; one that is refused leaves every object
as it was, except that an update may leave a row twice in its table; the others answer as the maps do. And if
`Shutdown` then returns OK, the file holds every object as it is. -/
theorem engine_survives_faults (hfuel : 2 ^ 64 < fuel) {d : DiskManager} (hd : Opened d) {n : Nat} {reqs : List Request}
    (hkept : Refine.Kept (perform cfg build fuel) (Admits cfg build fuel) reqs (new d n, [])) :
    ∃ as st vs, Refine.run (perform cfg build fuel) reqs (new d n, []) = some (.ok as, st) ∧ Holds n st vs ∧
      Refine.Allowed Survives [] reqs as vs ∧
      ∀ b, shutdown cfg st.1 = some (.ok (), b) → ∀ cfg' n', (∀ i, cfg'.ioError i = none) → 1 ≤ n' →
        ∃ d' objs b', DiskManager.open_ cfg'.disk b.disk = some (.ok (), d') ∧
          (reopen st.2).run (answer cfg') (new d' n') = some (.ok objs, b') ∧ Holds n' (b', objs) vs := by
  have hsim : Refine.Simulation (perform cfg build fuel) Survives (Admits cfg build fuel)
      (fun st vs => Holds n st vs ∧ st.1.isShutdown = false) fun _ => 0 :=
    ⟨fun {st vs req} hadm h => by
      obtain ⟨a, st', vs', hrun, h', hle, hspec⟩ := (simulates_faulty hfuel).step hadm h.1
      exact ⟨a, st', vs', hrun, ⟨h', (perform_flag hrun).trans h.2⟩, hle, hspec⟩⟩
  have hstart : Holds n (new d n, []) [] := ⟨inv_new hd.sound hd.catalog, rfl, rfl, fun _ => ∅, .nil _ _ _⟩
  obtain ⟨as, st, vs, hrun, ⟨hholds, hup⟩, -, hallowed⟩ := hsim.run hkept ⟨hstart, rfl⟩
  refine ⟨as, st, vs, hrun, hholds, hallowed rfl, fun b hdown cfg' n' herr hn => ?_⟩
  obtain ⟨d', hopen, hnew⟩ := hholds.shut hup hdown (reliable_of_no_error herr) n'
  obtain ⟨objs, b', hre, h'⟩ := hnew.reopened (reliable_of_no_error herr) hn
  exact ⟨d', objs, b', hopen, hre, h'⟩

/-- A disk whose fifteenth call fails: the write of a victim, during the first insertion into the index. -/
def failsOnce : PoolConfig := ⟨true, 0, fun i => if i = 14 then some "EIO" else none, ""⟩

theorem engine_survives_faults_demo : ∃ d as st vs,
    DiskManager.open_ failsOnce.disk DiskManager.missing = some (.ok (), d) ∧
    Refine.run (perform failsOnce ⟨true, Bytes.Region.zero⟩ (2 ^ 64 + 1))
      [.createIndex 4 4, .createTable, .index 0 (.insert 5 ⟨7, 1⟩), .table 1 (.insert [1, 2, 3]), .index 0 (.get 5)]
      (new d 2, []) = some (.ok as, st) ∧ Holds 2 st vs ∧
    Refine.Allowed Survives []
      [.createIndex 4 4, .createTable, .index 0 (.insert 5 ⟨7, 1⟩), .table 1 (.insert [1, 2, 3]), .index 0 (.get 5)]
      as vs := by
  have hlegal : endsFromNew failsOnce (perform failsOnce ⟨true, Bytes.Region.zero⟩ (2 ^ 64 + 1))
      (admitsFirst failsOnce ⟨true, Bytes.Region.zero⟩ (2 ^ 64 + 1)) 2 []
      [.createIndex 4 4, .createTable, .index 0 (.insert 5 ⟨7, 1⟩), .table 1 (.insert [1, 2, 3]), .index 0 (.get 5)]
      (fun _ => true) = true := by decide +kernel
  obtain ⟨d, -, -, hopen, hkept, -⟩ := of_endsFromNew hlegal
  obtain ⟨as, st, vs, hrun, hholds, hallowed, -⟩ := engine_survives_faults (Nat.lt_succ_self _) (opened_new hopen)
    (hkept.imp fun _ _ => admits_of_first)
  exact ⟨d, as, st, vs, hopen, hrun, hholds, hallowed⟩

end Runs
end Engine
end KernSql
