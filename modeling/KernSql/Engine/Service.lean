import KernSql.Engine.Requests
import KernSql.Index.IndexGuards
import KernSql.Buffer.PoolRefine

/- The engine over the buffer pool.

   Here the calls of a request go to the pool, and from there to the disk. The code
   of a request takes and drops its guards as it should whatever it reads
   (`keepsGuards_serve`), so the pool answers it as some page store would, and the
   specification over page stores applies. With a disk that does not fail the only
   refusal left is that of a pool without a free frame, and only if the request
   needs more frames than there are; with one that fails, a request that is refused
   leaves every object as it was, an update of a table excepted. -/
namespace KernSql.Engine
open Exec Prog BufferPool
open Pool (KeepsGuards)

/-- A pool, and the objects its client has in it. -/
abbrev State := BufferPool × List Object

def perform (cfg : PoolConfig) (build : Build) (fuel : Nat) (req : Request) : Exec State Status Reply := fun st =>
  match (serve build fuel st.2 req).run (answer cfg) st.1 with
  | none => none
  | some (.error e, b) => some (.error e, (b, st.2))
  | some (.ok x, b) => some (x.1, (b, x.2))

/-- The requests a client may make: on its own objects, and while the pool has ids for new pages. -/
def Admits (cfg : PoolConfig) (build : Build) (fuel : Nat) (st : State) (req : Request) : Prop :=
  Legal st.1.view st.2 req ∧ (serve build fuel st.2 req).Avoids (answer cfg) (Outside cfg) st.1

/-- Between two requests: no guard is held, and each object has its value. -/
structure Holds (n : Nat) (st : State) (vs : List Value) : Prop where
  inv : st.1.Inv keepsTypes []
  idle : st.1.held = []
  capacity : st.1.capacity = n
  beside : ∃ feet, Footprint.Beside layout st.2 vs feet st.1.view

section Discipline
variable {α : Type} {build : Build} {fuel : Nat} {objs : List Object}

/-- The guards a request has at a time, if their number is fixed: the tables need two, the indexes one or two a level. -/
def limit : Request → Option Nat
  | .createTable => some 2
  | .table _ _ => some 2
  | .scanTable _ => some 2
  | _ => none

theorem keepsGuards_make {lim : Option Nat} {m : PoolProg α} {object : α → Object} (h : KeepsGuards lim m []) :
    KeepsGuards lim (make objs m object) [] := by
  unfold KeepsGuards make
  rw [follows_bind, follows_attempt]
  exact h.mono (fun _ _ hg => hg) fun _ _ hg => hg

theorem keepsGuards_ask {lim : Option Nat} {m : PoolProg α} {reply : α → Reply} (h : KeepsGuards lim m []) :
    KeepsGuards lim (ask objs m reply) [] := by
  unfold KeepsGuards ask
  rw [follows_bind, follows_attempt]
  exact h.mono (fun _ _ hg => hg) fun _ _ hg => hg

/-- Whatever is on the pages, a request takes and drops its guards as it should, and has none at its end. -/
theorem keepsGuards_serve (req : Request) : KeepsGuards (limit req) (serve build fuel objs req) [] := by
  cases req with
  | createIndex leafMax internalMax => exact keepsGuards_make (BPlusTree.Code.follows_create leafMax internalMax)
  | createTable => exact keepsGuards_make (TableHeap.Code.follows_create (by simp [limit]))
  | index i op =>
    rw [serve]
    split
    · exact keepsGuards_ask (BPlusTree.Code.follows_perform _ op)
    · trivial
  | table i op =>
    rw [serve]
    split
    · next t _ =>
      have hop : Pool.ObjectKeeps (some 2) (TableHeap.Code.perform build fuel op) ([], t) :=
        TableHeap.Code.follows_perform (by simp) op
      exact hop.passing.bind (fun _ _ hg => hg) fun _ _ hg => hg
    · trivial
  | scanIndex i lo hi =>
    rw [serve]
    split
    · exact keepsGuards_ask (BPlusTree.Code.follows_scanAll (by simp [limit]) fuel fuel)
    · trivial
  | scanTable i =>
    rw [serve]
    split
    · exact keepsGuards_ask (TableIterator.Code.follows_scanAll (by simp [limit]) fuel _)
    · trivial

end Discipline

section Step
variable {cfg : PoolConfig} {build : Build} {fuel n : Nat} {st : State} {vs : List Value} {req : Request}

/-- The store a client sees of an idle pool. -/
def seen (b : BufferPool) : PageStore := { PageStore.empty with pages := b.view }

theorem mirrors_seen {b : BufferPool} (hinv : b.Inv keepsTypes []) (hheld : b.held = []) : Mirrors b.capacity (seen b) b where
  inv := hinv
  pages := rfl
  guards := by
    rw [hheld]
    rfl
  capacity := rfl

theorem Holds.mirrors (h : Holds n st vs) : Mirrors n (seen st.1) st.1 := h.capacity ▸ mirrors_seen h.inv h.idle

/-- One request, in any mode that fits the pool and the client. -/
theorem perform_explained (hfuel : 2 ^ 64 < fuel) (h : Holds n st vs) (hadm : Admits cfg build fuel st req) {mode : Mode}
    (hfit : Mirrors.Fits cfg n (limit req) mode) (spare : Status) :
    ∃ a st' script vs', perform cfg build fuel req st = some (a, st') ∧ Holds n st' vs' ∧
      Explained (.scripted mode spare script) vs req a vs' := by
  obtain ⟨feet, hb⟩ := h.beside
  obtain ⟨hlegal, hav⟩ := hadm
  have hkeep : KeepsGuards (limit req) (serve build fuel st.2 req) (seen st.1).guards := keepsGuards_serve req
  have hspec : ∀ script, wp ((serve build fuel st.2 req).run (PageStore.answer (.scripted mode spare script)))
      (fun x s' => Outcome (.scripted mode spare script) vs req x s' ∧ s'.guards = (seen st.1).guards)
      (fun _ s' => False ∧ s'.guards = (seen st.1).guards) (seen st.1) := fun script =>
    PageStore.wp_keeps PoolEnv.scripted_lawful hkeep
      (wp_serve PoolEnv.scripted_lawful hfuel rfl (s := seen st.1) hb hlegal)
  rcases wp_run ((Mirrors.simulates hfit spare).wp h.mirrors hkeep hav hspec) with ⟨x, b, hrun, hx⟩ | ⟨e, b, -, hx⟩
  · obtain ⟨script, s', hm, ⟨vs', feet', hb', hwhat⟩, hg⟩ := hx
    have hidle : b.held = [] := List.map_eq_nil_iff.mp (hm.guards.trans hg)
    refine ⟨x.1, (b, x.2), script, vs', ?_, ⟨hm.inv, hidle, hm.capacity, feet', hm.pages ▸ hb'⟩, hwhat⟩
    unfold perform
    rw [hrun]
  · obtain ⟨-, -, -, hf, -⟩ := hx
    exact hf.elim

/-- What a pool of `n` frames on a disk that does not fail may do: answer, or say that it is full if the request needs
more frames than that. -/
def Serves (n : Nat) (vs : List Value) (req : Request) (a : Except Status Reply) (vs' : List Value) : Prop :=
  Answers vs req a vs' ∨ (n < frames vs req ∧ vs' = vs ∧ ∃ e, a = .error e ∧ e.code = .bufferPoolFull)

/-- What any pool may do: answer, or fail and leave every object as it was, or double a row. -/
def Survives (vs : List Value) (req : Request) (a : Except Status Reply) (vs' : List Value) : Prop :=
  Answers vs req a vs' ∨ (vs' = vs ∧ ∃ e, a = .error e) ∨ Doubled vs req vs'

/-- The mode of a pool without disk errors. -/
def calm (n : Nat) (req : Request) : Mode := if limit req = none then .full n else .roomy

theorem calm_fits (hrel : DiskManager.Reliable cfg.disk) (hn : 2 ≤ n) : Mirrors.Fits cfg n (limit req) (calm n req) := by
  unfold calm
  cases req <;> first | exact ⟨rfl, hrel⟩ | exact ⟨hrel, 2, rfl, hn⟩

/-- What such a pool refuses, apart from the spare status. -/
theorem calm_cause {spare e : Status} {script : Nat → Verdict} (hspare : spare.code = .bufferPoolFull)
    (hc : Cause (.scripted (calm n req) spare script) vs e req) :
    e = spare ∨ n < frames vs req ∧ e.code = .bufferPoolFull := by
  have hfull (hc : (PoolEnv.scripted (.full n) spare script).RefusesUnder (frames vs req) e) :
      e = spare ∨ n < frames vs req ∧ e.code = .bufferPoolFull := by
    by_cases hroom : frames vs req ≤ n
    · exact .inl (Mode.full_room (hc.mono hroom))
    · exact .inr ⟨Nat.lt_of_not_le hroom, Mode.full_code hspare hc⟩
  cases req with
  | createIndex leafMax internalMax => exact hfull hc
  | index i op => exact hfull hc
  | scanIndex i lo hi => exact hfull hc
  | createTable => exact .inl (Mode.roomy_refuses hc)
  | table i op => exact .inl (Mode.roomy_refuses hc)
  | scanTable i => exact .inl (Mode.roomy_refuses hc)

theorem calm_explained {spare : Status} {script : Nat → Verdict} {a : Except Status Reply} {vs' : List Value}
    (hspare : spare.code = .bufferPoolFull) (h : Explained (.scripted (calm n req) spare script) vs req a vs') :
    Serves n vs req a vs' ∨ a = .error spare := by
  rcases h with hans | ⟨rfl, e, rfl, hc⟩ | ⟨hdouble, s, p, e, hfails⟩
  · exact .inl (.inl hans)
  · rcases calm_cause hspare hc with rfl | ⟨hlt, hcode⟩
    · exact .inr rfl
    · exact .inl (.inr ⟨hlt, rfl, e, rfl, hcode⟩)
  · -- a table is never refused a page it has
    cases req with
    | table i op => exact absurd hfails (Mode.roomy_fetches s p)
    | _ => exact hdouble.elim

/-- Requests to a pool on a disk that does not fail. -/
theorem simulates_reliable (hfuel : 2 ^ 64 < fuel) (hrel : DiskManager.Reliable cfg.disk) (hn : 2 ≤ n) :
    Refine.Simulation (perform cfg build fuel) (Serves n) (Admits cfg build fuel) (Holds n) fun _ => 0 where
  step {st vs req} hadm h := by
    -- the spare status of the environment is not the pool's: what holds for two of them holds without
    obtain ⟨a, st', _, vs', hrun, h', hwhat⟩ :=
      perform_explained hfuel h hadm (calm_fits hrel hn) ⟨.bufferPoolFull, "one"⟩
    obtain ⟨a₂, st₂, _, vs₂, hrun₂, h₂, hwhat₂⟩ :=
      perform_explained hfuel h hadm (calm_fits hrel hn) ⟨.bufferPoolFull, "two"⟩
    cases hrun.symm.trans hrun₂
    rcases calm_explained rfl hwhat with hs | rfl
    · exact ⟨a, st', vs', hrun, h', Nat.le_refl _, fun _ => hs⟩
    · rcases calm_explained rfl hwhat₂ with hs | heq
      · exact ⟨_, st', vs₂, hrun, h₂, Nat.le_refl _, fun _ => hs⟩
      · exact absurd (Except.error.inj heq) (by decide)

/-- Requests to any pool. -/
theorem simulates_faulty (hfuel : 2 ^ 64 < fuel) :
    Refine.Simulation (perform cfg build fuel) Survives (Admits cfg build fuel) (Holds n) fun _ => 0 where
  step {st vs req} hadm h := by
    have hfit : Mirrors.Fits cfg n (limit req) .faulty := trivial
    obtain ⟨a, st', _, vs', hrun, h', hwhat⟩ := perform_explained hfuel h hadm hfit ⟨.ioError, ""⟩
    refine ⟨a, st', vs', hrun, h', Nat.le_refl _, fun _ => ?_⟩
    rcases hwhat with hans | ⟨rfl, e, rfl, -⟩ | ⟨hdouble, -⟩
    · exact .inl hans
    · exact .inr (.inl ⟨rfl, e, rfl⟩)
    · exact .inr (.inr hdouble)

end Step
end KernSql.Engine
