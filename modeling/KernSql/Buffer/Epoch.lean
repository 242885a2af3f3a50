import KernSql.Lib.Machine
import KernSql.Buffer.BufferPool

/- The dirty epochs of one frame (src/buffer/frame.hpp, page_guard.cpp, and
   FlushFrame and ReclaimFrame of buffer_pool_manager.cpp).

   One frame is watched from the moment its page is published until the frame is
   vacated. Any number of threads use it: writers and readers through guards,
   flushers, and reclaimers. A step is one access to shared memory: taking or
   dropping the content latch, one load, store or exchange of an epoch, one page
   write. So a flusher samples the epoch, writes, unlatches and raises
   `flushed_epoch_` in four steps with anything in between, and the loop of
   `MarkFlushed` runs exchange by exchange. The two checks of a reclaimer are one
   step each: they are made under the shard lock and the frame's mutex.

   A frame whose bytes differ from the page on disk must read as dirty, and must
   go on reading so whatever the flushers under way still have in hand. Behind is
   the name for that here: `flushed_epoch_`, and every sample some flusher is
   about to store there, are below `dirty_epoch_`. -/
namespace KernSql.Epoch

/-- What a page write that fails leaves on disk: some bytes of the old page, some of the new one. -/
structure Tear where
  mix : Page → Page → Page
  same : ∀ pg, mix pg pg = pg

/-- Where a thread is with the frame. `reclaim` tells a reclaimer's flush from a plain one. -/
inductive Actor where
  | done
  /-- About to call `UnpinPage`. -/
  | unpin
  | wantWrite
  | writing
  /-- `MarkDirty` is made, the exclusive latch still held. -/
  | marked
  | wantRead
  | reading
  /-- `IsDirty` loads `dirty_epoch_` first and `flushed_epoch_` second. -/
  | check (reclaim : Bool)
  | compare (reclaim : Bool) (loaded : Nat)
  | wantShared (reclaim : Bool)
  | latched (reclaim : Bool)
  | sampled (reclaim : Bool) (observed : Nat)
  | written (reclaim : Bool) (observed : Nat)
  | writeFailed (reclaim : Bool)
  /-- `MarkFlushed`: load `flushed_epoch_`, then exchange until it is not below the sample. -/
  | load (reclaim : Bool) (observed : Nat)
  | exchange (reclaim : Bool) (observed current : Nat)
  | revalidate
  deriving DecidableEq, Repr

namespace Actor

def pins : Actor → Bool
  | done => false
  | _ => true

/-- Does the thread hold the content latch exclusively? -/
def exclusive : Actor → Bool
  | writing | marked => true
  | _ => false

def shared : Actor → Bool
  | reading | latched _ | sampled _ _ | written _ _ | writeFailed _ => true
  | _ => false

/-- The epoch a flusher has sampled and not yet made its way through `MarkFlushed` with. -/
def observed : Actor → Option Nat
  | sampled _ o | written _ o | load _ o | exchange _ o _ => some o
  | _ => none

/-- The sample a flusher is about to store. -/
def pending : Actor → Option Nat
  | load _ o | exchange _ o _ => some o
  | _ => none

theorem observed_of_pending {a : Actor} {o : Nat} (h : a.pending = some o) : a.observed = some o := by
  cases a <;> simp_all [pending, observed]

theorem shared_of_exclusive {a : Actor} (h : a.exclusive = true) : a.shared = false := by
  cases a <;> simp_all [exclusive, shared]

end Actor

/-- The frame, and its page as it stands on disk. -/
structure Cell where
  frame : Frame
  disk : Page
  vacated : Bool := false

namespace Cell

def pin (c : Cell) : Cell := { c with frame := { c.frame with pinCount := c.frame.pinCount + 1 } }

/-- The frame becomes free: a reclaimer's stamp. -/
def vacate (c : Cell) : Cell where
  frame := { c.frame.resetEpochs with state := .free, pageId := invalidPage, pinCount := 0 }
  disk := c.disk
  vacated := true

end Cell

def latchFree (acts : List Actor) : Bool := acts.all fun a => !a.exclusive && !a.shared

def noWriter (acts : List Actor) : Bool := acts.all fun a => !a.exclusive

/-- Where `FlushFrame` returns to. -/
def afterFlush (ok reclaim : Bool) : Actor := if ok && reclaim then .revalidate else .unpin

/-- The next step of a thread, among the threads `acts`. -/
def advance (acts : List Actor) (c : Cell) : Actor → Option (Cell × Actor)
  | .done => none
  | .unpin => some ({ c with frame := { c.frame with pinCount := c.frame.pinCount - 1 } }, .done)
  | .wantWrite => if latchFree acts then some (c, .writing) else none
  | .writing => some ({ c with frame := c.frame.markDirty }, .marked)
  | .marked => some (c, .unpin)
  | .wantRead => if noWriter acts then some (c, .reading) else none
  | .reading => some (c, .unpin)
  | .check reclaim => some (c, .compare reclaim c.frame.dirtyEpoch)
  | .compare reclaim loaded =>
    some (c, if c.frame.flushedEpoch < loaded then .wantShared reclaim else afterFlush true reclaim)
  | .wantShared reclaim => if noWriter acts then some (c, .latched reclaim) else none
  | .latched reclaim => some (c, .sampled reclaim c.frame.dirtyEpoch)
  | .sampled reclaim observed => some ({ c with disk := c.frame.data }, .written reclaim observed)
  | .written reclaim observed => some (c, .load reclaim observed)
  | .writeFailed reclaim => some (c, afterFlush false reclaim)
  | .load reclaim observed => some (c, .exchange reclaim observed c.frame.flushedEpoch)
  | .exchange reclaim observed current =>
    if ¬ current < observed then some (c, afterFlush true reclaim)
    else if c.frame.flushedEpoch = current then
      some ({ c with frame := { c.frame with flushedEpoch := observed } }, afterFlush true reclaim)
    else some (c, .exchange reclaim observed c.frame.flushedEpoch)
  | .revalidate =>
    if c.frame.pinCount = 1 ∧ c.frame.isDirty = false then some (c.vacate, .done) else some (c, .unpin)

structure System where
  cell : Cell
  acts : List Actor

/-- What a thread comes to the frame for. -/
inductive Use where
  | write | read | flush
  deriving DecidableEq, Repr

def Use.start : Use → Actor
  | .write => .wantWrite
  | .read => .wantRead
  | .flush => .check false

/-- Who moves next, and what the disk does. -/
inductive Choice where
  /-- A thread finds the page in the table and pins the frame. -/
  | use (u : Use)
  /-- A reclaimer has the frame for its victim. -/
  | reclaim
  | run (i : Nat)
  /-- The owner of a write guard changes the bytes. -/
  | edit (i : Nat) (e : Edit)
  /-- The page write of a flusher fails. -/
  | fail (i : Nat) (tear : Tear)
  /-- `compare_exchange_weak` fails for no reason. -/
  | spurious (i : Nat)

def System.put (s : System) (i : Nat) (c : Cell) (a : Actor) : System := ⟨c, s.acts.set i a⟩

def System.join (s : System) (a : Actor) : System := ⟨s.cell.pin, s.acts ++ [a]⟩

def step (s : System) : Choice → Option System
  | .use u => if s.cell.vacated then none else some (s.join u.start)
  | .reclaim =>
    if s.cell.vacated ∨ s.cell.frame.pinCount ≠ 0 then none
    else if s.cell.frame.isDirty then some (s.join (.check true))
    else some { s with cell := s.cell.vacate }
  | .run i => do
    let a ← s.acts[i]?
    let (c, a) ← advance s.acts s.cell a
    some (s.put i c a)
  | .edit i e =>
    match s.acts[i]? with
    | some .writing =>
      some { s with cell := { s.cell with frame := { s.cell.frame with data := e.apply s.cell.frame.data } } }
    | _ => none
  | .fail i tear =>
    match s.acts[i]? with
    | some (.sampled reclaim _) =>
      some (s.put i { s.cell with disk := tear.mix s.cell.disk s.cell.frame.data } (.writeFailed reclaim))
    | _ => none
  | .spurious i =>
    match s.acts[i]? with
    | some (.exchange reclaim observed _) =>
      some (s.put i s.cell (.exchange reclaim observed s.cell.frame.flushedEpoch))
    | _ => none

/-! What every step keeps. -/

/-- The frame reads as dirty, and still will when the flushers under way are through. -/
structure Behind (c : Cell) (acts : List Actor) : Prop where
  flushed : c.frame.flushedEpoch < c.frame.dirtyEpoch
  pending : ∀ a ∈ acts, ∀ o, a.pending = some o → o < c.frame.dirtyEpoch

structure Inv (c : Cell) (acts : List Actor) : Prop where
  order : c.frame.flushedEpoch ≤ c.frame.dirtyEpoch
  pins : c.frame.pinCount = acts.countP Actor.pins
  samples : ∀ a ∈ acts, ∀ o, a.observed = some o → o ≤ c.frame.dirtyEpoch
  /-- One writer alone, or any number of others. -/
  latch : acts.countP Actor.exclusive = 0 ∨ acts.countP Actor.exclusive = 1 ∧ acts.countP Actor.shared = 0
  /-- A flusher that has written and still holds the latch: nothing has moved since. -/
  written : ∀ reclaim o, .written reclaim o ∈ acts → c.disk = c.frame.data
  marked : .marked ∈ acts → Behind c acts
  settled : acts.countP Actor.exclusive = 0 → c.disk = c.frame.data ∨ Behind c acts
  gone : c.vacated = true → acts.countP Actor.pins = 0 ∧ c.disk = c.frame.data

section Inv
variable {c : Cell} {acts acts' rest : List Actor} {a a' : Actor}

theorem Behind.perm (h : Behind c acts) (hp : acts.Perm acts') : Behind c acts' :=
  ⟨h.flushed, fun a ha => h.pending a (hp.mem_iff.mpr ha)⟩

theorem Behind.swap (h : Behind c (a :: rest)) (hpend : ∀ o, a'.pending = some o → a.pending = some o) :
    Behind c (a' :: rest) := by
  refine ⟨h.flushed, fun b hb o ho => ?_⟩
  cases hb with
  | head => exact h.pending a (.head _) o (hpend o ho)
  | tail _ hb => exact h.pending b (.tail _ hb) o ho

theorem Inv.perm (h : Inv c acts) (hp : acts.Perm acts') : Inv c acts' := by
  refine ⟨h.order, ?_, fun a ha => h.samples a (hp.mem_iff.mpr ha), ?_, ?_, ?_, ?_, ?_⟩
  · rw [← hp.countP_eq]
    exact h.pins
  · rw [← hp.countP_eq, ← hp.countP_eq]
    exact h.latch
  · exact fun reclaim o ho => h.written reclaim o (hp.mem_iff.mpr ho)
  · exact fun hm => (h.marked (hp.mem_iff.mpr hm)).perm hp
  · intro hz
    rw [← hp.countP_eq] at hz
    exact (h.settled hz).imp_right (·.perm hp)
  · rw [← hp.countP_eq]
    exact h.gone

theorem countP_zero {p : Actor → Bool} (h : acts.countP p = 0) : ∀ a ∈ acts, p a = false := by
  intro a ha
  have := List.countP_eq_zero.mp h a ha
  simpa using this

theorem noWriter_iff : noWriter acts = true ↔ acts.countP Actor.exclusive = 0 := by
  simp [noWriter, List.countP_eq_zero]

theorem latchFree_iff : latchFree acts = true ↔ acts.countP Actor.exclusive = 0 ∧ acts.countP Actor.shared = 0 := by
  simp only [latchFree, List.countP_eq_zero, List.all_eq_true, Bool.and_eq_true, Bool.not_eq_true',
    Bool.not_eq_true, forall₂_and]

/-- Without pins no thread is left. -/
theorem done_of_unpinned (h : acts.countP Actor.pins = 0) : ∀ a ∈ acts, a = .done := by
  intro a ha
  have := countP_zero h a ha
  cases a <;> simp_all [Actor.pins]

theorem exclusive_of_unpinned (h : acts.countP Actor.pins = 0) : acts.countP Actor.exclusive = 0 := by
  refine List.countP_eq_zero.mpr fun a ha => ?_
  rw [done_of_unpinned h a ha]
  simp [Actor.exclusive]

/-- Where somebody holds the latch shared there is no writer. -/
theorem Inv.no_writer (h : Inv c acts) (ha : a ∈ acts) (hs : a.shared = true) : acts.countP Actor.exclusive = 0 := by
  cases h.latch with
  | inl hz => exact hz
  | inr hone =>
    have := countP_zero hone.2 a ha
    rw [hs] at this
    cases this

theorem Inv.present (h : Inv c acts) (ha : a ∈ acts) (hp : a.pins = true) : c.vacated = false := by
  cases hv : c.vacated with
  | false => rfl
  | true =>
    have := countP_zero (h.gone hv).1 a ha
    rw [hp] at this
    cases this

/-- A writer has the latch to itself. -/
theorem Inv.alone (h : Inv c (a :: rest)) (ha : a.exclusive = true) :
    rest.countP Actor.exclusive = 0 ∧ rest.countP Actor.shared = 0 := by
  have hl := h.latch
  simp only [List.countP_cons, ha, Actor.shared_of_exclusive ha, if_true] at hl
  refine ⟨by omega, ?_⟩
  cases hl with
  | inl hz => omega
  | inr hone => simpa using hone.2

theorem Inv.samples_swap (h : Inv c (a :: rest)) (ho : a'.observed = none) :
    ∀ b ∈ a' :: rest, ∀ o, b.observed = some o → o ≤ c.frame.dirtyEpoch := by
  intro b hb o hbo
  cases hb with
  | head =>
    rw [ho] at hbo
    cases hbo
  | tail _ hb => exact h.samples b (.tail _ hb) o hbo

theorem Inv.written_swap (h : Inv c (a :: rest)) (ho : a'.observed = none) (reclaim : Bool) (o : Nat)
    (hw : .written reclaim o ∈ a' :: rest) : c.disk = c.frame.data := by
  cases hw with
  | head => cases ho
  | tail _ hw => exact h.written reclaim o (.tail _ hw)

/-- A thread that is not a writer goes on, and the frame is as it was. -/
theorem Inv.quiet (h : Inv c (a :: rest)) (hp : a'.pins = a.pins) (hea : a.exclusive = false)
    (he : a'.exclusive = false) (hs : a'.shared = true → a.shared = true ∨ rest.countP Actor.exclusive = 0)
    (ho : ∀ o, a'.observed = some o → o ≤ c.frame.dirtyEpoch)
    (hw : ∀ reclaim o, a' = .written reclaim o → c.disk = c.frame.data)
    (hpend : ∀ o, a'.pending = some o → a.pending = some o ∨ a.shared = true ∧ c.disk = c.frame.data) :
    Inv c (a' :: rest) := by
  have hex : (a' :: rest).countP Actor.exclusive = (a :: rest).countP Actor.exclusive := by
    simp [hea, he]
  have hpins : (a' :: rest).countP Actor.pins = (a :: rest).countP Actor.pins := by
    simp [List.countP_cons, hp]
  -- A sample newly about to be stored was written out under the shared latch.
  have hkeep : a.shared = true ∧ c.disk = c.frame.data ∨ ∀ o, a'.pending = some o → a.pending = some o := by
    by_cases hd : a.shared = true ∧ c.disk = c.frame.data
    · exact .inl hd
    · exact .inr fun o ho => (hpend o ho).resolve_right hd
  refine ⟨h.order, hpins ▸ h.pins, ?_, ?_, ?_, ?_, ?_, ?_⟩
  · intro b hb o hbo
    cases hb with
    | head => exact ho o hbo
    | tail _ hb => exact h.samples b (.tail _ hb) o hbo
  · rw [hex]
    cases h.latch with
    | inl hz => exact .inl hz
    | inr hone =>
      have hrest : rest.countP Actor.exclusive = 1 := by simpa [List.countP_cons, hea] using hone.1
      have hsa : a.shared = false := countP_zero hone.2 a (.head _)
      have hsa' : a'.shared = false := by
        cases hsh : a'.shared with
        | false => rfl
        | true =>
          cases hs hsh with
          | inl h' => rw [hsa] at h'; cases h'
          | inr h' => omega
      refine .inr ⟨hone.1, ?_⟩
      simpa [List.countP_cons, hsa, hsa'] using hone.2
  · intro reclaim o hb
    cases hb with
    | head => exact hw reclaim o rfl
    | tail _ hb => exact h.written reclaim o (.tail _ hb)
  · intro hm
    cases hm with
    | head => cases he
    | tail _ hm =>
      cases hkeep with
      | inr hk => exact (h.marked (.tail _ hm)).swap hk
      | inl hd =>
        have := countP_zero (h.no_writer (.head _) hd.1) _ (.tail _ hm)
        cases this
  · intro hz
    cases hkeep with
    | inl hd => exact .inl hd.2
    | inr hk => exact (h.settled (hex ▸ hz)).imp_right (·.swap hk)
  · rw [hpins]
    exact h.gone

/-- `FlushFrame` returns. -/
theorem Inv.returns {ok reclaim : Bool} (h : Inv c (a :: rest)) (hp : a.pins = true) (hea : a.exclusive = false) :
    Inv c (afterFlush ok reclaim :: rest) := by
  unfold afterFlush
  split
  · exact h.quiet hp.symm hea rfl nofun nofun nofun nofun
  · exact h.quiet hp.symm hea rfl nofun nofun nofun nofun

/-- A page write, whole or torn: where the disk was right it stays right. -/
theorem Inv.setDisk {pg : Page} (h : Inv c acts) (hpg : c.disk = c.frame.data → pg = c.frame.data) :
    Inv { c with disk := pg } acts where
  order := h.order
  pins := h.pins
  samples := h.samples
  latch := h.latch
  written reclaim o ho := hpg (h.written reclaim o ho)
  marked hm := ⟨(h.marked hm).flushed, (h.marked hm).pending⟩
  settled hz := (h.settled hz).imp hpg fun hb => ⟨hb.flushed, hb.pending⟩
  gone hv := ⟨(h.gone hv).1, hpg (h.gone hv).2⟩

/-- `MarkFlushed` stores its sample. -/
theorem Inv.raise {o : Nat} (h : Inv c acts) (ha : a ∈ acts) (ho : a.pending = some o) :
    Inv { c with frame := { c.frame with flushedEpoch := o } } acts := by
  have hb : Behind c acts → Behind { c with frame := { c.frame with flushedEpoch := o } } acts := by
    intro hb
    exact ⟨hb.pending a ha o ho, hb.pending⟩
  exact ⟨h.samples a ha o (Actor.observed_of_pending ho), h.pins, h.samples, h.latch, h.written,
    fun hm => hb (h.marked hm), fun hz => (h.settled hz).imp_right hb, h.gone⟩

/-- The exclusive latch is taken: the bytes may change from here on. -/
theorem Inv.latchWrite (h : Inv c (.wantWrite :: rest)) (hf : latchFree (.wantWrite :: rest) = true) :
    Inv c (.writing :: rest) := by
  obtain ⟨hex, hsh⟩ := latchFree_iff.mp hf
  have hex' : rest.countP Actor.exclusive = 0 := by simpa [List.countP_cons, Actor.exclusive] using hex
  have hsh' : rest.countP Actor.shared = 0 := by simpa [List.countP_cons, Actor.shared] using hsh
  refine ⟨h.order, h.pins, h.samples_swap rfl, ?_, h.written_swap rfl, ?_, ?_, ?_⟩
  · exact .inr (by simp [List.countP_cons, Actor.exclusive, Actor.shared, hex', hsh'])
  · intro hm
    cases hm with
    | tail _ hm =>
      have := countP_zero hex' _ hm
      cases this
  · intro hz
    simp [List.countP_cons, Actor.exclusive] at hz
  · intro hv
    have := h.present (.head _) rfl
    rw [hv] at this
    cases this

/-- `MarkDirty` under the exclusive latch: every sample taken so far is now behind. -/
theorem Inv.markDirty (h : Inv c (.writing :: rest)) :
    Inv { c with frame := c.frame.markDirty } (.marked :: rest) := by
  have hlatch := h.alone rfl
  have hbehind : Behind { c with frame := c.frame.markDirty } (.marked :: rest) := by
    refine ⟨Nat.lt_succ_of_le h.order, fun b hb o ho => ?_⟩
    cases hb with
    | head => cases ho
    | tail _ hb => exact Nat.lt_succ_of_le (h.samples b (.tail _ hb) o (Actor.observed_of_pending ho))
  refine ⟨hbehind.flushed.le, h.pins, ?_, ?_, ?_, fun _ => hbehind, fun _ => .inr hbehind, ?_⟩
  · intro b hb o ho
    cases hb with
    | head => cases ho
    | tail _ hb => exact Nat.le_succ_of_le (h.samples b (.tail _ hb) o ho)
  · exact .inr (by simp [List.countP_cons, Actor.exclusive, Actor.shared, hlatch])
  · intro reclaim o ho
    cases ho with
    | tail _ ho =>
      have := countP_zero hlatch.2 _ ho
      cases this
  · intro hv
    have := h.present (.head _) rfl
    rw [hv] at this
    cases this

/-- The exclusive latch is dropped. -/
theorem Inv.unlatchWrite (h : Inv c (.marked :: rest)) : Inv c (.unpin :: rest) := by
  have hbehind : Behind c (.unpin :: rest) := (h.marked (.head _)).swap nofun
  have hex := (h.alone rfl).1
  refine ⟨h.order, h.pins, h.samples_swap rfl, ?_, h.written_swap rfl, fun _ => hbehind, fun _ => .inr hbehind, ?_⟩
  · exact .inl (by simp [Actor.exclusive, hex])
  · intro hv
    have := h.present (.head _) rfl
    rw [hv] at this
    cases this

/-- `UnpinPage`. -/
theorem Inv.unpin (h : Inv c (.unpin :: rest)) :
    Inv { c with frame := { c.frame with pinCount := c.frame.pinCount - 1 } } (.done :: rest) := by
  have hv := h.present (.head _) rfl
  have hpins := h.pins
  simp only [List.countP_cons, Actor.pins, if_true] at hpins
  have hb : Behind c (.unpin :: rest) →
      Behind { c with frame := { c.frame with pinCount := c.frame.pinCount - 1 } } (.done :: rest) := by
    intro hb
    have hdone : Behind c (.done :: rest) := hb.swap nofun
    exact ⟨hdone.flushed, hdone.pending⟩
  refine ⟨h.order, ?_, h.samples_swap rfl, ?_, h.written_swap rfl, ?_, ?_, ?_⟩
  · show c.frame.pinCount - 1 = _
    simp [Actor.pins]
    omega
  · simpa [List.countP_cons, Actor.exclusive, Actor.shared] using h.latch
  · intro hm
    cases hm with
    | tail _ hm => exact hb (h.marked (.tail _ hm))
  · intro hz
    exact (h.settled (by simpa [List.countP_cons, Actor.exclusive] using hz)).imp_right hb
  · intro hv'
    rw [show c.vacated = true from hv'] at hv
    cases hv

/-- A clean frame nobody else has pinned: what it holds is on disk. -/
theorem Inv.clean (h : Inv c acts) (hex : acts.countP Actor.exclusive = 0) (hclean : c.frame.isDirty = false) :
    c.disk = c.frame.data := by
  cases h.settled hex with
  | inl hd => exact hd
  | inr hb =>
    have hdirty : c.frame.isDirty = true := decide_eq_true hb.flushed
    rw [hclean] at hdirty
    cases hdirty

theorem inv_vacate (hp : acts.countP Actor.pins = 0) (hd : c.disk = c.frame.data) : Inv c.vacate acts := by
  have hdone := done_of_unpinned hp
  refine ⟨le_refl 0, by simp [Cell.vacate, hp], ?_, .inl (exclusive_of_unpinned hp), fun _ _ _ => hd, ?_,
    fun _ => .inl hd, fun _ => ⟨hp, hd⟩⟩
  · intro a ha o ho
    rw [hdone a ha] at ho
    cases ho
  · intro hm
    cases hdone _ hm

/-- An exchange that failed goes round again. -/
theorem Inv.again {reclaim : Bool} {o current current' : Nat} (h : Inv c (.exchange reclaim o current :: rest)) :
    Inv c (.exchange reclaim o current' :: rest) :=
  h.quiet rfl rfl rfl nofun (h.samples (.exchange reclaim o current) (.head _)) nofun fun _ => .inl

/-- Every step of every thread. -/
theorem Inv.advance {c' : Cell} (h : Inv c (a :: rest)) (hacts : acts.Perm (a :: rest))
    (hadv : advance acts c a = some (c', a')) : Inv c' (a' :: rest) := by
  have hwriter : noWriter acts = true → rest.countP Actor.exclusive = 0 := by
    intro hn
    rw [noWriter_iff, hacts.countP_eq, List.countP_cons] at hn
    omega
  have hfree : latchFree acts = true → latchFree (a :: rest) = true := by
    intro hf
    rw [latchFree_iff, hacts.countP_eq, hacts.countP_eq] at hf
    exact latchFree_iff.mpr hf
  cases a with
  | done => cases hadv
  | unpin =>
    cases hadv
    exact h.unpin
  | wantWrite =>
    simp only [Epoch.advance] at hadv
    split at hadv
    · next hl =>
      cases hadv
      exact h.latchWrite (hfree hl)
    · cases hadv
  | writing =>
    cases hadv
    exact h.markDirty
  | marked =>
    cases hadv
    exact h.unlatchWrite
  | wantRead =>
    simp only [Epoch.advance] at hadv
    split at hadv
    · next hn =>
      cases hadv
      exact h.quiet rfl rfl rfl (fun _ => .inr (hwriter hn)) nofun nofun nofun
    · cases hadv
  | reading =>
    cases hadv
    exact h.quiet rfl rfl rfl nofun nofun nofun nofun
  | check reclaim =>
    cases hadv
    exact h.quiet rfl rfl rfl nofun nofun nofun nofun
  | compare reclaim loaded =>
    cases hadv
    split
    · exact h.quiet rfl rfl rfl nofun nofun nofun nofun
    · exact h.returns rfl rfl
  | wantShared reclaim =>
    simp only [Epoch.advance] at hadv
    split at hadv
    · next hn =>
      cases hadv
      exact h.quiet rfl rfl rfl (fun _ => .inr (hwriter hn)) nofun nofun nofun
    · cases hadv
  | latched reclaim =>
    cases hadv
    refine h.quiet rfl rfl rfl (fun _ => .inl rfl) ?_ nofun nofun
    intro o ho
    cases ho
    exact le_rfl
  | sampled reclaim observed =>
    cases hadv
    -- The page is on disk now, and stays there while the latch is held.
    exact (h.setDisk fun _ => rfl).quiet rfl rfl rfl (fun _ => .inl rfl)
      (h.samples (.sampled reclaim observed) (.head _)) (fun _ _ _ => rfl) nofun
  | written reclaim observed =>
    cases hadv
    exact h.quiet rfl rfl rfl nofun (h.samples (.written reclaim observed) (.head _)) nofun
      fun _ _ => .inr ⟨rfl, h.written reclaim observed (.head _)⟩
  | writeFailed reclaim =>
    cases hadv
    exact h.returns rfl rfl
  | load reclaim observed =>
    cases hadv
    exact h.quiet rfl rfl rfl nofun (h.samples (.load reclaim observed) (.head _)) nofun fun _ => .inl
  | exchange reclaim observed current =>
    simp only [Epoch.advance] at hadv
    split at hadv
    · cases hadv
      exact h.returns rfl rfl
    split at hadv
    · cases hadv
      exact (h.raise (.head _) rfl).returns rfl rfl
    · cases hadv
      exact h.again
  | revalidate =>
    simp only [Epoch.advance] at hadv
    split at hadv
    · next hc =>
      cases hadv
      -- The one pin is the reclaimer's own, so no writer is left.
      have hpins := h.pins
      simp only [hc.1, List.countP_cons, Actor.pins, if_true] at hpins
      have hrest : rest.countP Actor.pins = 0 := by omega
      have hdisk := h.clean (by simp [Actor.exclusive, exclusive_of_unpinned hrest]) hc.2
      exact inv_vacate (by simp [Actor.pins, hrest]) hdisk
    · cases hadv
      exact h.quiet rfl rfl rfl nofun nofun nofun nofun

end Inv

/-! Whole runs. -/

section Runs
variable {s s' s₀ : System}

/-- A frame at the publication of its page: the page was loaded into it, or made in it by `NewPage`, whose guard is
    just released. Threads may have pinned it and wait for the latch. -/
structure Published (s : System) : Prop where
  bytes : s.cell.frame.dirtyEpoch = 0 ∧ s.cell.disk = s.cell.frame.data ∨ s.cell.frame.dirtyEpoch = 1
  flushed : s.cell.frame.flushedEpoch = 0
  pins : s.cell.frame.pinCount = s.acts.countP Actor.pins
  waiting : ∀ a ∈ s.acts, a.exclusive = false ∧ a.shared = false ∧ a.observed = none
  present : s.cell.vacated = false

theorem Published.inv (h : Published s) : Inv s.cell s.acts := by
  have hex : s.acts.countP Actor.exclusive = 0 := by
    refine List.countP_eq_zero.mpr fun a ha => ?_
    simp [(h.waiting a ha).1]
  have hsample : ∀ a ∈ s.acts, ∀ o, a.observed ≠ some o := by
    intro a ha o ho
    rw [(h.waiting a ha).2.2] at ho
    cases ho
  refine ⟨h.flushed ▸ Nat.zero_le _, h.pins, fun a ha o ho => absurd ho (hsample a ha o), .inl hex, ?_, ?_, ?_, ?_⟩
  · exact fun reclaim o ho => absurd rfl (hsample _ ho o)
  · intro hm
    cases (h.waiting _ hm).1
  · intro _
    cases h.bytes with
    | inl hload => exact .inl hload.2
    | inr hnew =>
      refine .inr ⟨by rw [hnew, h.flushed]; exact Nat.one_pos, fun a ha o ho => ?_⟩
      exact absurd (Actor.observed_of_pending ho) (hsample a ha o)
  · intro hv
    rw [h.present] at hv
    cases hv

/-- A thread that comes to the frame and pins it. -/
theorem Inv.join {a : Actor} (h : Inv s.cell s.acts) (hv : s.cell.vacated = false) (hp : a.pins = true)
    (he : a.exclusive = false) (hs : a.shared = false) (ho : a.observed = none) :
    Inv (s.join a).cell (s.join a).acts := by
  suffices hcons : Inv s.cell.pin (a :: s.acts) from hcons.perm (List.perm_append_singleton a s.acts).symm
  have hb : Behind s.cell s.acts → Behind s.cell.pin (a :: s.acts) := by
    intro hb
    refine ⟨hb.flushed, fun b hmem o hpend => ?_⟩
    cases hmem with
    | head =>
      rw [Actor.observed_of_pending hpend] at ho
      cases ho
    | tail _ hmem => exact hb.pending b hmem o hpend
  refine ⟨h.order, ?_, ?_, ?_, ?_, ?_, ?_, ?_⟩
  · have hpins := h.pins
    simp only [Cell.pin, List.countP_cons, hp, if_true]
    omega
  · intro b hmem o hbo
    cases hmem with
    | head =>
      rw [ho] at hbo
      cases hbo
    | tail _ hmem => exact h.samples b hmem o hbo
  · simpa [List.countP_cons, he, hs] using h.latch
  · intro reclaim o hmem
    cases hmem with
    | head => cases ho
    | tail _ hmem => exact h.written reclaim o hmem
  · intro hmem
    cases hmem with
    | head => cases he
    | tail _ hmem => exact hb (h.marked hmem)
  · intro hz
    exact (h.settled (by simpa [he] using hz)).imp_right hb
  · intro hv'
    rw [show s.cell.vacated = true from hv'] at hv
    cases hv

/-- The owner of a write guard changes the bytes: nobody else is at them, and `MarkDirty` is still to come. -/
theorem Inv.edit {acts : List Actor} {c : Cell} {pg : Page} (h : Inv c acts) (ha : .writing ∈ acts) :
    Inv { c with frame := { c.frame with data := pg } } acts := by
  have hex : acts.countP Actor.exclusive ≠ 0 := fun hz => by cases countP_zero hz _ ha
  have hone := h.latch.resolve_left hex
  have hv := h.present ha rfl
  refine ⟨h.order, h.pins, h.samples, h.latch, ?_, ?_, fun hz => absurd hz hex, ?_⟩
  · intro reclaim o hw
    cases countP_zero hone.2 _ hw
  · exact fun hm => ⟨(h.marked hm).flushed, (h.marked hm).pending⟩
  · intro hv'
    rw [show c.vacated = true from hv'] at hv
    cases hv

/-- One thread's place in the list brought to the front. -/
theorem Inv.put {a a' : Actor} {c : Cell} {i : Nat} (h : Inv s.cell s.acts) (hi : s.acts[i]? = some a)
    (hmove : ∀ rest, s.acts.Perm (a :: rest) → Inv s.cell (a :: rest) → Inv c (a' :: rest)) :
    Inv (s.put i c a').cell (s.put i c a').acts := by
  obtain ⟨hlt, hget⟩ := List.getElem?_eq_some_iff.mp hi
  have hperm : s.acts.Perm (a :: s.acts.eraseIdx i) := (hget ▸ List.getElem_cons_eraseIdx_perm hlt).symm
  exact (hmove _ hperm (h.perm hperm)).perm (List.set_perm_cons_eraseIdx hlt a').symm

theorem Inv.step {ch : Choice} (h : Inv s.cell s.acts) (hs : step s ch = some s') : Inv s'.cell s'.acts := by
  cases ch with
  | use u =>
    simp only [Epoch.step] at hs
    split at hs
    · cases hs
    next hv =>
    cases hs
    cases u <;> exact h.join (by simpa using hv) rfl rfl rfl rfl
  | reclaim =>
    simp only [Epoch.step] at hs
    split at hs
    · cases hs
    next hv =>
    obtain ⟨hv, hpin⟩ := not_or.mp hv
    split at hs
    · cases hs
      exact h.join (by simpa using hv) rfl rfl rfl rfl
    · next hclean =>
      cases hs
      have hpins : s.acts.countP Actor.pins = 0 := by
        have := h.pins
        have := not_not.mp hpin
        omega
      exact inv_vacate hpins (h.clean (exclusive_of_unpinned hpins) (by simpa using hclean))
  | run i =>
    obtain ⟨a, hi, hs⟩ := Option.bind_eq_some_iff.mp hs
    obtain ⟨⟨c, a'⟩, hadv, hs⟩ := Option.bind_eq_some_iff.mp hs
    cases hs
    exact h.put hi fun rest hperm hinv => hinv.advance hperm hadv
  | edit i e =>
    simp only [Epoch.step] at hs
    split at hs
    · next hi =>
      cases hs
      exact h.edit (List.mem_of_getElem? hi)
    · cases hs
  | fail i tear =>
    simp only [Epoch.step] at hs
    split at hs
    · next hi =>
      cases hs
      refine h.put hi fun rest _ hinv => ?_
      -- Where the disk was right, the torn write put the same bytes over themselves.
      have htear : s.cell.disk = s.cell.frame.data → tear.mix s.cell.disk s.cell.frame.data = s.cell.frame.data :=
        fun hd => hd ▸ tear.same _
      exact (hinv.setDisk htear).quiet rfl rfl rfl (fun _ => .inl rfl) nofun nofun nofun
    · cases hs
  | spurious i =>
    simp only [Epoch.step] at hs
    split at hs
    · next hi =>
      cases hs
      exact h.put hi fun rest _ hinv => hinv.again
    · cases hs

/-- **A frame is never falsely clean.** From the publication of its page on, in every interleaving of writers,
    readers, flushers and reclaimers: `flushed_epoch_` never passes `dirty_epoch_`; where nobody holds the latch
    exclusively, a frame that reads as clean has its bytes on disk; and a reclaimer, clean or after its own flush, only
    vacates a frame whose bytes are on disk. -/
theorem never_falsely_clean (hpub : Published s₀) (h : Machine.Reaches step Machine.anyStep s₀ s) :
    s.cell.frame.flushedEpoch ≤ s.cell.frame.dirtyEpoch ∧
      ((∀ a ∈ s.acts, a.exclusive = false) → s.cell.frame.isDirty = false → s.cell.disk = s.cell.frame.data) ∧
      (s.cell.vacated = true → s.cell.disk = s.cell.frame.data) := by
  have hinv : Inv s.cell s.acts :=
    h.invariant (I := fun s => Inv s.cell s.acts) hpub.inv fun hs _ hstep => hs.step hstep
  refine ⟨hinv.order, fun hno hclean => ?_, fun hv => (hinv.gone hv).2⟩
  refine hinv.clean (List.countP_eq_zero.mpr fun a ha => ?_) hclean
  simp [hno a ha]

/-- A page `NewPage` made, its guard just released and the pin still there. -/
def created : System where
  cell := ⟨{ state := .resident, pageId := 2, pinCount := 1, dirtyEpoch := 1 }, zeroPage, false⟩
  acts := [.unpin]

/-- Two flushers, the first with its write done when a writer comes, the second through before the first stores its
    sample; then another writer, and a reclaimer that flushes for itself. -/
def outOfOrder : List Choice :=
  let turns (n i : Nat) : List Choice := List.replicate n (.run i)
  let writes (i : Nat) (flags : UInt8) : List Choice :=
    [.use .write, .run i, .edit i (.flags flags), .run i, .run i, .run i]
  [[.run 0, .use .flush, .use .flush], turns 6 1, writes 3 7, turns 9 2, turns 3 1, writes 4 9, [.reclaim],
    turns 9 5].flatten

theorem never_falsely_clean_outOfOrder : ∃ s, Machine.Reaches step Machine.anyStep created s ∧
    s.cell.vacated = true ∧ s.cell.frame.data.header.flags = 9 ∧ s.cell.disk = s.cell.frame.data := by
  have hrun : (Machine.exec step outOfOrder created).any
      (fun s => s.cell.vacated && s.cell.frame.data.header.flags == 9) = true := by decide +kernel
  obtain ⟨s, hs, hgood⟩ := (Option.any_eq_true _ _).mp hrun
  obtain ⟨hv, hflags⟩ := Bool.and_eq_true_iff.mp hgood
  have hreach := Machine.Reaches.of_exec .start hs
  have hpub : Published created := ⟨.inr rfl, rfl, rfl, by decide, rfl⟩
  exact ⟨s, hreach, hv, beq_iff_eq.mp hflags, (never_falsely_clean hpub hreach).2.2 hv⟩

end Runs
end KernSql.Epoch
