import KernSql.Buffer.BufferPoolCalls
import KernSql.Lib.Machine
import KernSql.Lib.Refine

/- Runs of the pool by one thread.

   A run is a sequence of calls, each legal in the state it is made in: a thread
   does not ask for a latch its own guards keep it from, it uses guards it holds,
   and it keeps the promise about page types. `Outcome` says once what each call can
   do; the results below are read off it. Without disk errors the pool
   is a map from page ids to pages (`pool_is_transparent`); whatever fails, every
   frame has its place and a full pool is a pool of pinned frames
   (`frames_accounted`); and a call that fails leaves every page alone unless it
   is a deletion that got as far as the disk (`failed_call_keeps_pages`). -/
namespace KernSql.BufferPool
open Exec DiskManager Machine

inductive Op where
  | newPage
  | fetchPage (latch : Latch) (p : PageId)
  /-- Look at the page a guard is on. -/
  | look (g : Held)
  | write (g : Held) (e : Edit)
  | drop (g : Held)
  | flushPage (p : PageId)
  | flushAllPages
  | deletePage (p : PageId)
  | shutdown

inductive Answer where
  | guard (g : Held) (pg : Page)
  | page (pg : Page)
  | done

section Runs
variable (cfg : PoolConfig)

def perform : Op → BufferM Answer
  | .newPage => do
    let g ← newPage cfg
    let pg ← show_ g
    pure (.guard g pg)
  | .fetchPage latch p => do
    let g ← fetchPage cfg latch p
    let pg ← show_ g
    pure (.guard g pg)
  | .look g => do
    let pg ← show_ g
    pure (.page pg)
  | .write g e => do
    write g e
    pure .done
  | .drop g => do
    drop cfg g
    pure .done
  | .flushPage p => do
    flushPage cfg p
    pure .done
  | .flushAllPages => do
    flushAllPages cfg
    pure .done
  | .deletePage p => do
    deletePage cfg p
    pure .done
  | .shutdown => do
    shutdown cfg
    pure .done

/-- What the caller owes at each call. -/
def Legal (typed : PageId → PageType → Prop) (b : BufferPool) : Op → Prop
  -- The file has not reached the 2^31 - 1 pages an id can name.
  | .newPage => b.disk.freelistHead = invalidPage → b.disk.pageCount ≠ Int32.maxValue
  | .fetchPage latch p => Askable cfg p ∧ ∀ g ∈ b.held, g.page = p → latch = .read ∧ g.latch = .read
  | .look g => g ∈ b.held
  | .write g e => g ∈ b.held ∧ g.latch = .write ∧ Edit.Allowed typed g.page e
  | .drop g => g ∈ b.held
  | .flushPage p => ∀ f, b.table p = some f → b.Flushable f
  | .flushAllPages => ∀ f < b.capacity, b.Flushable f
  | .deletePage _ => True
  | .shutdown => b.held = []

instance (b : BufferPool) (f : Nat) : Decidable (b.writer f) := by
  unfold writer
  infer_instance

instance (b : BufferPool) (f : Nat) : Decidable (b.Flushable f) := by
  unfold Flushable
  infer_instance

instance (typed : PageId → PageType → Prop) [∀ p t, Decidable (typed p t)] (p : PageId) (e : Edit) :
    Decidable (Edit.Allowed typed p e) := by
  cases e <;> unfold Edit.Allowed <;> infer_instance

instance (typed : PageId → PageType → Prop) [∀ p t, Decidable (typed p t)] (b : BufferPool) (op : Op) :
    Decidable (Legal cfg typed b op) := by
  cases op with
  | flushPage p =>
    refine decidable_of_iff ((b.table p).all (fun f => b.Flushable f) = true) ?_
    show _ ↔ ∀ f, b.table p = some f → b.Flushable f
    cases b.table p <;> simp
  | _ =>
    unfold Legal Askable
    infer_instance

def step (b : BufferPool) (op : Op) : Option BufferPool := (perform cfg op b).map (·.2)

/-- What a call can answer and leave behind. -/
inductive Outcome (typed : PageId → PageType → Prop) (b : BufferPool) : Op → Except Status Answer → BufferPool → Prop
  | created {g : Held} {pg : Page} {b' : BufferPool} : Created typed b b' g → ¬b.AllPinned →
      b'.view g.page = some pg → Outcome typed b .newPage (.ok (.guard g pg)) b'
  | notCreated {e : Status} {b' : BufferPool} : NotCreated cfg typed b e b' → Outcome typed b .newPage (.error e) b'
  | fetched {g : Held} {pg : Page} {b' : BufferPool} : Fetched typed b b' g → (b.table g.page = none → ¬b.AllPinned) →
      b'.view g.page = some pg → Outcome typed b (.fetchPage g.latch g.page) (.ok (.guard g pg)) b'
  | notFetched {latch : Latch} {p : PageId} {e : Status} {b' : BufferPool} : NotFetched cfg typed b p e b' →
      Outcome typed b (.fetchPage latch p) (.error e) b'
  | looked {g : Held} {pg : Page} : b.view g.page = some pg → Outcome typed b (.look g) (.ok (.page pg)) b
  | written {g : Held} {e : Edit} : Outcome typed b (.write g e) (.ok .done) (b.edited g e)
  | dropped {g : Held} : Outcome typed b (.drop g) (.ok .done) (b.dropped g)
  | flushed {p : PageId} {b' : BufferPool} : WrittenBack typed b b' → Outcome typed b (.flushPage p) (.ok .done) b'
  | notFlushed {p : PageId} {e : Status} {b' : BufferPool} : WrittenBack typed b b' → ¬Reliable cfg.disk →
      Outcome typed b (.flushPage p) (.error e) b'
  | flushedAll {b' : BufferPool} : WrittenBack typed b b' → Outcome typed b .flushAllPages (.ok .done) b'
  | notFlushedAll {e : Status} {b' : BufferPool} : WrittenBack typed b b' → ¬Reliable cfg.disk →
      Outcome typed b .flushAllPages (.error e) b'
  | deleted {p : PageId} {b' : BufferPool} : Deleted typed b b' p → Outcome typed b (.deletePage p) (.ok .done) b'
  | notDeleted {p : PageId} {e : Status} {b' : BufferPool} : NotDeleted cfg typed b b' p →
      Outcome typed b (.deletePage p) (.error e) b'
  | down {b' : BufferPool} : Quiet typed b b' [] → Outcome typed b .shutdown (.ok .done) b'
  | notDown {e : Status} {b' : BufferPool} : Quiet typed b b' [] → ¬Reliable cfg.disk →
      Outcome typed b .shutdown (.error e) b'

end Runs

section Outcomes
variable {cfg : PoolConfig} {typed : PageId → PageType → Prop} {b b' : BufferPool} {op : Op}
  {r : Except Status Answer} {p : PageId}

theorem wp_show {g : Held} {Q : Page → BufferPool → Prop} {E : Status → BufferPool → Prop} :
    wp (show_ g) Q E b ↔ Q (b.frames g.frame).data b := Iff.rfl

/-- A guard shows the page it was asked for. -/
theorem Inv.shown {g : Held} (h : Inv typed b []) (hg : g ∈ b.held) :
    b.view g.page = some (b.frames g.frame).data := view_mapped (h.held g hg)

/-- Own guards that do not conflict leave the latch free. -/
theorem Inv.fetchable {latch : Latch} (h : Inv typed b [])
    (hown : ∀ g ∈ b.held, g.page = p → latch = .read ∧ g.latch = .read) : b.Fetchable latch p := by
  intro f hm
  simp only [blocks, List.any_eq_false, decide_eq_true_eq, not_and, not_or]
  intro g hg hgf
  obtain ⟨hl, hgl⟩ := hown g hg (h.table_unique (hgf ▸ h.held g hg) hm)
  rw [hl, hgl]
  exact ⟨by decide, by decide⟩

theorem wp_perform (h : Inv typed b []) (ht : Typing typed) (hl : Legal cfg typed b op) :
    wp (attempt (perform cfg op)) (Outcome cfg typed b op) (fun _ _ => False) b := by
  rw [wp_attempt]
  cases op with
  | newPage =>
    apply wp_call (wp_newPage h ht hl)
    · intro g b' hg
      rw [wp_bind, wp_show, wp_pure]
      exact .created hg.1 hg.2 (hg.1.inv.shown (by rw [hg.1.held]; exact List.mem_cons_self))
    · exact fun _ _ he => .notCreated he
  | fetchPage latch p =>
    apply wp_call (wp_fetchPage h ht hl.1 (h.fetchable hl.2))
    · intro g b' hg
      obtain ⟨hf, rfl, rfl, hnot⟩ := hg
      rw [wp_bind, wp_show, wp_pure]
      exact .fetched hf hnot (hf.inv.shown (by rw [hf.held]; exact List.mem_cons_self))
    · exact fun _ _ he => .notFetched he
  | look g => exact .looked (h.shown hl)
  | write g e => exact .written
  | drop g =>
    rw [perform, wp_bind]
    exact wp_drop h hl .dropped
  | flushPage p =>
    apply wp_call (wp_flushPage h hl)
    · exact fun _ _ hb => .flushed hb
    · exact fun _ _ he => .notFlushed he.1 he.2.2
  | flushAllPages =>
    apply wp_call (wp_flushAllPages h hl)
    · exact fun _ _ hb => .flushedAll hb.1
    · exact fun _ _ he => .notFlushedAll he.1 he.2.2
  | deletePage p =>
    apply wp_call (wp_deletePage h)
    · exact fun _ _ hb => .deleted hb
    · exact fun _ _ he => .notDeleted he
  | shutdown =>
    rw [perform, wp_bind]
    cases hflag : b.isShutdown with
    | true =>
      rw [shutdown, wp_bind, wp_get, if_pos hflag]
      exact .down (.refl h)
    | false =>
      refine wp_mono (wp_shutdown h hflag hl) (fun _ _ hb => .down hb.1) fun _ _ he => .notDown he.1 he.2.2

/-- A legal call comes to an end. -/
theorem Inv.perform (h : Inv typed b []) (ht : Typing typed) (hl : Legal cfg typed b op) :
    ∃ r b', perform cfg op b = some (r, b') ∧ Outcome cfg typed b op r b' := by
  obtain ⟨r, b', hrun, ho⟩ | ⟨_, _, _, hf⟩ := wp_run (wp_perform h ht hl)
  · unfold attempt at hrun
    cases hp : BufferPool.perform cfg op b with
    | none =>
      rw [hp] at hrun
      cases hrun
    | some x =>
      rw [hp] at hrun
      cases hrun
      exact ⟨x.1, x.2, rfl, ho⟩
  · exact hf.elim

theorem Inv.outcome (h : Inv typed b []) (ht : Typing typed) (hl : Legal cfg typed b op)
    (hrun : BufferPool.perform cfg op b = some (r, b')) : Outcome cfg typed b op r b' := by
  obtain ⟨r₁, b₁, hrun₁, ho⟩ := h.perform ht hl
  rw [hrun] at hrun₁
  cases hrun₁
  exact ho

/-- A call keeps the invariant, the size of the pool, and, on a disk that does not fail, a settled file. -/
theorem Outcome.keeps (h : Inv typed b []) (hl : Legal cfg typed b op) (ho : Outcome cfg typed b op r b') :
    Inv typed b' [] ∧ b'.capacity = b.capacity ∧ (Reliable cfg.disk → Settled b.disk → Settled b'.disk) := by
  cases ho with
  | created hc => exact ⟨hc.inv, hc.capacity, fun _ => hc.settled⟩
  | @notCreated e _ hn =>
    refine ⟨hn.inv, hn.capacity, fun hrel hs => ?_⟩
    have hfull : e.code = .bufferPoolFull := by
      by_contra hne
      exact hn.failed hne hrel
    exact (hn.full hfull).2 ▸ hs
  | fetched hf => exact ⟨hf.inv, hf.capacity, fun _ => hf.settled⟩
  | notFetched hn => exact ⟨hn.quiet.inv, hn.quiet.capacity, fun _ => hn.quiet.settled⟩
  | looked => exact ⟨h, rfl, fun _ hs => hs⟩
  | written => exact ⟨h.edited hl.1 hl.2.1 hl.2.2, rfl, fun _ hs => hs⟩
  | dropped => exact ⟨h.dropped hl, rfl, fun _ hs => hs⟩
  | flushed hw => exact ⟨hw.quiet.inv, hw.quiet.capacity, fun _ => hw.quiet.settled⟩
  | notFlushed hw => exact ⟨hw.quiet.inv, hw.quiet.capacity, fun _ => hw.quiet.settled⟩
  | flushedAll hw => exact ⟨hw.quiet.inv, hw.quiet.capacity, fun _ => hw.quiet.settled⟩
  | notFlushedAll hw => exact ⟨hw.quiet.inv, hw.quiet.capacity, fun _ => hw.quiet.settled⟩
  | deleted hd => exact ⟨hd.inv, hd.capacity, fun _ => hd.settled⟩
  | notDeleted hn =>
    refine ⟨hn.inv, hn.capacity, fun hrel hs => ?_⟩
    rw [hn.refused fun hd => hn.failed hd hrel]
    exact hs
  | down hq => exact ⟨hq.inv, hq.capacity, fun _ => hq.settled⟩
  | notDown hq => exact ⟨hq.inv, hq.capacity, fun _ => hq.settled⟩

/-- A new pool over a file in order. -/
theorem inv_new {d : DiskManager} {capacity : Nat} {kind : PageType} (hs : Sound kind d ∅)
    (hcat : typed catalogRootPageId (d.file catalogRootPageId).header.pageType) : Inv typed (new d capacity) [] where
  disk := ⟨kind, hs.subset fun p hp => absurd rfl hp.2⟩
  catalog := hcat
  counted := Replacer.counted_new capacity
  capacity := rfl
  nodup := by simpa [new] using List.nodup_range
  vacant f hf := ⟨by simpa [new] using hf, rfl, rfl, rfl, rfl, rfl, rfl, rfl⟩
  frames f hf hown := absurd (by simpa [new] using hf) hown
  table p f hp := by cases hp
  held h hh := by cases hh

/-- Every state a thread's legal calls reach. -/
theorem inv_reaches {d : DiskManager} {capacity : Nat} {kind : PageType} (ht : Typing typed) (hs : Sound kind d ∅)
    (hcat : typed catalogRootPageId (d.file catalogRootPageId).header.pageType)
    (hreach : Reaches (step cfg) (Legal cfg typed) (new d capacity) b) :
    Inv typed b [] ∧ b.capacity = capacity ∧ (Reliable cfg.disk → Settled d → Settled b.disk) := by
  refine hreach.invariant (I := fun b => Inv typed b [] ∧ b.capacity = capacity ∧
    (Reliable cfg.disk → Settled d → Settled b.disk)) ⟨inv_new hs hcat, rfl, fun _ hset => hset⟩
    fun hinv hlegal hstep => ?_
  obtain ⟨h, hcap, hset⟩ := hinv
  obtain ⟨⟨r, _⟩, hrun, rfl⟩ := Option.map_eq_some_iff.mp hstep
  obtain ⟨h', hcap', hset'⟩ := (h.outcome ht hlegal hrun).keeps h hlegal
  exact ⟨h', hcap'.trans hcap, fun hrel hs => hset' hrel (hset hrel hs)⟩

end Outcomes

/-! The pool as a map. -/

/-- No caller stamps a page FREE. -/
def neverFree (_ : PageId) (t : PageType) : Prop := t ≠ .free

instance {p : PageId} {t : PageType} : Decidable (neverFree p t) := inferInstanceAs (Decidable (t ≠ .free))

theorem typing_neverFree : Typing neverFree := fun _ _ _ h => h

theorem noFree_neverFree : NoFree neverFree := fun _ h => h rfl

/-- The pages that exist and the guards on them. -/
structure Contents where
  pages : PageId → Option Page
  guards : List Held

/-- The answers the map may give, and what it becomes. -/
def Answers (m : Contents) : Op → Except Status Answer → Contents → Prop
  | .newPage, a, m' =>
    (∃ g, a = .ok (.guard g (blankPage g.page)) ∧ g.latch = .write ∧ 2 ≤ g.page ∧ m.pages g.page = none ∧
      m' = ⟨Function.update m.pages g.page (some (blankPage g.page)), g :: m.guards⟩) ∨
    (∃ e, a = .error e ∧ e.code = .bufferPoolFull ∧ m' = m)
  | .fetchPage latch p, a, m' =>
    (∃ g pg, a = .ok (.guard g pg) ∧ g.page = p ∧ g.latch = latch ∧ m.pages p = some pg ∧
      m' = ⟨m.pages, g :: m.guards⟩) ∨
    (∃ e, a = .error e ∧ (m.pages p ≠ none → e.code = .bufferPoolFull) ∧ m' = m)
  | .look g, a, m' => (∃ pg, a = .ok (.page pg) ∧ m.pages g.page = some pg) ∧ m' = m
  | .write g e, a, m' =>
    a = .ok .done ∧ m' = ⟨Function.update m.pages g.page ((m.pages g.page).map e.apply), m.guards⟩
  | .drop g, a, m' => a = .ok .done ∧ m' = ⟨m.pages, m.guards.erase g⟩
  | .flushPage _, a, m' => a = .ok .done ∧ m' = m
  | .flushAllPages, a, m' => a = .ok .done ∧ m' = m
  | .deletePage p, a, m' =>
    (a = .ok .done ∧ 2 ≤ p ∧ (∀ g ∈ m.guards, g.page ≠ p) ∧ m' = ⟨Function.update m.pages p none, m.guards⟩) ∨
    (∃ e, a = .error e ∧ (m.pages p ≠ none → 2 ≤ p → ∃ g ∈ m.guards, g.page = p) ∧ m' = m)
  | .shutdown, a, m' => a = .ok .done ∧ m' = m

section Map
variable {cfg : PoolConfig} {typed : PageId → PageType → Prop} {b b' : BufferPool} {op : Op}
  {r : Except Status Answer} {p : PageId}

theorem Contents.eq {m : Contents} (hpages : b.view = m.pages) (hguards : b.held = m.guards) : m = ⟨b.view, b.held⟩ := by
  rw [hpages, hguards]

theorem Inv.guard_page {g : Held} {f : Nat} (h : Inv typed b []) (hm : b.table p = some f) (hg : g ∈ b.held) :
    g.frame = f ↔ g.page = p := by
  constructor
  · intro hf
    exact h.table_unique (hf ▸ h.held g hg) hm
  · rintro rfl
    exact Option.some.inj ((h.held g hg).symm.trans hm)

/-- A page that is shown is in the file. -/
theorem Inv.shown_inside (h : Inv typed b []) (hv : b.view p ≠ none) : 1 ≤ p ∧ p < b.disk.pageCount := by
  cases hm : b.table p with
  | some f => exact (h.resident hm).2.inside
  | none =>
    rw [view_unmapped hm, onDiskView] at hv
    by_contra hn
    exact hv (if_neg fun hc => hn ⟨hc.1, hc.2.1⟩)

theorem Inv.deletable_unguarded {g : Held} (h : Inv typed b []) (hd : b.Deletable p) (hg : g ∈ b.held) : g.page ≠ p := by
  intro he
  have hm := he ▸ h.held g hg
  have hzero := hd.2.2 g.frame hm
  exact List.countP_eq_zero.mp hzero g hg (decide_eq_true rfl)

theorem Inv.not_deletable (h : Inv typed b []) (hd : ¬b.Deletable p) (hv : b.view p ≠ none) (h2 : 2 ≤ p) :
    ∃ g ∈ b.held, g.page = p := by
  by_contra hn
  refine hd ⟨h2, (h.shown_inside hv).2, fun f hm => List.countP_eq_zero.mpr fun g hg => ?_⟩
  simp only [decide_eq_true_eq]
  exact fun hf => hn ⟨g, hg, (h.guard_page hm hg).mp hf⟩

theorem Outcome.answers (h : Inv neverFree b []) (hl : Legal cfg neverFree b op) (hrel : Reliable cfg.disk)
    (ho : Outcome cfg neverFree b op r b') : Answers ⟨b.view, b.held⟩ op r ⟨b'.view, b'.held⟩ := by
  have hfree := noFree_neverFree
  cases ho with
  | @created g pg _ hc _ hpg =>
    have hblank : pg = blankPage g.page := by
      rw [hc.view hfree, Function.update_self] at hpg
      exact (Option.some.inj hpg).symm
    exact .inl ⟨g, by rw [hblank], hc.latch, hc.two_le, hc.fresh hfree, by rw [hc.view hfree, hc.held]⟩
  | @notCreated e _ hn =>
    have hfull : e.code = .bufferPoolFull := by
      by_contra hne
      exact hn.failed hne hrel
    exact .inr ⟨e, rfl, hfull, by rw [(hn.full hfull).2]⟩
  | @fetched g pg _ hf _ hpg =>
    rw [hf.view hfree] at hpg
    exact .inl ⟨g, pg, rfl, rfl, rfl, hpg, by rw [hf.view hfree, hf.held]⟩
  | @notFetched latch p e _ hn =>
    refine .inr ⟨e, rfl, fun hp => ?_, by rw [hn.quiet.view hfree, hn.quiet.held]⟩
    by_contra hne
    exact hp (hn.absent hrel hfree hne)
  | @looked g pg hpg => exact ⟨⟨pg, rfl, hpg⟩, rfl⟩
  | written => exact ⟨rfl, by rw [view_edited h hl.1]; rfl⟩
  | dropped => exact ⟨rfl, by rw [view_dropped]; rfl⟩
  | flushed hw => exact ⟨rfl, by rw [hw.quiet.view hfree, hw.quiet.held]⟩
  | notFlushed _ hn => exact absurd hrel hn
  | flushedAll hw => exact ⟨rfl, by rw [hw.quiet.view hfree, hw.quiet.held]⟩
  | notFlushedAll _ hn => exact absurd hrel hn
  | deleted hd =>
    exact .inl ⟨rfl, hd.deletable.1, fun g hg => h.deletable_unguarded hd.deletable hg,
      by rw [hd.view hfree, hd.held]⟩
  | @notDeleted p e _ hn =>
    have hnot : ¬b.Deletable p := fun hd => hn.failed hd hrel
    exact .inr ⟨e, rfl, h.not_deletable hnot, by rw [hn.refused hnot]⟩
  | down hq => exact ⟨rfl, by rw [hq.view hfree, hq.held]⟩
  | notDown _ hn => exact absurd hrel hn

theorem simulates_contents (hrel : Reliable cfg.disk) :
    Refine.Simulation (perform cfg) Answers (Legal cfg neverFree)
      (fun b m => Inv neverFree b [] ∧ m = ⟨b.view, b.held⟩) (fun _ => 0) where
  step {b m op} hl hR := by
    obtain ⟨h, rfl⟩ := hR
    obtain ⟨r, b', hrun, ho⟩ := h.perform typing_neverFree hl
    exact ⟨r, b', _, hrun, ⟨(ho.keeps h hl).1, rfl⟩, Nat.le_refl _, fun _ => ho.answers h hl hrel⟩

theorem reliable_of_no_error (h : ∀ i, cfg.ioError i = none) : Reliable cfg.disk := by
  intro i
  unfold PoolConfig.disk
  dsimp only
  rw [h i]

/-- The pages of a file just created: the catalog root. -/
def created (d : DiskManager) (p : PageId) : Option Page :=
  if p = catalogRootPageId then some (d.file p) else none

theorem openNew {d : DiskManager} (hopen : open_ cfg.disk missing = some (.ok (), d)) :
    Sound .catalog d ∅ ∧ Settled d ∧ (d.file catalogRootPageId).header.pageType = .catalog ∧
      onDiskView d = created d := by
  have hwp : wp (open_ cfg.disk) _ _ missing := wp_openNew rfl
  rw [wp, hopen] at hwp
  obtain ⟨hs, hcount, hend, hstored, hhead, hcat⟩ := hwp
  refine ⟨hs, ⟨hstored.trans hhead.symm, hend.trans hcount.symm⟩, hs.catalog, ?_⟩
  funext p
  unfold onDiskView created
  by_cases hp : p = catalogRootPageId
  · subst hp
    rw [if_pos rfl, if_pos ⟨by decide, by rw [hcount]; decide, by rw [hcat]; decide, by rw [hcat]; rfl⟩]
  · rw [if_neg hp, if_neg]
    intro hn
    rw [hcount] at hn
    obtain ⟨hmeta, h0⟩ := one_le_iff.mp hn.1
    have h2 := PageId.two_le h0 hmeta hp
    exact Int32.lt_irrefl (PageId.lt_of_lt_of_le hn.2.1 h2)

/-- On a disk that does not fail the pool is a map from page ids to pages, whatever is evicted, written back
or recycled on the way: a fetch shows what was last written, and only of a page that exists. -/
theorem pool_is_transparent {d : DiskManager} {capacity : Nat} {ops : List Op} (herr : ∀ i, cfg.ioError i = none)
    (hopen : open_ cfg.disk missing = some (.ok (), d))
    (hkept : Refine.Kept (perform cfg) (Legal cfg neverFree) ops (new d capacity)) :
    ∃ as b m, Refine.run (perform cfg) ops (new d capacity) = some (.ok as, b) ∧
      Refine.Allowed Answers ⟨created d, []⟩ ops as m ∧ b.view = m.pages ∧ b.held = m.guards := by
  have hrel := reliable_of_no_error herr
  obtain ⟨hs, -, hcat, hview⟩ := openNew hopen
  have hinv : Inv neverFree (new d capacity) [] := inv_new hs (by rw [hcat]; decide)
  have hstart : (⟨created d, []⟩ : Contents) = ⟨(new d capacity).view, (new d capacity).held⟩ := by
    rw [← hview]
    rfl
  obtain ⟨as, b, m, hrun, hR, -, hall⟩ := (simulates_contents hrel).run hkept ⟨hinv, hstart⟩
  exact ⟨as, b, m, hrun, hall rfl, by rw [hR.2], by rw [hR.2]⟩

/-- One frame and a debug build on a disk that never fails. -/
def tinyPool : PoolConfig := ⟨true, 0, fun _ => none, ""⟩

/-- Two new pages in one frame, the first written, evicted by the second and fetched again. -/
def twoPages : List Op :=
  [.newPage, .write ⟨0, 2, .write⟩ (.flags 7), .drop ⟨0, 2, .write⟩, .newPage, .drop ⟨0, 3, .write⟩, .fetchPage .read 2]

theorem pool_is_transparent_demo : ∃ d as b m, open_ tinyPool.disk missing = some (.ok (), d) ∧
    Refine.run (perform tinyPool) twoPages (new d 1) = some (.ok as, b) ∧
    Refine.Allowed Answers ⟨created d, []⟩ twoPages as m ∧ b.view = m.pages ∧ b.held = m.guards := by
  have hlegal : ∃ d, open_ tinyPool.disk missing = some (.ok (), d) ∧
      Refine.keeps (perform tinyPool) (Legal tinyPool neverFree) twoPages (new d 1) = true := ⟨_, rfl, by decide +kernel⟩
  obtain ⟨d, hopen, hkeeps⟩ := hlegal
  obtain ⟨as, b, m, h⟩ := pool_is_transparent (fun _ => rfl) hopen (.of_keeps hkeeps)
  exact ⟨d, as, b, m, hopen, h⟩

end Map

/-! Every frame has its place. -/

/-- Any type may be stamped on any page. -/
def anyType (_ : PageId) (_ : PageType) : Prop := True

instance {p : PageId} {t : PageType} : Decidable (anyType p t) := inferInstanceAs (Decidable True)

inductive FrameClass where
  | free | pinned | candidate
  deriving DecidableEq, Repr

/-- Where a frame is, in the four places that say so. -/
def InClass (b : BufferPool) (f : Nat) : FrameClass → Prop
  | .free => (b.frames f).state = .free ∧ (b.frames f).pinCount = 0 ∧ b.freeList.count f = 1 ∧
      b.replacer.evictable f = false ∧ ∀ p, b.table p ≠ some f
  | .pinned => (b.frames f).state = .resident ∧ 0 < (b.frames f).pinCount ∧ b.freeList.count f = 0 ∧
      b.replacer.evictable f = false ∧ b.table (b.frames f).pageId = some f
  | .candidate => (b.frames f).state = .resident ∧ (b.frames f).pinCount = 0 ∧ b.freeList.count f = 0 ∧
      b.replacer.evictable f = true ∧ b.table (b.frames f).pageId = some f

/-- The error of a pool without a frame to give. -/
def SaysFull {α : Type} (r : Except Status α) : Prop := ∃ e, r = .error e ∧ e.code = .bufferPoolFull

section Accounting
variable {cfg : PoolConfig} {typed : PageId → PageType → Prop} {b : BufferPool} {f : Nat} {p : PageId}

theorem Inv.free_class (h : Inv typed b []) (hf : f ∈ b.freeList) : b.InClass f .free := by
  obtain ⟨-, hv⟩ := h.vacant f (by simpa using hf)
  have hnodup : b.freeList.Nodup := by simpa using h.nodup
  refine ⟨hv.state, hv.pinCount, List.count_eq_one_of_mem hnodup hf, hv.candidate, fun p hp => ?_⟩
  exact (h.table p f hp).2.1 (by simpa using hf)

theorem Inv.resident_class (h : Inv typed b []) (hcap : f < b.capacity) (hf : f ∉ b.freeList) :
    b.InClass f .pinned ∨ b.InClass f .candidate := by
  obtain ⟨p, hr⟩ := h.frames f hcap (by simpa using hf)
  have hcount : b.freeList.count f = 0 := List.count_eq_zero.mpr hf
  have hmapped : b.table (b.frames f).pageId = some f := by
    rw [hr.pageId]
    exact hr.mapped
  by_cases hg : b.guardsOn f = 0
  · exact .inr ⟨hr.state, by rw [hr.pinCount, hg]; rfl, hcount, by rw [hr.candidate, hg]; rfl, hmapped⟩
  · refine .inl ⟨hr.state, ?_, hcount, by rw [hr.candidate, decide_eq_false hg], hmapped⟩
    rw [hr.pinCount]
    omega

/-- No frame is in two classes. -/
theorem InClass.unique {c c' : FrameClass} (h : b.InClass f c) (h' : b.InClass f c') : c = c' := by
  cases c <;> cases c' <;> simp_all [InClass]

theorem Inv.classified (h : Inv typed b []) (hcap : f < b.capacity) : ∃! c, b.InClass f c := by
  have hex : ∃ c, b.InClass f c := by
    by_cases hf : f ∈ b.freeList
    · exact ⟨_, h.free_class hf⟩
    · exact (h.resident_class hcap hf).elim (fun hc => ⟨_, hc⟩) fun hc => ⟨_, hc⟩
  obtain ⟨c, hc⟩ := hex
  exact ⟨c, hc, fun _ hc' => hc'.unique hc⟩

theorem Inv.fetch_full {latch : Latch} (h : Inv typed b []) (ht : Typing typed) (h1 : 1 ≤ p) (hm : b.table p = none) :
    ∃ r b', fetchPage cfg latch p b = some (r, b') ∧ (SaysFull r ↔ b.AllPinned) := by
  have hask : Askable cfg p := fun _ => Int32.le_trans (by decide) h1
  have hfetch : b.Fetchable latch p := fun f hf => by
    rw [hm] at hf
    cases hf
  obtain ⟨g, b', hrun, hg⟩ | ⟨e, b', hrun, hn⟩ := wp_run (wp_fetchPage h ht hask hfetch)
  · refine ⟨_, b', hrun, ?_⟩
    constructor
    · intro ⟨e, he, _⟩
      cases he
    · exact fun hall => absurd hall (hg.2.2.2 hm)
  · refine ⟨_, b', hrun, ?_⟩
    constructor
    · intro ⟨e', he, hcode⟩
      cases he
      exact (hn.full hcode).2.1
    · exact fun hall => ⟨e, rfl, hn.pinned hm h1 hall⟩

theorem Inv.new_full (h : Inv typed b []) (ht : Typing typed) (hroom : Legal cfg typed b .newPage) :
    ∃ r b', newPage cfg b = some (r, b') ∧ (SaysFull r ↔ b.AllPinned) ∧ (SaysFull r → b'.disk = b.disk) := by
  obtain ⟨g, b', hrun, hg⟩ | ⟨e, b', hrun, hn⟩ := wp_run (wp_newPage h ht hroom : wp (newPage cfg) _ _ b)
  · have hnot : ¬SaysFull (.ok g : Except Status Held) := fun ⟨_, he, _⟩ => by cases he
    exact ⟨_, b', hrun, ⟨fun hf => absurd hf hnot, fun hall => absurd hall hg.2⟩, fun hf => absurd hf hnot⟩
  · have hcode : SaysFull (.error e : Except Status Held) → e.code = .bufferPoolFull := by
      intro ⟨e', he, hc⟩
      cases he
      exact hc
    exact ⟨_, b', hrun, ⟨fun hf => (hn.full (hcode hf)).1, fun hall => ⟨e, rfl, hn.pinned hall⟩⟩,
      fun hf => by rw [(hn.full (hcode hf)).2]⟩

/-- Whatever fails, every frame is free and on the free list once, or holds a page and is a candidate of
the replacer exactly if nobody pins it; so a pool says it is full exactly if every frame is pinned. -/
theorem frames_accounted {d : DiskManager} {kind : PageType} {capacity : Nat} (hdisk : Sound kind d ∅)
    (hreach : Reaches (step cfg) (Legal cfg anyType) (new d capacity) b) :
    b.capacity = capacity ∧ (∀ f < capacity, ∃! c, b.InClass f c) ∧
    (∀ latch p, 1 ≤ p → b.table p = none →
      ∃ r b', fetchPage cfg latch p b = some (r, b') ∧ (SaysFull r ↔ b.AllPinned)) ∧
    (Legal cfg anyType b .newPage →
      ∃ r b', newPage cfg b = some (r, b') ∧ (SaysFull r ↔ b.AllPinned) ∧ (SaysFull r → b'.disk = b.disk)) := by
  have ht : Typing anyType := fun _ _ _ _ => trivial
  obtain ⟨h, hcap, -⟩ := inv_reaches ht hdisk trivial hreach
  exact ⟨hcap, fun f hf => h.classified (hcap.symm ▸ hf), fun latch p h1 hm => h.fetch_full ht h1 hm, h.new_full ht⟩

/-- A debug build on a disk that fails once, at system call `n`. -/
def failsAt (n : Nat) : PoolConfig := ⟨true, 0, fun i => if i = n then some "no space left on device" else none, ""⟩

/-- A dirty page that could not be evicted is in its frame still. -/
def failedEviction : List Op :=
  [.newPage, .write ⟨0, 2, .write⟩ (.flags 7), .drop ⟨0, 2, .write⟩, .newPage, .fetchPage .read 2]

instance (b : BufferPool) : Decidable b.AllPinned := by
  unfold AllPinned
  infer_instance

/-- A run of checked calls on a new file, and what holds after it. -/
def endsIn (cfg : PoolConfig) (typed : PageId → PageType → Prop) [∀ p t, Decidable (typed p t)] (capacity : Nat)
    (ops : List Op) (good : BufferPool → Bool) : Bool :=
  match open_ cfg.disk missing with
  | some (.ok (), d) => (exec (checked (step cfg) (Legal cfg typed)) ops (new d capacity)).any good
  | _ => false

theorem of_endsIn {typed : PageId → PageType → Prop} [∀ p t, Decidable (typed p t)] {capacity : Nat} {ops : List Op}
    {good : BufferPool → Bool} (h : endsIn cfg typed capacity ops good = true) :
    ∃ d b, open_ cfg.disk missing = some (.ok (), d) ∧
      exec (checked (step cfg) (Legal cfg typed)) ops (new d capacity) = some b ∧ good b = true := by
  unfold endsIn at h
  split at h
  · next d hd =>
    obtain ⟨b, hb, hgood⟩ := (Option.any_eq_true _ _).mp h
    exact ⟨d, b, hd, hb, hgood⟩
  · cases h

theorem frames_accounted_demo : ∃ d b, open_ (failsAt 9).disk missing = some (.ok (), d) ∧
    exec (checked (step (failsAt 9)) (Legal (failsAt 9) anyType)) failedEviction (new d 1) = some b ∧
    (∃! c, b.InClass 0 c) ∧ ∃ r b', fetchPage (failsAt 9) .read 1 b = some (r, b') ∧ SaysFull r := by
  have hrun : endsIn (failsAt 9) anyType 1 failedEviction (fun b => b.AllPinned ∧ b.table 1 = none) = true := by
    decide +kernel
  obtain ⟨d, b, hopen, hexec, hgood⟩ := of_endsIn hrun
  obtain ⟨hall, hm⟩ := of_decide_eq_true hgood
  obtain ⟨-, hclass, hfetch, -⟩ := frames_accounted (openNew hopen).1 (.of_exec_checked .start hexec)
  obtain ⟨r, b', hrun, hfull⟩ := hfetch .read 1 (by decide) hm
  exact ⟨d, b, hopen, hexec, hclass 0 (by decide), r, b', hrun, hfull.mpr hall⟩

end Accounting

/-! Calls that fail. -/

/-- A deletion of `p` that fails costs nothing: it is refused before it starts, or the disk has the page as it
is and does not take the FREE stamp. -/
def Spared (cfg : PoolConfig) (b : BufferPool) (p : PageId) : Prop :=
  b.Deletable p → ∀ pg, b.view p = some pg → b.disk.file p = pg ∧ ¬StampWritten cfg.disk b.disk

/-- Every page that was shown is shown as it was. -/
def Keeps (b b' : BufferPool) : Prop := ∀ p pg, b.view p = some pg → b'.view p = some pg

section Failures
variable {cfg : PoolConfig} {b b' : BufferPool} {op : Op} {p : PageId}

theorem Keeps.of_eq (h : b'.view = b.view) : b.Keeps b' := fun p pg hp => by rw [h, hp]

/-- What is shown of a page is what a load would find, once it is on disk. -/
theorem Inv.onDisk_shown {pg : Page} (h : Inv neverFree b []) (hv : b.view p = some pg) (hfile : b.disk.file p = pg) :
    onDiskView b.disk p = some pg := by
  cases hm : b.table p with
  | none => rw [← view_unmapped hm, hv]
  | some f =>
    have hdata : (b.frames f).data = pg := Option.some.inj ((view_mapped hm).symm.trans hv)
    rw [(h.resident hm).2.onDiskView noFree_neverFree (hfile.trans hdata.symm), hdata]

theorem onDiskView_file {d : DiskManager} {pg : Page} (h : onDiskView d p = some pg) : d.file p = pg := by
  unfold onDiskView at h
  split at h
  · exact Option.some.inj h
  · cases h

/-- A deletion that failed, page by page. -/
theorem NotDeleted.keeps_iff (h : Inv neverFree b []) (hn : NotDeleted cfg neverFree b b' p) :
    b.Keeps b' ↔ Spared cfg b p := by
  constructor
  · intro hk hd pg hv
    have hv' := hk p pg hv
    have hstamp : ¬StampWritten cfg.disk b.disk := by
      intro hs
      rw [hn.stamped hd hs] at hv'
      cases hv'
    rw [hn.spared hd hstamp] at hv'
    exact ⟨onDiskView_file hv', hstamp⟩
  · intro hs q pg hv
    by_cases hq : q = p
    · subst hq
      by_cases hd : b.Deletable q
      · obtain ⟨hfile, hstamp⟩ := hs hd pg hv
        rw [hn.spared hd hstamp]
        exact h.onDisk_shown hv hfile
      · rw [hn.refused hd]
        exact hv
    · rw [hn.others q hq]
      exact hv

/-- A call that fails leaves every page as it was, unless it is a deletion that reached the disk and lost the
page's unsaved bytes or left it stamped FREE. -/
theorem failed_call_keeps_pages {d : DiskManager} {capacity : Nat} {e : Status} (hdisk : Sound .catalog d ∅)
    (hreach : Reaches (step cfg) (Legal cfg neverFree) (new d capacity) b) (hlegal : Legal cfg neverFree b op)
    (hrun : perform cfg op b = some (.error e, b')) :
    (b.Keeps b' ↔ ∀ p, op = .deletePage p → Spared cfg b p) ∧
      ∀ latch p g pg b'', Legal cfg neverFree b' (.fetchPage latch p) →
        perform cfg (.fetchPage latch p) b' = some (.ok (.guard g pg), b'') → b'.view p = some pg := by
  have hcat : neverFree catalogRootPageId (d.file catalogRootPageId).header.pageType := by
    rw [hdisk.catalog]
    decide
  obtain ⟨h, -, -⟩ := inv_reaches typing_neverFree hdisk hcat hreach
  have ho := h.outcome typing_neverFree hlegal hrun
  have h' := (ho.keeps h hlegal).1
  constructor
  · have hother : b'.view = b.view → (∀ p, op ≠ .deletePage p) →
        (b.Keeps b' ↔ ∀ p, op = .deletePage p → Spared cfg b p) := fun hv hne =>
      ⟨fun _ p hp => absurd hp (hne p), fun _ => .of_eq hv⟩
    cases ho with
    | notCreated hn => exact hother (hn.view noFree_neverFree) nofun
    | notFetched hn => exact hother (hn.quiet.view noFree_neverFree) nofun
    | notFlushed hw => exact hother (hw.quiet.view noFree_neverFree) nofun
    | notFlushedAll hw => exact hother (hw.quiet.view noFree_neverFree) nofun
    | notDeleted hn =>
      rw [hn.keeps_iff h]
      exact ⟨fun hs _ hp => Op.deletePage.inj hp ▸ hs, fun hs => hs _ rfl⟩
    | notDown hq => exact hother (hq.view noFree_neverFree) nofun
  · intro latch p g pg b'' hl hfetch
    cases h'.outcome typing_neverFree hl hfetch with
    | fetched hf _ hpg =>
      rw [hf.view noFree_neverFree] at hpg
      exact hpg

/-- A page made, written and let go, and a disk that cannot be read when it is to be deleted. -/
def dirtyDelete : List Op := [.newPage, .write ⟨0, 2, .write⟩ (.flags 7), .drop ⟨0, 2, .write⟩]

/-- The bytes of page 2, and what is left of them after a failed deletion. -/
def lostFlags (b : BufferPool) : Bool :=
  match perform (failsAt 9) (.deletePage 2) b with
  | some (.error e, b') => e.code = .ioError ∧ (b.view 2).map (·.header.flags) = some 7 ∧
      (b'.view 2).map (·.header.flags) = some 0
  | _ => false

theorem not_keeps_of_lostFlags (h : lostFlags b = true) : ∃ e b', perform (failsAt 9) (.deletePage 2) b = some (.error e, b') ∧
    e.code = .ioError ∧ ¬b.Keeps b' := by
  unfold lostFlags at h
  split at h
  · next e b' hrun =>
    obtain ⟨hcode, hv, hv'⟩ := of_decide_eq_true h
    obtain ⟨pg, hpg, hflags⟩ := Option.map_eq_some_iff.mp hv
    refine ⟨e, b', hrun, hcode, fun hk => ?_⟩
    rw [hk 2 pg hpg, Option.map_some, hflags] at hv'
    cases hv'
  · cases h

/-- The deletion fails and the page's bytes are gone: what is left is the page as it was allocated. -/
theorem failed_delete_loses_bytes : ∃ d b b' e, open_ (failsAt 9).disk missing = some (.ok (), d) ∧
    exec (checked (step (failsAt 9)) (Legal (failsAt 9) neverFree)) dirtyDelete (new d 1) = some b ∧
    perform (failsAt 9) (.deletePage 2) b = some (.error e, b') ∧ e.code = .ioError ∧ ¬b.Keeps b' := by
  have hrun : endsIn (failsAt 9) neverFree 1 dirtyDelete lostFlags = true := by decide +kernel
  obtain ⟨d, b, hopen, hexec, hgood⟩ := of_endsIn hrun
  obtain ⟨e, b', hdel, hcode, hlost⟩ := not_keeps_of_lostFlags hgood
  exact ⟨d, b, b', e, hopen, hexec, hdel, hcode, hlost⟩

def fails (cfg : PoolConfig) (op : Op) (b : BufferPool) : Bool :=
  match perform cfg op b with
  | some (.error _, _) => true
  | _ => false

theorem of_fails (h : fails cfg op b = true) : ∃ e b', perform cfg op b = some (.error e, b') := by
  unfold fails at h
  split at h
  · next e b' hrun => exact ⟨e, b', hrun⟩
  · cases h

/-- A page made, written and evicted. -/
def cleanDelete : List Op := dirtyDelete ++ [.newPage, .drop ⟨0, 3, .write⟩]

/-- The same page evicted first: the deletion fails and nothing is lost. -/
theorem failed_call_keeps_pages_demo : ∃ d b b' e, open_ (failsAt 12).disk missing = some (.ok (), d) ∧
    exec (checked (step (failsAt 12)) (Legal (failsAt 12) neverFree)) cleanDelete (new d 1) = some b ∧
    perform (failsAt 12) (.deletePage 2) b = some (.error e, b') ∧ b.Keeps b' := by
  have hrun : endsIn (failsAt 12) neverFree 1 cleanDelete
      (fun b => (b.table 2 = none ∧ b.disk.ios = 12) ∧ fails (failsAt 12) (.deletePage 2) b) = true := by
    decide +kernel
  obtain ⟨d, b, hopen, hexec, hgood⟩ := of_endsIn hrun
  obtain ⟨⟨hm, hios⟩, hfails⟩ := of_decide_eq_true hgood
  obtain ⟨e, b', hfail⟩ := of_fails hfails
  have hspared : ∀ p, Op.deletePage 2 = .deletePage p → Spared (failsAt 12) b p := by
    intro p hp _ pg hv
    cases hp
    rw [view_unmapped hm] at hv
    refine ⟨onDiskView_file hv, fun hs => ?_⟩
    have hread := hs.1
    rw [hios] at hread
    cases hread
  have hlegal : Legal (failsAt 12) neverFree b (.deletePage 2) := trivial
  exact ⟨d, b, b', e, hopen, hexec, hfail,
    (failed_call_keeps_pages (openNew hopen).1 (.of_exec_checked .start hexec) hlegal hfail).1.mpr hspared⟩

end Failures
end KernSql.BufferPool
