import KernSql.Buffer.Concurrent

/- What a step of the concurrent pool can do.

   `Moves` has one rule for every way an activity can go on: the state it needs,
   the state it leaves and the activity it becomes. `advance_moves` reads the
   rules off the code, once; everything proved about the pool goes by cases on
   them. -/
namespace KernSql.Concurrent
open DiskManager

/-- Between two sections, with no claim on a frame or a shard. -/
def Activity.idle : Activity → Bool
  | .done | .lookup .. | .tryPop _ | .evict _ | .flushPage _ | .flushFrom _ | .deletePage _ => true
  | _ => false

/-- How a hit goes on in a frame that is not Loading. -/
def Settled (fr : Frame) (p : PageId) (latch : Latch) (f : Nat) (fromZero : Bool) (a : Activity) : Prop :=
  fr.state = .failed ∧ a = .unpin f .finish ∨ fr.state ≠ .failed ∧ a = .recordAccess p latch f fromZero

/-- A frame `ReclaimFrame` may take: Resident with the page that was peeked, with `pins` pins on it. -/
structure Reclaimable (fr : Frame) (p : PageId) (pins : Int) : Prop where
  resident : fr.state = .resident
  pinCount : fr.pinCount = pins
  pageId : fr.pageId = p

inductive Moves (cfg : PoolConfig) (acts : List Activity) (s : Shared) : Activity → Shared → Activity → Prop where
  | idle {a a' : Activity} (hne : a ≠ .done) (ha : a.idle = true) (ha' : a'.idle = true)
      (hcall : ∀ p, a' ≠ .deletePage p) : Moves cfg acts s a s a'
  -- The hit path and the guard.
  | hitLoading {p : PageId} {latch : Latch} {f : Nat} (fromZero : Bool) (hmap : s.table p = some f)
      (hload : (s.frames f).state = .loading) :
      Moves cfg acts s (.lookup p latch) (s.pin f) (.hitWait p latch f fromZero)
  | hit {p : PageId} {latch : Latch} {f : Nat} {fromZero : Bool} {a' : Activity} (hmap : s.table p = some f)
      (hload : (s.frames f).state ≠ .loading) (ha' : Settled (s.frames f) p latch f fromZero a') :
      Moves cfg acts s (.lookup p latch) (s.pin f) a'
  | woken {p : PageId} {latch : Latch} {f : Nat} {fromZero : Bool} {a' : Activity}
      (hload : (s.frames f).state ≠ .loading) (ha' : Settled (s.frames f) p latch f fromZero a') :
      Moves cfg acts s (.hitWait p latch f fromZero) s a'
  | recorded {p : PageId} {latch : Latch} {f : Nat} {fromZero : Bool} {a' : Activity}
      (ha' : a' = .setPinned p latch f ∨ a' = .acquireLatch p latch f) :
      Moves cfg acts s (.recordAccess p latch f fromZero) { s with replacer := s.replacer.recordAccess f } a'
  | unlisted {p : PageId} {latch : Latch} {f : Nat} :
      Moves cfg acts s (.setPinned p latch f) (s.setEvictable f false) (.acquireLatch p latch f)
  | latched {p : PageId} {latch : Latch} {f : Nat} (hfree : latchFree acts latch f = true) :
      Moves cfg acts s (.acquireLatch p latch f) s (.guard p latch f)
  | dropped {p : PageId} {latch : Latch} {f : Nat} {fr : Frame}
      (hfr : fr = s.frames f ∨ fr = (s.frames f).markDirty) :
      Moves cfg acts s (.guard p latch f) (s.setFrame f fr) (.unpin f .finish)
  | unpinned {f : Nat} {next : After} : Moves cfg acts s (.unpin f next) (s.unpinPage f) next.activity
  -- Acquiring a frame.
  | popped {goal : Goal} {f : Nat} {rest : List Nat} (hfree : s.freeList = f :: rest) :
      Moves cfg acts s (.tryPop goal) { s with freeList := rest } (.acquired goal f)
  | evicted {goal : Goal} {v : Nat} {r : Replacer} (hr : s.replacer.evict = some (some v, r)) :
      Moves cfg acts s (.evict goal) { s with replacer := r } (.peek goal v)
  | peeked {goal : Goal} {v : Nat} {p : PageId} (hfr : Reclaimable (s.frames v) p 0) :
      Moves cfg acts s (.peek goal v) s (.validate goal v p)
  | passed {goal : Goal} {v : Nat} (hfr : ∀ p, ¬Reclaimable (s.frames v) p 0) :
      Moves cfg acts s (.peek goal v) s (.evict goal)
  | declined {goal : Goal} {v : Nat} {p : PageId} (hfr : ¬Reclaimable (s.frames v) p 0) :
      Moves cfg acts s (.validate goal v p) s (.evict goal)
  | reclaimed {goal : Goal} {v : Nat} {p : PageId} (hfr : Reclaimable (s.frames v) p 0) :
      Moves cfg acts s (.validate goal v p) (s.vacate v p) (.acquired goal v)
  | pinned {goal : Goal} {v : Nat} {p : PageId} (hfr : Reclaimable (s.frames v) p 0) :
      Moves cfg acts s (.validate goal v p) (s.pin v) (.isDirty v p (.evict goal))
  | retaken {goal : Goal} {v : Nat} {p : PageId} (hfr : Reclaimable (s.frames v) p 1) :
      Moves cfg acts s (.revalidate goal v p)
        ((s.vacate v p).setFrame v { (s.vacate v p).frames v with pinCount := 0 }) (.acquired goal v)
  | lost {goal : Goal} {v : Nat} {p : PageId} :
      Moves cfg acts s (.revalidate goal v p) s (.unpin v (.evict goal))
  -- Flushing a pinned frame.
  | flushPinned {p : PageId} {f : Nat} (hmap : s.table p = some f) (hres : (s.frames f).state = .resident) :
      Moves cfg acts s (.flushPage p) (s.pin f) (.isDirty f p .finish)
  | sweepPinned {f : Nat} (hres : (s.frames f).state = .resident) :
      Moves cfg acts s (.flushFrom f) (s.pin f) (.isDirty f (s.frames f).pageId (.sweep (f + 1)))
  | dirty {f : Nat} {p : PageId} {next : After} (hdirty : (s.frames f).isDirty = true) :
      Moves cfg acts s (.isDirty f p next) s (.writePage f p next)
  | clean {f : Nat} {p : PageId} {next : After} :
      Moves cfg acts s (.isDirty f p next) s (afterFlush true f p next)
  | written {f : Nat} {p : PageId} {next : After} {d : DiskManager}
      (hd : DiskManager.writePage cfg.disk p (s.frames f).data s.disk = some (.ok (), d)) :
      Moves cfg acts s (.writePage f p next) { s with disk := d } (.markFlushed f p (s.frames f).dirtyEpoch next)
  | unwritten {f : Nat} {p : PageId} {next : After} {d : DiskManager} {st : Status}
      (hd : DiskManager.writePage cfg.disk p (s.frames f).data s.disk = some (.error (.status st), d)) :
      Moves cfg acts s (.writePage f p next) { s with disk := d } (afterFlush false f p next)
  | marked {f : Nat} {p : PageId} {observed : Nat} {next : After} :
      Moves cfg acts s (.markFlushed f p observed next) (s.setFrame f ((s.frames f).markFlushed observed))
        (afterFlush true f p next)
  -- The miss path.
  | handedBack {p : PageId} {latch : Latch} {f : Nat} :
      Moves cfg acts s (.acquired (.fetch p latch) f) (s.push f) (.lookup p latch)
  | mapped {p : PageId} {latch : Latch} {f : Nat} (hshard : shardFree acts p = true) (hmap : s.table p = none) :
      Moves cfg acts s (.acquired (.fetch p latch) f)
        ({ s with table := Function.update s.table p (some f) }.setFrame f
          { (s.frames f).resetEpochs with pageId := p, state := .loading, pinCount := 1 })
        (.readPage p latch f)
  | read {p : PageId} {latch : Latch} {f : Nat} {pg : Page} {d : DiskManager}
      (hd : DiskManager.readPage cfg.disk p s.disk = some (.ok pg, d)) (hfree : pg.header.pageType ≠ .free) :
      Moves cfg acts s (.readPage p latch f)
        ({ s with disk := d }.setFrame f { s.frames f with data := pg }) (.publish p latch f)
  | misread {p : PageId} {latch : Latch} {f : Nat} {pg : Page} {d : DiskManager}
      (hd : DiskManager.readPage cfg.disk p s.disk = some (.ok pg, d)) :
      Moves cfg acts s (.readPage p latch f)
        ({ s with disk := d }.setFrame f { s.frames f with data := pg }) (.abandonErase p f)
  | unread {p : PageId} {latch : Latch} {f : Nat} {d : DiskManager} {st : Status}
      (hd : DiskManager.readPage cfg.disk p s.disk = some (.error (.status st), d)) :
      Moves cfg acts s (.readPage p latch f) { s with disk := d } (.abandonErase p f)
  | published {p : PageId} {latch : Latch} {f : Nat} :
      Moves cfg acts s (.publish p latch f) (s.setFrame f { s.frames f with state := .resident })
        (.recordAccess p latch f false)
  | erased {p : PageId} {f : Nat} :
      Moves cfg acts s (.abandonErase p f) { s with table := Function.update s.table p none } (.abandonFail p f)
  | failed {p : PageId} {f : Nat} :
      Moves cfg acts s (.abandonFail p f) (s.setFrame f { s.frames f with state := .failed }) (.abandonWait f)
  | disposed {a : Activity} {p : PageId} {f : Nat} (ha : a = .abandonFail p f ∨ a = .abandonWait f)
      (hpin : (s.frames f).pinCount = 1) : Moves cfg acts s a (s.dispose f) (.push f)
  | pushed {a : Activity} {p : PageId} {f : Nat} (ha : a = .push f ∨ a = .deletePush p f) :
      Moves cfg acts s a (s.push f) .done
  -- `NewPage`.
  | allocated {f : Nat} {p : PageId} {d : DiskManager}
      (hd : DiskManager.allocatePage cfg.disk s.disk = some (.ok p, d)) :
      Moves cfg acts s (.acquired .newPage f) { s with disk := d, freed := s.freed.filter (· ≠ p) } (.stamp f p)
  | unallocated {f : Nat} {d : DiskManager} {st : Status}
      (hd : DiskManager.allocatePage cfg.disk s.disk = some (.error (.status st), d)) :
      Moves cfg acts s (.acquired .newPage f) { s with disk := d } (.push f)
  | stamped {f : Nat} {p : PageId} :
      Moves cfg acts s (.stamp f p)
        (s.setFrame f { s.frames f with pageId := p, state := .resident, pinCount := 1 }) (.fill f p)
  | filled {f : Nat} {p : PageId} : Moves cfg acts s (.fill f p) (fill s f p) (.insert f p)
  | inserted {f : Nat} {p : PageId} (hshard : shardFree acts p = true) (hmap : s.table p = none) :
      Moves cfg acts s (.insert f p)
        { s with table := Function.update s.table p (some f), owned := p :: s.owned } (.recordAccess p .write f false)
  | aborted {f g : Nat} {p : PageId} (hmap : s.table p = some g) :
      Moves cfg acts s (.insert f p) { s with aborted := true } (.insert f p)
  -- `DeletePage`.
  | deleteUncached {p : PageId} (hmap : s.table p = none) :
      Moves cfg acts s (.deletePage p) s (.deallocate p none)
  | deleteVacated {p : PageId} {f : Nat} (hmap : s.table p = some f) (hpin : (s.frames f).pinCount = 0) :
      Moves cfg acts s (.deletePage p) (s.vacate f p) (.deleteClear p f)
  | deleteUnlisted {p : PageId} {f : Nat} :
      Moves cfg acts s (.deleteClear p f) (s.setEvictable f false) (.deallocate p (some f))
  | deallocated {p : PageId} {f : Option Nat} {d : DiskManager}
      (hd : DiskManager.deallocatePage cfg.disk p s.disk = some (.ok (), d)) :
      Moves cfg acts s (.deallocate p f)
        { s with disk := d, owned := s.owned.filter (· ≠ p), freed := p :: s.freed } (deletePushed p f)
  | notDeallocated {p : PageId} {f : Option Nat} {d : DiskManager} {st : Status}
      (hd : DiskManager.deallocatePage cfg.disk p s.disk = some (.error (.status st), d)) :
      Moves cfg acts s (.deallocate p f) { s with disk := d } (deletePushed p f)

section Inversion
variable {cfg : PoolConfig} {acts : List Activity} {s s' : Shared} {a' : Activity}

theorem onDisk_ok {α : Type} {m : DiskM α} {x : α} (h : onDisk s m = some (.ok x, s')) :
    ∃ d, m s.disk = some (.ok x, d) ∧ s' = { s with disk := d } := by
  unfold onDisk at h
  split at h <;> simp_all

theorem onDisk_error {α : Type} {m : DiskM α} {st : Status} (h : onDisk s m = some (.error st, s')) :
    ∃ d, m s.disk = some (.error (.status st), d) ∧ s' = { s with disk := d } := by
  unfold onDisk at h
  split at h <;> simp_all

theorem settled_afterWait (fr : Frame) (p : PageId) (latch : Latch) (f : Nat) (fromZero : Bool) :
    Settled fr p latch f fromZero (afterWait p latch f fromZero fr.state) := by
  unfold Settled afterWait
  split
  · next h => exact .inl ⟨h, rfl⟩
  · next h => exact .inr ⟨h, rfl⟩

theorem lookup_moves {p : PageId} {latch : Latch} (h : lookup acts s p latch = some (s', a')) :
    Moves cfg acts s (.lookup p latch) s' a' := by
  unfold lookup at h
  split at h
  · cases h
    exact .idle nofun rfl rfl nofun
  split at h
  · cases h
  split at h
  · cases h
    exact .idle nofun rfl rfl nofun
  · next f hmap =>
    dsimp only at h
    split at h
    · next hload =>
      cases h
      exact .hitLoading _ hmap hload
    · next hload =>
      cases h
      exact .hit hmap hload (settled_afterWait _ _ _ _ _)

theorem peek_moves (goal : Goal) (v : Nat) : Moves cfg acts s (.peek goal v) s (peek s goal v) := by
  unfold peek
  dsimp only
  split
  · next h => exact .passed fun p hfr => h.elim (· hfr.resident) (· hfr.pinCount)
  · next h =>
    push Not at h
    exact .peeked ⟨h.1, h.2, rfl⟩

theorem validate_moves {goal : Goal} {v : Nat} {p : PageId} (h : validate acts s goal v p = some (s', a')) :
    Moves cfg acts s (.validate goal v p) s' a' := by
  unfold validate at h
  dsimp only at h
  split at h
  · cases h
  split at h
  · next hbad =>
    cases h
    exact .declined fun hfr => hbad.elim (· hfr.resident) fun hbad => hbad.elim (· hfr.pinCount) (· hfr.pageId)
  · next hgood =>
    push Not at hgood
    have hfr : Reclaimable (s.frames v) p 0 := ⟨hgood.1, hgood.2.1, hgood.2.2⟩
    split at h
    · cases h
      exact .reclaimed hfr
    · cases h
      exact .pinned hfr

theorem revalidate_moves {goal : Goal} {v : Nat} {p : PageId} (h : revalidate acts s goal v p = some (s', a')) :
    Moves cfg acts s (.revalidate goal v p) s' a' := by
  unfold revalidate at h
  dsimp only at h
  split at h
  · cases h
  split at h
  · next hgood =>
    cases h
    exact .retaken ⟨hgood.1, hgood.2.2.1, hgood.2.1⟩
  · cases h
    exact .lost

theorem publishLoading_moves {p : PageId} {latch : Latch} {f : Nat}
    (h : publishLoading acts s p latch f = some (s', a')) :
    Moves cfg acts s (.acquired (.fetch p latch) f) s' a' := by
  unfold publishLoading at h
  split at h
  · cases h
  next hshard =>
  split at h
  · cases h
    exact .handedBack
  · next hmap =>
    cases h
    exact .mapped (by simpa using hshard) hmap

theorem readPage_moves {p : PageId} {latch : Latch} {f : Nat} (h : readPage cfg s p latch f = some (s', a')) :
    Moves cfg acts s (.readPage p latch f) s' a' := by
  unfold readPage at h
  split at h
  · cases h
  · next hdisk =>
    obtain ⟨d, hd, rfl⟩ := onDisk_error hdisk
    cases h
    exact .unread hd
  · next hdisk =>
    obtain ⟨d, hd, rfl⟩ := onDisk_ok hdisk
    dsimp only at h
    split at h
    · cases h
      exact .misread hd
    · next hgood =>
      cases h
      exact .read hd (not_or.mp hgood).1

theorem abandonFail_moves {p : PageId} {f : Nat} (h : abandonFail s f = (s', a')) :
    Moves cfg acts s (.abandonFail p f) s' a' := by
  unfold abandonFail at h
  split at h
  · next hpin =>
    cases h
    exact .disposed (.inl rfl) hpin
  · cases h
    exact .failed

theorem allocatePage_moves {f : Nat} (h : allocatePage cfg s f = some (s', a')) :
    Moves cfg acts s (.acquired .newPage f) s' a' := by
  unfold allocatePage at h
  split at h
  · cases h
  · next hdisk =>
    obtain ⟨d, hd, rfl⟩ := onDisk_error hdisk
    cases h
    exact .unallocated hd
  · next hdisk =>
    obtain ⟨d, hd, rfl⟩ := onDisk_ok hdisk
    cases h
    exact .allocated hd

theorem insert_moves {f : Nat} {p : PageId} (h : insert acts s f p = some (s', a')) :
    Moves cfg acts s (.insert f p) s' a' := by
  unfold insert at h
  split at h
  · cases h
  next hshard =>
  split at h
  · next hmap =>
    cases h
    exact .aborted hmap
  · next hmap =>
    cases h
    exact .inserted (by simpa using hshard) hmap

theorem flushPage_moves {p : PageId} (h : flushPage acts s p = some (s', a')) :
    Moves cfg acts s (.flushPage p) s' a' := by
  unfold flushPage at h
  split at h
  · cases h
  split at h
  · cases h
    exact .idle nofun rfl rfl nofun
  · next hmap =>
    split at h
    · cases h
      exact .idle nofun rfl rfl nofun
    · next hres =>
      cases h
      exact .flushPinned hmap (not_not.mp hres)

theorem flushFrom_moves {f : Nat} (h : flushFrom s f = (s', a')) : Moves cfg acts s (.flushFrom f) s' a' := by
  unfold flushFrom at h
  split at h
  · cases h
    exact .idle nofun rfl rfl nofun
  split at h
  · cases h
    exact .idle nofun rfl rfl nofun
  · next hres =>
    cases h
    exact .sweepPinned (not_not.mp hres)

theorem writePage_moves {f : Nat} {p : PageId} {next : After} (h : writePage cfg acts s f p next = some (s', a')) :
    Moves cfg acts s (.writePage f p next) s' a' := by
  unfold writePage at h
  split at h
  · cases h
  split at h
  · cases h
  · next hdisk =>
    obtain ⟨d, hd, rfl⟩ := onDisk_error hdisk
    cases h
    exact .unwritten hd
  · next hdisk =>
    obtain ⟨d, hd, rfl⟩ := onDisk_ok hdisk
    cases h
    exact .written hd

theorem deletePage_moves {p : PageId} (h : deletePage acts s p = some (s', a')) :
    Moves cfg acts s (.deletePage p) s' a' := by
  unfold deletePage at h
  split at h
  · cases h
    exact .idle nofun rfl rfl nofun
  split at h
  · cases h
  split at h
  · next hmap =>
    cases h
    exact .deleteUncached hmap
  · next hmap =>
    split at h
    · cases h
      exact .idle nofun rfl rfl nofun
    · next hpin =>
      cases h
      exact .deleteVacated hmap (not_not.mp hpin)

theorem deallocate_moves {p : PageId} {f : Option Nat} (h : deallocate cfg s p f = some (s', a')) :
    Moves cfg acts s (.deallocate p f) s' a' := by
  unfold deallocate at h
  split at h
  · cases h
  · next hdisk =>
    obtain ⟨d, hd, rfl⟩ := onDisk_error hdisk
    cases h
    exact .notDeallocated hd
  · next hdisk =>
    obtain ⟨d, hd, rfl⟩ := onDisk_ok hdisk
    cases h
    exact .deallocated hd

/-- Every step follows a rule. -/
theorem advance_moves {a : Activity} (h : advance cfg acts s a = some (s', a')) : Moves cfg acts s a s' a' := by
  cases a with
  | done => cases h
  | lookup p latch => exact lookup_moves h
  | hitWait p latch f fromZero =>
    simp only [advance] at h
    split at h
    · cases h
    · next hload =>
      cases h
      exact .woken hload (settled_afterWait _ _ _ _ _)
  | recordAccess p latch f fromZero =>
    cases h
    exact .recorded (by cases fromZero <;> simp)
  | setPinned p latch f =>
    cases h
    exact .unlisted
  | acquireLatch p latch f =>
    simp only [advance] at h
    split at h
    · next hfree =>
      cases h
      exact .latched hfree
    · cases h
  | guard p latch f =>
    cases h
    cases latch with
    | read =>
      have hsame : s.setFrame f (s.frames f) = s := by rw [Shared.setFrame, Function.update_eq_self]
      show Moves cfg acts s (.guard p .read f) s _
      nth_rewrite 2 [← hsame]
      exact .dropped (.inl rfl)
    | write => exact .dropped (.inr rfl)
  | unpin f next =>
    cases h
    exact .unpinned
  | tryPop goal =>
    simp only [advance] at h
    split at h
    · cases h
      exact .idle nofun rfl rfl nofun
    · next hfree =>
      cases h
      exact .popped hfree
  | evict goal =>
    simp only [advance] at h
    split at h
    · cases h
    · next r hr =>
      cases h
      have hsame : r = s.replacer := Replacer.evict_none hr
      subst hsame
      exact .idle nofun rfl rfl nofun
    · next hr =>
      cases h
      exact .evicted hr
  | peek goal v =>
    cases h
    exact peek_moves goal v
  | validate goal v p => exact validate_moves h
  | revalidate goal v p => exact revalidate_moves h
  | acquired goal f =>
    cases goal with
    | fetch p latch => exact publishLoading_moves h
    | newPage => exact allocatePage_moves h
  | isDirty f p next =>
    simp only [advance] at h
    split at h
    · next hdirty =>
      cases h
      exact .dirty hdirty
    · cases h
      exact .clean
  | writePage f p next => exact writePage_moves h
  | markFlushed f p observed next =>
    cases h
    exact .marked
  | readPage p latch f => exact readPage_moves h
  | publish p latch f =>
    cases h
    exact .published
  | abandonErase p f =>
    simp only [advance] at h
    split at h
    · cases h
      exact .erased
    · cases h
  | abandonFail p f => exact abandonFail_moves (Option.some.inj h)
  | abandonWait f =>
    simp only [advance] at h
    split at h
    · next hpin =>
      cases h
      exact .disposed (p := invalidPage) (.inr rfl) hpin
    · cases h
  | push f =>
    cases h
    exact .pushed (p := invalidPage) (.inl rfl)
  | stamp f p =>
    cases h
    exact .stamped
  | fill f p =>
    cases h
    exact .filled
  | insert f p => exact insert_moves h
  | flushPage p => exact flushPage_moves h
  | flushFrom f => exact flushFrom_moves (Option.some.inj h)
  | deletePage p => exact deletePage_moves h
  | deleteClear p f =>
    cases h
    exact .deleteUnlisted
  | deallocate p f => exact deallocate_moves h
  | deletePush p f =>
    cases h
    exact .pushed (.inr rfl)

end Inversion

/-! What a step does to one frame. -/

section Frames
variable {cfg : PoolConfig} {acts : List Activity} {s s' : Shared} {a a' : Activity}

/-- What a step can make of the identity of frame `f`. -/
inductive Change (f : Nat) (fr : Frame) (a : Activity) (fr' : Frame) (a' : Activity) : Prop where
  | same (hstate : fr'.state = fr.state) (hpage : fr'.pageId = fr.pageId)
  | freed (hstate : fr'.state = .free) (hpriv : a'.privateFrame = some f)
  | loading {p : PageId} {latch : Latch} (hstate : fr'.state = .loading) (ha : a = .acquired (.fetch p latch) f)
  | failed {p : PageId} (hstate : fr'.state = .failed) (ha : a = .abandonFail p f)
  | published {p : PageId} {latch : Latch} (hstate : fr'.state = .resident) (hpage : fr'.pageId = fr.pageId)
      (ha : a = .publish p latch f)
  | stamped {p : PageId} (hstate : fr'.state = .resident) (hpage : fr'.pageId = p) (ha : a = .stamp f p)
      (ha' : a' = .fill f p)

/-- The frame a step sets, and the others. -/
theorem change_setFrame {t : Shared} {f g : Nat} {fr : Frame} (ht : t.frames = s.frames)
    (hg : Change g (s.frames g) a fr a') : Change f (s.frames f) a ((t.setFrame g fr).frames f) a' := by
  by_cases hf : f = g
  · subst hf
    simpa [Shared.setFrame] using hg
  · have hsame : (t.setFrame g fr).frames f = s.frames f := by
      rw [← ht]
      exact Function.update_of_ne hf _ _
    rw [hsame]
    exact .same rfl rfl

theorem unpinPage_frames (s : Shared) (f : Nat) : (s.unpinPage f).frames =
    Function.update s.frames f { s.frames f with pinCount := (s.frames f).pinCount - 1 } := by
  unfold Shared.unpinPage
  dsimp only
  split <;> rfl

theorem markFlushed_state (fr : Frame) (observed : Nat) : (fr.markFlushed observed).state = fr.state := by
  unfold Frame.markFlushed
  split <;> rfl

theorem markFlushed_pageId (fr : Frame) (observed : Nat) : (fr.markFlushed observed).pageId = fr.pageId := by
  unfold Frame.markFlushed
  split <;> rfl

theorem Moves.change (hm : Moves cfg acts s a s' a') (f : Nat) : Change f (s.frames f) a (s'.frames f) a' := by
  cases hm with
  | hitLoading => exact change_setFrame rfl (.same rfl rfl)
  | hit => exact change_setFrame rfl (.same rfl rfl)
  | dropped h => obtain rfl | rfl := h <;> exact change_setFrame rfl (.same rfl rfl)
  | @unpinned g next =>
    rw [unpinPage_frames]
    exact change_setFrame (t := s) rfl (.same rfl rfl)
  | @reclaimed goal v p _ => exact change_setFrame (t := s) rfl (.freed rfl rfl)
  | pinned => exact change_setFrame rfl (.same rfl rfl)
  | @retaken goal v p _ =>
    by_cases hf : f = v
    · subst hf
      exact .freed (by simp [Shared.setFrame, Shared.vacate]) rfl
    · exact .same (by simp [Shared.setFrame, Shared.vacate, hf]) (by simp [Shared.setFrame, Shared.vacate, hf])
  | flushPinned => exact change_setFrame rfl (.same rfl rfl)
  | sweepPinned => exact change_setFrame rfl (.same rfl rfl)
  | marked => exact change_setFrame rfl (.same (markFlushed_state _ _) (markFlushed_pageId _ _))
  | mapped => exact change_setFrame rfl (.loading rfl rfl)
  | read => exact change_setFrame rfl (.same rfl rfl)
  | misread => exact change_setFrame rfl (.same rfl rfl)
  | published => exact change_setFrame rfl (.published rfl rfl rfl)
  | failed => exact change_setFrame rfl (.failed rfl rfl)
  | disposed => exact change_setFrame rfl (.freed rfl rfl)
  | stamped => exact change_setFrame rfl (.stamped rfl rfl rfl rfl)
  | filled => exact change_setFrame rfl (.same rfl rfl)
  | deleteVacated => exact change_setFrame (t := s) rfl (.freed rfl rfl)
  | _ => exact .same rfl rfl

end Frames
end KernSql.Concurrent
