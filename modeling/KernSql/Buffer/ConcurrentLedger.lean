import KernSql.Storage.Freelist
import KernSql.Buffer.ConcurrentReclaim

/- The pages of the concurrent pool and who owns them.

   A page has an owner from the moment `NewPage` publishes it until its
   `DeletePage` has freed it. As long as only owners delete, and each page once at
   a time, a frame is Resident, or about to be, only with a page that is allocated
   on disk (`Live`), and the bytes in it never carry the type FREE (`Bytes`).

   The disk itself is as sound as `Freelist` says, with the pages that are
   somebody's as the pages in use: the owned ones, and those a `NewPage` was given
   and has not published yet. -/
namespace KernSql.Concurrent
open DiskManager Machine Exec

/-! The bytes in a frame. -/

section Bytes
variable {cfg : PoolConfig} {acts rest : List Activity} {s s' : Shared} {a a' : Activity} {f : Nat}

/-- A frame becomes dirty by the drop of a write guard, and is clean when it is given up. -/
theorem Moves.isDirty (hm : Moves cfg acts s a s' a') (hd : (s'.frames f).isDirty = true) :
    ((s.frames f).isDirty = true ∧ ((s'.frames f).state = .free → (s.frames f).state = .free)) ∨
      ∃ p latch, a = .guard p latch f ∧ (s'.frames f).state = (s.frames f).state := by
  have hset : ∀ {t : Shared} {g : Nat} {fr : Frame}, t.frames = s.frames →
      (fr.isDirty = true → (s.frames g).isDirty = true ∧ (fr.state = .free → (s.frames g).state = .free)) →
      ((t.setFrame g fr).frames f).isDirty = true → (s.frames f).isDirty = true ∧
        (((t.setFrame g fr).frames f).state = .free → (s.frames f).state = .free) := by
    intro t g fr ht hfr hdirty
    by_cases hf : f = g
    · subst hf
      simp only [Shared.setFrame, Function.update_self] at hdirty ⊢
      exact hfr hdirty
    · simp only [Shared.setFrame, Function.update_of_ne hf, ht] at hdirty ⊢
      exact ⟨hdirty, id⟩
  cases hm with
  | hitLoading => exact .inl (hset rfl (fun h => ⟨h, id⟩) hd)
  | hit => exact .inl (hset rfl (fun h => ⟨h, id⟩) hd)
  | @dropped p latch g fr hfr =>
    by_cases hf : f = g
    · subst hf
      refine .inr ⟨p, latch, rfl, ?_⟩
      obtain rfl | rfl := hfr <;> simp [Shared.setFrame, Frame.markDirty]
    · have hsame : (s.setFrame g fr).frames f = s.frames f := Function.update_of_ne hf _ _
      rw [hsame] at hd ⊢
      exact .inl ⟨hd, id⟩
  | @unpinned g next =>
    rw [unpinPage_frames] at hd ⊢
    exact .inl (hset (t := s) rfl (fun h => ⟨h, id⟩) hd)
  | reclaimed => exact .inl (hset (t := s) rfl (fun h => by cases h) hd)
  | pinned => exact .inl (hset rfl (fun h => ⟨h, id⟩) hd)
  | @retaken goal v p _ =>
    by_cases hf : f = v
    · subst hf
      simp [Shared.setFrame, Shared.vacate, Frame.resetEpochs, Frame.isDirty] at hd
    · simp only [Shared.setFrame, Shared.vacate, Function.update_of_ne hf] at hd ⊢
      exact .inl ⟨hd, id⟩
  | flushPinned => exact .inl (hset rfl (fun h => ⟨h, id⟩) hd)
  | sweepPinned => exact .inl (hset rfl (fun h => ⟨h, id⟩) hd)
  | @marked g p observed next =>
    refine .inl (hset rfl (fun h => ⟨?_, fun hs => (markFlushed_state _ _).symm.trans hs⟩) hd)
    unfold Frame.markFlushed at h
    split at h
    · simp only [Frame.isDirty, decide_eq_true_eq] at h ⊢
      omega
    · exact h
  | mapped => exact .inl (hset rfl (fun h => by cases h) hd)
  | read => exact .inl (hset rfl (fun h => ⟨h, id⟩) hd)
  | misread => exact .inl (hset rfl (fun h => ⟨h, id⟩) hd)
  | published => exact .inl (hset rfl (fun h => ⟨h, (fun h => by cases h)⟩) hd)
  | failed => exact .inl (hset rfl (fun h => ⟨h, (fun h => by cases h)⟩) hd)
  | disposed => exact .inl (hset rfl (fun h => by cases h) hd)
  | stamped => exact .inl (hset rfl (fun h => ⟨h, (fun h => by cases h)⟩) hd)
  | filled => exact .inl (hset rfl (fun h => by cases h) hd)
  | deleteVacated => exact .inl (hset (t := s) rfl (fun h => by cases h) hd)
  | _ => exact .inl ⟨hd, id⟩

/-- Bytes come from a read or from `NewPage`. -/
theorem Moves.data (hm : Moves cfg acts s a s' a') : (s'.frames f).data = (s.frames f).data ∨
    (∃ p latch, a = .readPage p latch f) ∨ ∃ p, a = .fill f p := by
  have hset : ∀ {t : Shared} {g : Nat} {fr : Frame}, t.frames = s.frames → (fr.data = (s.frames g).data ∨
      (∃ p latch, a = .readPage p latch g) ∨ ∃ p, a = .fill g p) →
      ((t.setFrame g fr).frames f).data = (s.frames f).data ∨ (∃ p latch, a = .readPage p latch f) ∨
        ∃ p, a = .fill f p := by
    intro t g fr ht hfr
    by_cases hf : f = g
    · subst hf
      simpa only [Shared.setFrame, Function.update_self] using hfr
    · exact .inl (by simp only [Shared.setFrame, Function.update_of_ne hf, ht])
  cases hm with
  | hitLoading => exact hset rfl (.inl rfl)
  | hit => exact hset rfl (.inl rfl)
  | dropped h => obtain rfl | rfl := h <;> exact hset rfl (.inl rfl)
  | unpinned =>
    rw [unpinPage_frames]
    exact hset (t := s) rfl (.inl rfl)
  | reclaimed => exact hset (t := s) rfl (.inl rfl)
  | pinned => exact hset rfl (.inl rfl)
  | @retaken goal v p _ =>
    by_cases hf : f = v
    · subst hf
      exact .inl (by simp [Shared.setFrame, Shared.vacate, Frame.resetEpochs])
    · exact .inl (by simp [Shared.setFrame, Shared.vacate, hf])
  | flushPinned => exact hset rfl (.inl rfl)
  | sweepPinned => exact hset rfl (.inl rfl)
  | marked =>
    refine hset rfl (.inl ?_)
    unfold Frame.markFlushed
    split <;> rfl
  | mapped => exact hset rfl (.inl rfl)
  | read => exact hset rfl (.inr (.inl ⟨_, _, rfl⟩))
  | misread => exact hset rfl (.inr (.inl ⟨_, _, rfl⟩))
  | published => exact hset rfl (.inl rfl)
  | failed => exact hset rfl (.inl rfl)
  | disposed => exact hset rfl (.inl rfl)
  | stamped => exact hset rfl (.inl rfl)
  | filled => exact hset rfl (.inr (.inr ⟨_, rfl⟩))
  | deleteVacated => exact hset (t := s) rfl (.inl rfl)
  | _ => exact .inl rfl

theorem Moves.of_fill {p : PageId} (hm : Moves cfg acts s (.fill f p) s' a') : s' = fill s f p ∧ a' = .insert f p := by
  cases hm with
  | idle _ ha => cases ha
  | disposed ha => exact ha.elim nofun nofun
  | pushed ha => exact ha.elim nofun nofun
  | filled => exact ⟨rfl, rfl⟩

/-- Where the activities come from that are about to fill, publish or write a frame. -/
inductive Source (cfg : PoolConfig) (s : Shared) (a : Activity) (s' : Shared) : Activity → Prop where
  | other {a' : Activity} (hfill : ∀ f p, a' ≠ .fill f p) (hpub : ∀ p latch f, a' ≠ .publish p latch f)
      (hwrite : ∀ f p next, a' ≠ .writePage f p next) : Source cfg s a s' a'
  | fill {f : Nat} {p : PageId} (ha : a = .stamp f p) : Source cfg s a s' (.fill f p)
  | publish {p : PageId} {latch : Latch} {f : Nat} {d : DiskManager} (ha : a = .readPage p latch f)
      (hd : DiskManager.readPage cfg.disk p s.disk = some (.ok (s'.frames f).data, d)) (hdisk : s'.disk = d)
      (hfree : (s'.frames f).data.header.pageType ≠ .free) : Source cfg s a s' (.publish p latch f)
  | writePage {f : Nat} {p : PageId} {next : After} (ha : a = .isDirty f p next) (hs : s' = s)
      (hdirty : (s.frames f).isDirty = true) : Source cfg s a s' (.writePage f p next)

theorem Moves.source (hm : Moves cfg acts s a s' a') : Source cfg s a s' a' := by
  cases hm with
  | stamped => exact .fill rfl
  | @read p latch f pg d hd hfree =>
    have hdata : (({ s with disk := d } : Shared).setFrame f { s.frames f with data := pg }).frames f =
        { s.frames f with data := pg } := Function.update_self ..
    exact .publish rfl (by rw [hdata]; exact hd) rfl (by rw [hdata]; exact hfree)
  | dirty hdirty => exact .writePage rfl rfl hdirty
  | @idle _ a' _ _ ha' _ => cases a' <;> first | (cases ha'; done) | exact .other nofun nofun nofun
  | hit _ _ h => obtain ⟨-, rfl⟩ | ⟨-, rfl⟩ := h <;> exact .other nofun nofun nofun
  | woken _ h => obtain ⟨-, rfl⟩ | ⟨-, rfl⟩ := h <;> exact .other nofun nofun nofun
  | recorded h => obtain rfl | rfl := h <;> exact .other nofun nofun nofun
  | @unpinned f next => cases next <;> exact .other nofun nofun nofun
  | @clean f p next => cases next <;> exact .other nofun nofun nofun
  | @unwritten f p next _ _ _ => cases next <;> exact .other nofun nofun nofun
  | @marked f p observed next => cases next <;> exact .other nofun nofun nofun
  | @deallocated p f _ _ => cases f <;> exact .other nofun nofun nofun
  | @notDeallocated p f _ _ _ => cases f <;> exact .other nofun nofun nofun
  | _ => exact .other nofun nofun nofun

/-- The frame has bytes that its header type can be asked of. -/
def Filled (s : Shared) (acts : List Activity) (f : Nat) : Prop :=
  ((s.frames f).state = .resident ∧ ∀ p, .fill f p ∉ acts) ∨ ∃ p latch, .publish p latch f ∈ acts

/-- No FREE page in a frame, and nothing to write before the frame is filled. -/
structure Bytes (s : Shared) (acts : List Activity) : Prop where
  typed : ∀ f, Filled s acts f → (s.frames f).data.header.pageType ≠ .free
  fresh : ∀ f, (s.frames f).isDirty = true → (s.frames f).state = .resident ∧ ∀ p, .fill f p ∉ acts
  writing : ∀ f p next, .writePage f p next ∈ acts → ∀ q, .fill f q ∉ acts

/-- A dirty frame stays Resident and filled. -/
theorem Bytes.fresh_moves (h : Bytes s (a :: rest)) (hinv : Inv s (a :: rest)) (hm : Moves cfg acts s a s' a')
    (hd : (s'.frames f).isDirty = true) : (s'.frames f).state = .resident ∧ ∀ p, .fill f p ∉ a' :: rest := by
  have hown : ∀ {k}, a.stakeOn f = some k → Holds s f k := fun hk => (hinv f).holds a (.head _) _ hk
  -- Before the step the frame was Resident and filled, and the step did not free it.
  obtain ⟨hres, hfill, hstays⟩ : (s.frames f).state = .resident ∧ (∀ p, .fill f p ∉ rest) ∧
      (s'.frames f).state ≠ .free := by
    obtain ⟨hold, hfree⟩ | ⟨p, latch, rfl, hstate⟩ := hm.isDirty hd
    · obtain ⟨hres, hfill⟩ := h.fresh f hold
      refine ⟨hres, fun p hp => hfill p (.tail _ hp), fun hs => ?_⟩
      rw [hfree hs] at hres
      cases hres
    · have hk : Holds s f (.pinned p) := hown (Activity.stakeOn_same rfl)
      refine ⟨hk.1, fun q hq => ?_, by rw [hstate, hk.1]; decide⟩
      have hno := (hinv f).not_owns ⟨hk.1, hk.2.1 ▸ hk.2.2⟩ (.tail _ hq)
      rw [Activity.owns_some (k := .creator q) (Activity.stakeOn_same rfl)] at hno
      cases hno
  have hres' : (s'.frames f).state = .resident := by
    cases hm.change f with
    | same hs _ => exact hs.trans hres
    | freed hs => exact absurd hs hstays
    | loading _ ha =>
      subst ha
      have hk : Holds s f .privately := hown (Activity.stakeOn_same rfl)
      rw [hk.1] at hres
      cases hres
    | failed _ ha =>
      subst ha
      have hk : Holds s f .abandoner := hown (Activity.stakeOn_same rfl)
      rw [hk.1] at hres
      cases hres
    | published hs => exact hs
    | stamped hs => exact hs
  refine ⟨hres', fun p hp => ?_⟩
  cases hp with
  | tail _ hp => exact hfill p hp
  | head =>
    cases hm.source with
    | other hno => exact hno f p rfl
    | fill ha =>
      subst ha
      have hk : Holds s f .privately := hown (Activity.stakeOn_same rfl)
      rw [hk.1] at hres
      cases hres

/-- A frame with bytes had them before, or has just got them. -/
theorem Bytes.typed_moves (h : Bytes s (a :: rest)) (hinv : Inv s (a :: rest)) (hm : Moves cfg acts s a s' a')
    (hf : Filled s' (a' :: rest) f) : (s'.frames f).data.header.pageType ≠ .free := by
  have hown : ∀ {k}, a.stakeOn f = some k → Holds s f k := fun hk => (hinv f).holds a (.head _) _ hk
  -- `NewPage` and a read bring their own bytes.
  by_cases hfill : ∃ p, a = .fill f p
  · obtain ⟨p, rfl⟩ := hfill
    obtain ⟨rfl, -⟩ := hm.of_fill
    simp [fill, Shared.setFrame, blankPage]
  have hold : ∀ {p : PageId} {latch : Latch}, .publish p latch f ∈ a' :: rest →
      (.publish p latch f ∈ a :: rest) ∨ (s'.frames f).data.header.pageType ≠ .free := by
    intro p latch hp
    cases hp with
    | tail _ hp => exact .inl (.tail _ hp)
    | head =>
      cases hm.source with
      | other _ hno => exact absurd rfl (hno p latch f)
      | publish _ _ _ hfree => exact .inr hfree
  -- Otherwise the bytes are the old ones.
  have hread : ∀ {p : PageId} {latch : Latch}, a = .readPage p latch f → Holds s f (.loader p) :=
    fun ha => hown (ha ▸ Activity.stakeOn_same rfl)
  by_cases hpub : ∃ p latch, .publish p latch f ∈ a' :: rest
  · obtain ⟨p, latch, hp⟩ := hpub
    obtain hp | hdone := hold hp
    · obtain hsame | ⟨q, l, rfl⟩ | hf := hm.data (f := f)
      · rw [hsame]
        exact h.typed f (.inr ⟨p, latch, hp⟩)
      · -- Two loaders of one frame there are not.
        cases hp with
        | tail _ hp =>
          have hno := ((hinv f).owner (Activity.owns_some (k := .loader q) (Activity.stakeOn_same rfl))).1 _ hp
          rw [Activity.owns_some (k := .loader p) (Activity.stakeOn_same rfl)] at hno
          cases hno
      · exact absurd hf hfill
    · exact hdone
  · obtain ⟨hres, hno⟩ := hf.resolve_right hpub
    obtain hsame | ⟨q, l, ha⟩ | hf := hm.data (f := f)
    · rw [hsame]
      refine h.typed f ?_
      cases hm.change f with
      | same hs _ =>
        refine .inl ⟨hs.symm.trans hres, fun p hp => ?_⟩
        cases hp with
        | head => exact hfill ⟨p, rfl⟩
        | tail _ hp => exact hno p (.tail _ hp)
      | freed hs =>
        rw [hs] at hres
        cases hres
      | loading hs =>
        rw [hs] at hres
        cases hres
      | failed hs =>
        rw [hs] at hres
        cases hres
      | @published p latch _ _ ha => exact .inr ⟨p, latch, ha ▸ .head _⟩
      | @stamped p _ _ _ ha' => exact absurd (ha' ▸ .head _) (hno p)
    · have hk := hread ha
      subst ha
      cases hm.change f with
      | same hs _ =>
        rw [hs, hk.1] at hres
        cases hres
      | freed hs =>
        rw [hs] at hres
        cases hres
      | loading _ ha => cases ha
      | failed _ ha => cases ha
      | published _ _ ha => cases ha
      | stamped _ _ ha => cases ha
    · exact absurd hf hfill

theorem Bytes.moves (h : Bytes s (a :: rest)) (hinv : Inv s (a :: rest)) (hm : Moves cfg acts s a s' a') :
    Bytes s' (a' :: rest) := by
  refine ⟨fun f => h.typed_moves hinv hm, fun f => h.fresh_moves hinv hm, fun f p next hw q hq => ?_⟩
  have hrest : ∀ {b : Activity} {k : Stake}, b ∈ rest → b.stakeOn f = some k → Holds s f k :=
    fun hb hk => (hinv f).holds _ (.tail _ hb) _ hk
  cases hw with
  | head =>
    cases hq with
    | tail _ hq =>
      cases hm.source with
      | other _ _ hno => exact hno f p next rfl
      | writePage ha hs hdirty => exact (h.fresh f hdirty).2 q (.tail _ hq)
  | tail _ hw =>
    cases hq with
    | tail _ hq => exact h.writing f p next (.tail _ hw) q (.tail _ hq)
    | head =>
      cases hm.source with
      | other hno => exact hno f q rfl
      | fill ha =>
        -- The frame is `NewPage`'s and free, so nobody has it pinned for a write.
        subst ha
        have hfree : Holds s f .privately := (hinv f).holds _ (.head _) _ (Activity.stakeOn_same rfl)
        have hk : Holds s f (next.stake p) := hrest hw (Activity.stakeOn_same rfl)
        have hres : (s.frames f).state = .resident := by cases next <;> exact hk.1
        rw [hfree.1] at hres
        cases hres

end Bytes

/-! The pages on disk. -/

section Disk
variable {env : DiskEnv} {kind : PageType} {d d' : DiskManager} {used : Set PageId} {p q : PageId} {pg : Page}

/-- A page of the file that a fetch can have, and that is not FREE. -/
structure OnDisk (d : DiskManager) (p : PageId) : Prop where
  ne_meta : p ≠ metaPageId
  nonneg : (0 : PageId) ≤ p
  inside : p < d.pageCount
  inUse : (d.file p).header.pageType ≠ .free

theorem OnDisk.of_file (h : OnDisk d p) (hfile : d'.file p = d.file p) (hcount : d.pageCount ≤ d'.pageCount) :
    OnDisk d' p :=
  ⟨h.ne_meta, h.nonneg, PageId.lt_of_lt_of_le h.inside hcount, hfile ▸ h.inUse⟩

theorem OnDisk.write (h : OnDisk d p) (hpg : pg.header.pageType ≠ .free) : OnDisk (d.tick.setPage q pg) p := by
  by_cases hpq : p = q
  · subst hpq
    exact ⟨h.ne_meta, h.nonneg, h.inside, by rw [setPage_same]; exact hpg⟩
  · exact h.of_file (setPage_other hpq) (Int32.le_refl _)

theorem sound_write (h : Sound kind d used) (hkind : kind ≠ .free) (hq : OnDisk d q)
    (hpg : pg.header.pageType ≠ .free) : ∃ kind, kind ≠ .free ∧ Sound kind (d.tick.setPage q pg) used := by
  by_cases hcat : q = catalogRootPageId
  · subst hcat
    exact ⟨_, hpg, h.tick.setCatalog⟩
  · exact ⟨kind, hkind, h.tick.setPage (PageId.two_le hq.nonneg hq.ne_meta hcat) (.inr (.inr hq.inUse))⟩

/-- `AllocatePage` on a full file goes wrong. -/
theorem allocatePage_room {r : Except Interrupt PageId × DiskManager} (h : DiskManager.allocatePage env d = some r) :
    d.freelistHead = invalidPage → d.pageCount ≠ Int32.maxValue := by
  intro hnil hmax
  have hnone : DiskManager.allocatePage env d = none := by
    simp [DiskManager.allocatePage, allocateNew, bind, andThen, Exec.get, check, hnil, hmax]
  rw [hnone] at h
  cases h

theorem allocatePage_ok (hs : Sound kind d used) (h : DiskManager.allocatePage env d = some (.ok p, d')) :
    Granted d d' p ∧ p ∉ used ∧ Sound kind d' (Set.insert p used) := by
  obtain ⟨hg, hp, hs', -⟩ := wp_ok (wp_allocatePage hs (allocatePage_room h)) h
  exact ⟨hg, hp, hs'⟩

theorem allocatePage_error {st : Status} (hs : Sound kind d used)
    (h : DiskManager.allocatePage env d = some (.error (.status st), d')) : Unchanged d d' ∧ Sound kind d' used := by
  obtain ⟨-, -, hu, hs'⟩ := wp_error (wp_allocatePage hs (allocatePage_room h)) h
  exact ⟨hu, hs'⟩

theorem readPage_same {r : Except Interrupt Page} (hle : d.pageCount ≤ d.fileEnd)
    (h : DiskManager.readPage env p d = some (r, d')) : d' = d ∨ d' = d.tick := by
  cases r with
  | ok pg => exact .inr (wp_ok (wp_readPage hle) h).2.2.2.2
  | error e =>
    have he := wp_error (wp_readPage hle) h
    cases e with
    | status st => exact he.imp (·.2.2) (·.2.2)
    | stopped => exact .inr he.2

end Disk

/-! Who owns which page. -/

namespace Activity

/-- The page `NewPage` was given and has not published. -/
def creates : Activity → Option PageId
  | .stamp _ p | .fill _ p | .insert _ p => some p
  | _ => none

/-- The page a `DeletePage` is about to free. -/
def deletes : Activity → Option PageId
  | .deletePage p | .deleteClear p _ | .deallocate p _ => some p
  | _ => none

/-- The page a frame is about to be Resident with. -/
def vouches : Activity → Option PageId
  | .publish p _ _ => some p
  | .stamp _ p | .fill _ p | .insert _ p => some p
  | _ => none

end Activity

section Ledger
variable {cfg : PoolConfig} {acts rest : List Activity} {s s' : Shared} {a a' : Activity} {p : PageId}

/-- What a step does to the disk and to the ids. -/
inductive Books (cfg : PoolConfig) (s : Shared) (a : Activity) (s' : Shared) (a' : Activity) : Prop where
  | same (hdisk : s'.disk = s.disk) (howned : s'.owned = s.owned) (hfreed : s'.freed = s.freed)
      (hcreates : a'.creates = a.creates) (hdeletes : a'.deletes = a.deletes ∨ a'.deletes = none)
      (hvouches : a'.vouches = a.vouches ∨ a'.vouches = none)
  | read {q : PageId} {r : Except Interrupt Page} (hd : DiskManager.readPage cfg.disk q s.disk = some (r, s'.disk))
      (howned : s'.owned = s.owned) (hfreed : s'.freed = s.freed)
      (hcreates : a'.creates = none) (hdeletes : a'.deletes = none) (ha : a.creates = none)
      (hvouches : a'.vouches = none ∨ a'.vouches = some q ∧ ∃ pg, r = .ok pg ∧ pg.header.pageType ≠ .free)
  | write {f : Nat} {q : PageId} {next : After} (ha : a = .writePage f q next)
      (hd : DiskManager.writePage cfg.disk q (s.frames f).data s.disk = some (.ok (), s'.disk) ∨
        ∃ st, DiskManager.writePage cfg.disk q (s.frames f).data s.disk = some (.error (.status st), s'.disk))
      (howned : s'.owned = s.owned) (hfreed : s'.freed = s.freed)
      (hcreates : a'.creates = none) (hdeletes : a'.deletes = none) (hvouches : a'.vouches = none)
  | allocated {f : Nat} {q : PageId} (hd : DiskManager.allocatePage cfg.disk s.disk = some (.ok q, s'.disk))
      (howned : s'.owned = s.owned) (hfreed : s'.freed = s.freed.filter (· ≠ q)) (ha : a = .acquired .newPage f)
      (ha' : a' = .stamp f q)
  | unallocated {f : Nat} {st : Status} (hd : DiskManager.allocatePage cfg.disk s.disk = some (.error (.status st), s'.disk))
      (howned : s'.owned = s.owned) (hfreed : s'.freed = s.freed) (ha : a = .acquired .newPage f) (ha' : a' = .push f)
  | inserted {f : Nat} {q : PageId} (hdisk : s'.disk = s.disk) (howned : s'.owned = q :: s.owned)
      (hfreed : s'.freed = s.freed) (ha : a = .insert f q) (ha' : a' = .recordAccess q .write f false)
  | deallocated {f : Option Nat} {q : PageId} (hd : DiskManager.deallocatePage cfg.disk q s.disk = some (.ok (), s'.disk))
      (howned : s'.owned = s.owned.filter (· ≠ q)) (hfreed : s'.freed = q :: s.freed) (ha : a = .deallocate q f)
      (ha' : a' = deletePushed q f)
  | notDeallocated {f : Option Nat} {q : PageId} {st : Status}
      (hd : DiskManager.deallocatePage cfg.disk q s.disk = some (.error (.status st), s'.disk))
      (howned : s'.owned = s.owned) (hfreed : s'.freed = s.freed) (ha : a = .deallocate q f)
      (ha' : a' = deletePushed q f)

theorem unpinPage_disk (s : Shared) (f : Nat) : (s.unpinPage f).disk = s.disk ∧ (s.unpinPage f).owned = s.owned ∧
    (s.unpinPage f).freed = s.freed := by
  unfold Shared.unpinPage
  dsimp only
  split <;> exact ⟨rfl, rfl, rfl⟩

theorem ids_of_idle (h : a.idle = true) : a.creates = none ∧ a.vouches = none := by
  cases a <;> first | exact ⟨rfl, rfl⟩ | cases h

theorem afterFlush_ids (ok : Bool) (f : Nat) (p : PageId) (next : After) : (afterFlush ok f p next).creates = none ∧
    (afterFlush ok f p next).deletes = none ∧ (afterFlush ok f p next).vouches = none := by
  cases next <;> cases ok <;> exact ⟨rfl, rfl, rfl⟩

theorem Moves.books (hm : Moves cfg acts s a s' a') : Books cfg s a s' a' := by
  cases hm with
  | @idle a a' _ ha ha' hcall =>
    refine .same rfl rfl rfl ?_ (.inr ?_) (.inr (ids_of_idle ha').2)
    · rw [(ids_of_idle ha).1, (ids_of_idle ha').1]
    · cases a' with
      | deletePage p => exact absurd rfl (hcall p)
      | _ => first | rfl | cases ha'
  | hit _ _ h => obtain ⟨-, rfl⟩ | ⟨-, rfl⟩ := h <;> exact .same rfl rfl rfl rfl (.inl rfl) (.inl rfl)
  | woken _ h => obtain ⟨-, rfl⟩ | ⟨-, rfl⟩ := h <;> exact .same rfl rfl rfl rfl (.inl rfl) (.inl rfl)
  | recorded h => obtain rfl | rfl := h <;> exact .same rfl rfl rfl rfl (.inl rfl) (.inl rfl)
  | @unpinned f next =>
    obtain ⟨h1, h2, h3⟩ := unpinPage_disk s f
    cases next <;> exact .same h1 h2 h3 rfl (.inl rfl) (.inl rfl)
  | @clean f p next =>
    obtain ⟨h1, h2, h3⟩ := afterFlush_ids true f p next
    exact .same rfl rfl rfl h1 (.inr h2) (.inr h3)
  | @marked f p observed next =>
    obtain ⟨h1, h2, h3⟩ := afterFlush_ids true f p next
    exact .same rfl rfl rfl h1 (.inr h2) (.inr h3)
  | written hd => exact .write rfl (.inl hd) rfl rfl rfl rfl rfl
  | @unwritten f p next _ _ hd =>
    obtain ⟨h1, h2, h3⟩ := afterFlush_ids false f p next
    exact .write rfl (.inr ⟨_, hd⟩) rfl rfl h1 h2 h3
  | read hd hfree => exact .read hd rfl rfl rfl rfl rfl (.inr ⟨rfl, _, rfl, hfree⟩)
  | misread hd => exact .read hd rfl rfl rfl rfl rfl (.inl rfl)
  | unread hd => exact .read hd rfl rfl rfl rfl rfl (.inl rfl)
  | published => exact .same rfl rfl rfl rfl (.inl rfl) (.inr rfl)
  | disposed h => obtain rfl | rfl := h <;> exact .same rfl rfl rfl rfl (.inl rfl) (.inl rfl)
  | pushed h => obtain rfl | rfl := h <;> exact .same rfl rfl rfl rfl (.inl rfl) (.inl rfl)
  | allocated hd => exact .allocated hd rfl rfl rfl rfl
  | unallocated hd => exact .unallocated hd rfl rfl rfl rfl
  | inserted => exact .inserted rfl rfl rfl rfl rfl
  | deallocated hd => exact .deallocated hd rfl rfl rfl rfl
  | notDeallocated hd => exact .notDeallocated hd rfl rfl rfl rfl
  | _ => exact .same rfl rfl rfl rfl (.inl rfl) (.inl rfl)

/-- A frame is Resident with the page, or about to be. -/
def Live (s : Shared) (acts : List Activity) (p : PageId) : Prop :=
  (∃ f, (s.frames f).state = .resident ∧ (s.frames f).pageId = p) ∨ ∃ a ∈ acts, a.vouches = some p

/-- Pages that are somebody's. -/
def inHand (s : Shared) (acts : List Activity) : Set PageId := {p | p ∈ s.owned ∨ ∃ a ∈ acts, a.creates = some p}

structure Ledger (s : Shared) (acts : List Activity) : Prop where
  created : ∀ a ∈ acts, ∀ p, a.creates = some p → p ∉ s.owned
  createdOnce : ∀ p, acts.countP (·.creates = some p) ≤ 1
  deleted : ∀ a ∈ acts, ∀ p, a.deletes = some p → p ∈ s.owned
  deletedOnce : ∀ p, acts.countP (·.deletes = some p) ≤ 1
  sound : ∃ kind, kind ≠ .free ∧ Sound kind s.disk (inHand s acts)
  live : ∀ p, Live s acts p → OnDisk s.disk p
  freed : ∀ p ∈ s.freed, p ≠ metaPageId ∧ p < s.disk.pageCount ∧ (s.disk.file p).header.pageType = .free

/-- The shard of a page that is being deleted is locked, so the page stays unmapped. -/
def Shards (s : Shared) (acts : List Activity) : Prop := ∀ a ∈ acts, ∀ p, a.shard = some p → s.table p = none

theorem countP_once {q : Activity → Bool} (h : (a :: rest).countP q ≤ 1) (ha : q a' = true → q a = true) :
    (a' :: rest).countP q ≤ 1 := by
  rw [countP_cons_toNat] at h ⊢
  cases hq : q a' with
  | false =>
    simp only [Bool.toNat_false]
    omega
  | true =>
    rw [ha hq] at h
    exact h

theorem countP_rest {q : Activity → Bool} (h : (a :: rest).countP q ≤ 1) (ha : q a = true) : ∀ b ∈ rest, q b = false := by
  intro b hb
  rw [countP_cons_toNat, ha, Bool.toNat_true] at h
  have hzero : rest.countP q = 0 := by omega
  simpa using List.countP_eq_zero.mp hzero b hb

theorem mem_creates (hc : a'.creates = a.creates ∨ a'.creates = none) {b : Activity} {q : PageId}
    (hb : b ∈ a' :: rest) (hq : b.creates = some q) : ∃ b ∈ a :: rest, b.creates = some q := by
  cases hb with
  | tail _ hb => exact ⟨b, .tail _ hb, hq⟩
  | head =>
    rw [hq] at hc
    exact hc.elim (fun h => ⟨a, .head _, h.symm⟩) nofun

theorem inHand_subset (howned : s'.owned = s.owned) (hc : a'.creates = a.creates ∨ a'.creates = none) :
    inHand s' (a' :: rest) ⊆ inHand s (a :: rest) := by
  intro p hp
  cases hp with
  | inl hp => exact .inl (howned ▸ hp)
  | inr hp =>
    obtain ⟨b, hb, hbp⟩ := hp
    exact .inr (mem_creates hc hb hbp)

/-- A page becomes live when it is read or allocated. -/
theorem Inv.live_moves (h : Inv s (a :: rest)) (hm : Moves cfg acts s a s' a') (hl : Live s' (a' :: rest) p) :
    Live s (a :: rest) p ∨ a'.vouches = some p ∧ a.vouches ≠ some p := by
  have hown : ∀ {f k}, a.stakeOn f = some k → Holds s f k := fun hk => (h _).holds a (.head _) _ hk
  obtain ⟨f, hres, hpage⟩ | ⟨b, hb, hv⟩ := hl
  · refine .inl ?_
    cases hm.change f with
    | same hs hp => exact .inl ⟨f, hs.symm.trans hres, hp.symm.trans hpage⟩
    | freed hs =>
      rw [hs] at hres
      cases hres
    | loading hs =>
      rw [hs] at hres
      cases hres
    | failed hs =>
      rw [hs] at hres
      cases hres
    | @published q latch _ hp ha =>
      have hk : Holds s f (.loader q) := hown (ha ▸ Activity.stakeOn_same rfl)
      refine .inr ⟨a, .head _, ?_⟩
      rw [ha, ← hpage, hp, hk.2.1]
      rfl
    | @stamped q _ hp ha =>
      refine .inr ⟨a, .head _, ?_⟩
      rw [ha, ← hpage, hp]
      rfl
  · cases hb with
    | tail _ hb => exact .inl (.inr ⟨b, .tail _ hb, hv⟩)
    | head =>
      by_cases ha : a.vouches = some p
      · exact .inl (.inr ⟨a, .head _, ha⟩)
      · exact .inr ⟨hv, ha⟩

theorem creates_of_creator {f : Nat} (h : a.stakeOn f = some (.creator p)) : a.creates = some p := by
  unfold Activity.stakeOn at h
  cases a with
  | isDirty g q next => cases next <;> simp [Activity.stake, After.stake] at h
  | writePage g q next => cases next <;> simp [Activity.stake, After.stake] at h
  | markFlushed g q observed next => cases next <;> simp [Activity.stake, After.stake] at h
  | deallocate q g => cases g <;> simp [Activity.stake] at h
  | fill g q => simp_all [Activity.stake, Activity.creates]
  | insert g q => simp_all [Activity.stake, Activity.creates]
  | _ => simp [Activity.stake] at h

/-- A page with an owner that is not mapped is in no frame. -/
theorem Ledger.not_live (h : Ledger s acts) (hinv : Inv s acts) (hp : p ∈ s.owned) (hmap : s.table p = none) :
    ¬Live s acts p := by
  rintro (⟨f, hres, hpage⟩ | ⟨b, hb, hv⟩)
  · have hnot : ¬Housed s f := by
      intro hh
      have := hh.2
      rw [hpage, hmap] at this
      cases this
    obtain ⟨b, hb, k, hk, howns⟩ := (hinv f).exists_owner (by rw [hres]; decide) hnot
    have hholds := (hinv f).holds b hb k hk
    cases k with
    | creator q =>
      obtain rfl : p = q := hpage.symm.trans hholds.2
      exact h.created b hb p (creates_of_creator hk) hp
    | _ => simp_all [Holds, Stake.owns]
  · cases b with
    | publish q latch f =>
      obtain rfl : q = p := Option.some.inj hv
      have hk : Holds s f (.loader q) := (hinv f).holds _ hb _ (Activity.stakeOn_same rfl)
      have hq := hk.2.2
      rw [hmap] at hq
      cases hq
    | stamp f q => exact h.created _ hb p hv hp
    | fill f q => exact h.created _ hb p hv hp
    | insert f q => exact h.created _ hb p hv hp
    | _ => cases hv

/-- The owners are the same, and nobody new creates or deletes a page. -/
theorem Ledger.carry (h : Ledger s (a :: rest)) (howned : s'.owned = s.owned)
    (hc : a'.creates = a.creates ∨ a'.creates = none) (hdel : a'.deletes = a.deletes ∨ a'.deletes = none)
    (hsound : ∃ kind, kind ≠ .free ∧ Sound kind s'.disk (inHand s (a :: rest)))
    (hlive : ∀ p, Live s' (a' :: rest) p → OnDisk s'.disk p)
    (hfreed : ∀ p ∈ s'.freed, p ≠ metaPageId ∧ p < s'.disk.pageCount ∧ (s'.disk.file p).header.pageType = .free) :
    Ledger s' (a' :: rest) := by
  have hpart : ∀ {part : Activity → Option PageId} (p : PageId), part a' = part a ∨ part a' = none →
      decide (part a' = some p) = true → decide (part a = some p) = true := by
    intro part p hpart hp
    have hp := of_decide_eq_true hp
    rw [hp] at hpart
    exact decide_eq_true (hpart.elim Eq.symm nofun)
  refine ⟨fun b hb p hp => ?_, fun p => countP_once (h.createdOnce p) (hpart p hc), fun b hb p hp => ?_,
    fun p => countP_once (h.deletedOnce p) (hpart p hdel), ?_, hlive, hfreed⟩
  · obtain ⟨b', hb', hp'⟩ := mem_creates hc hb hp
    rw [howned]
    exact h.created b' hb' p hp'
  · rw [howned]
    cases hb with
    | tail _ hb => exact h.deleted b (.tail _ hb) p hp
    | head =>
      rw [hp] at hdel
      exact hdel.elim (fun he => h.deleted a (.head _) p he.symm) nofun
  · obtain ⟨kind, hkind, hs⟩ := hsound
    exact ⟨kind, hkind, hs.subset (inHand_subset howned hc)⟩

/-- `carry` for a step that makes no page live. -/
theorem Ledger.carry_live (h : Ledger s (a :: rest)) (hinv : Inv s (a :: rest)) (hm : Moves cfg acts s a s' a')
    (howned : s'.owned = s.owned) (hc : a'.creates = a.creates ∨ a'.creates = none)
    (hdel : a'.deletes = a.deletes ∨ a'.deletes = none) (hv : a'.vouches = a.vouches ∨ a'.vouches = none)
    (hsound : ∃ kind, kind ≠ .free ∧ Sound kind s'.disk (inHand s (a :: rest)))
    (hlive : ∀ p, Live s (a :: rest) p → OnDisk s'.disk p)
    (hfreed : ∀ p ∈ s'.freed, p ≠ metaPageId ∧ p < s'.disk.pageCount ∧ (s'.disk.file p).header.pageType = .free) :
    Ledger s' (a' :: rest) := by
  refine h.carry howned hc hdel hsound (fun p hl => ?_) hfreed
  obtain hl | ⟨hnew, hold⟩ := hinv.live_moves hm hl
  · exact hlive p hl
  · rw [hnew] at hv
    exact hv.elim (fun he => absurd he.symm hold) nofun

/-- The page a pinned frame is about to be written to, and the bytes. -/
theorem Ledger.writing {f : Nat} {q : PageId} {next : After} (h : Ledger s acts) (hinv : Inv s acts)
    (hb : Bytes s acts) (hmem : .writePage f q next ∈ acts) :
    OnDisk s.disk q ∧ (s.frames f).data.header.pageType ≠ .free := by
  have hk : Holds s f (next.stake q) := (hinv f).holds _ hmem _ (Activity.stakeOn_same rfl)
  have hres : (s.frames f).state = .resident ∧ (s.frames f).pageId = q := by
    cases next with
    | evict goal => exact ⟨hk.1, hk.2.1⟩
    | finish => exact hk
    | sweep n => exact hk
  exact ⟨h.live q (.inl ⟨f, hres⟩), hb.typed f (.inl ⟨hres.1, fun p => hb.writing f q next hmem p⟩)⟩

theorem Ledger.moves_read {q : PageId} {r : Except Interrupt Page} (h : Ledger s (a :: rest)) (hinv : Inv s (a :: rest))
    (hm : Moves cfg acts s a s' a') (hd : DiskManager.readPage cfg.disk q s.disk = some (r, s'.disk))
    (howned : s'.owned = s.owned) (hfreed : s'.freed = s.freed) (hcreates : a'.creates = none)
    (hdeletes : a'.deletes = none)
    (hv : a'.vouches = none ∨ a'.vouches = some q ∧ ∃ pg, r = .ok pg ∧ pg.header.pageType ≠ .free) :
    Ledger s' (a' :: rest) := by
  obtain ⟨kind, hkind, hs⟩ := h.sound
  have hsame := readPage_same hs.count_le hd
  have hfile : s'.disk.file = s.disk.file ∧ s'.disk.pageCount = s.disk.pageCount := by
    obtain he | he := hsame <;> rw [he] <;> exact ⟨rfl, rfl⟩
  have hkeep : ∀ {p}, OnDisk s.disk p → OnDisk s'.disk p := fun hp =>
    hp.of_file (by rw [hfile.1]) (by rw [hfile.2]; exact Int32.le_refl _)
  refine h.carry howned (.inr hcreates) (.inr hdeletes) ⟨kind, hkind, ?_⟩ (fun p hl => ?_) fun p hp => ?_
  · obtain he | he := hsame
    · exact he ▸ hs
    · exact he ▸ hs.tick
  · obtain hl | ⟨hnew, -⟩ := hinv.live_moves hm hl
    · exact hkeep (h.live p hl)
    · -- The page was read, and it was not FREE.
      obtain hno | ⟨hq, pg, rfl, hpg⟩ := hv
      · rw [hno] at hnew
        cases hnew
      · obtain rfl : q = p := Option.some.inj (hq.symm.trans hnew)
        obtain ⟨hmeta, h0, hlt, rfl, -⟩ := wp_ok (wp_readPage hs.count_le) hd
        exact hkeep ⟨hmeta, h0, hlt, hpg⟩
  · rw [hfile.1, hfile.2]
    exact h.freed p (hfreed ▸ hp)

theorem Ledger.moves_write {f : Nat} {q : PageId} {next : After} (h : Ledger s (.writePage f q next :: rest))
    (hinv : Inv s (.writePage f q next :: rest)) (hb : Bytes s (.writePage f q next :: rest))
    (hm : Moves cfg acts s (.writePage f q next) s' a')
    (hd : DiskManager.writePage cfg.disk q (s.frames f).data s.disk = some (.ok (), s'.disk) ∨
      ∃ st, DiskManager.writePage cfg.disk q (s.frames f).data s.disk = some (.error (.status st), s'.disk))
    (howned : s'.owned = s.owned) (hfreed : s'.freed = s.freed) (hcreates : a'.creates = none)
    (hdeletes : a'.deletes = none) (hv : a'.vouches = none) : Ledger s' (a' :: rest) := by
  obtain ⟨kind, hkind, hs⟩ := h.sound
  obtain ⟨hq, hpg⟩ := h.writing hinv hb (.head _)
  have hcases : s'.disk = s.disk ∨ s'.disk = s.disk.tick ∨ s'.disk = s.disk.tick.setPage q (s.frames f).data := by
    obtain hd | ⟨st, hd⟩ := hd
    · exact .inr (.inr (wp_ok wp_writePage hd).2.2.2)
    · have he := wp_error wp_writePage hd
      exact he.elim (fun he => .inl he.2.2) fun he => .inr (.inl he.2.2)
  refine h.carry_live hinv hm howned (.inr hcreates) (.inr hdeletes) (.inr hv) ?_ (fun p hl => ?_) fun p hp => ?_
  · obtain he | he | he := hcases <;> rw [he]
    · exact ⟨kind, hkind, hs⟩
    · exact ⟨kind, hkind, hs.tick⟩
    · exact sound_write hs hkind hq hpg
  · have hp := h.live p hl
    obtain he | he | he := hcases <;> rw [he]
    · exact hp
    · exact hp.of_file rfl (Int32.le_refl _)
    · exact hp.write hpg
  · have hold := h.freed p (hfreed ▸ hp)
    obtain he | he | he := hcases <;> rw [he]
    · exact hold
    · exact hold
    · -- The page written is not FREE, so it is another one.
      have hne : p ≠ q := by
        rintro rfl
        exact hq.inUse hold.2.2
      exact ⟨hold.1, hold.2.1, by rw [setPage_other hne]; exact hold.2.2⟩

theorem Ledger.moves_allocated {f : Nat} {q : PageId} (h : Ledger s (.acquired .newPage f :: rest))
    (hinv : Inv s (.acquired .newPage f :: rest)) (hm : Moves cfg acts s (.acquired .newPage f) s' (.stamp f q))
    (hd : DiskManager.allocatePage cfg.disk s.disk = some (.ok q, s'.disk)) (howned : s'.owned = s.owned)
    (hfreed : s'.freed = s.freed.filter (· ≠ q)) : Ledger s' (.stamp f q :: rest) := by
  obtain ⟨kind, hkind, hs⟩ := h.sound
  obtain ⟨hg, hnew, hs'⟩ := allocatePage_ok hs hd
  have hnone : ∀ b ∈ rest, b.creates ≠ some q := fun b hb hq => hnew (.inr ⟨b, .tail _ hb, hq⟩)
  have hsub : inHand s' (.stamp f q :: rest) ⊆ Set.insert q (inHand s (.acquired .newPage f :: rest)) := by
    rintro p (hp | ⟨b, hb, hbp⟩)
    · exact .inr (.inl (howned ▸ hp))
    · cases hb with
      | head => exact .inl (Option.some.inj hbp).symm
      | tail _ hb => exact .inr (.inr ⟨b, .tail _ hb, hbp⟩)
  have hother : ∀ {p}, p ≠ metaPageId → p ≠ q → s'.disk.file p = s.disk.file p := fun hp hpq => hg.other _ hp hpq
  refine ⟨fun b hb p hp => ?_, fun p => ?_, fun b hb p hp => ?_, fun p => countP_once (h.deletedOnce p) nofun,
    ⟨kind, hkind, hs'.subset hsub⟩, fun p hl => ?_, fun p hp => ?_⟩
  · rw [howned]
    cases hb with
    | head => exact Option.some.inj hp ▸ fun ho => hnew (.inl ho)
    | tail _ hb => exact h.created b (.tail _ hb) p hp
  · rw [countP_cons_toNat]
    by_cases hpq : q = p
    · subst hpq
      have hzero : rest.countP (·.creates = some q) = 0 :=
        List.countP_eq_zero.mpr fun b hb => by simpa using hnone b hb
      rw [hzero, Nat.zero_add]
      exact Bool.toNat_le _
    · have hno : decide ((Activity.stamp f q).creates = some p) = false := by simpa [Activity.creates] using hpq
      rw [hno]
      have := h.createdOnce p
      rw [countP_cons_toNat] at this
      simp only [Bool.toNat_false]
      omega
  · rw [howned]
    cases hb with
    | head => cases hp
    | tail _ hb => exact h.deleted b (.tail _ hb) p hp
  · obtain hl | ⟨hv, -⟩ := hinv.live_moves hm hl
    · have hp := h.live p hl
      refine hp.of_file (hother hp.ne_meta ?_) hg.pageCount_le
      rintro rfl
      exact hg.fresh.elim (fun hle => Int32.not_le.mpr hp.inside hle) hp.inUse
    · obtain rfl : q = p := Option.some.inj hv
      refine ⟨(PageId.of_two_le hg.two_le).1, (PageId.of_two_le hg.two_le).2.2.2, (hg.count q).mpr (.inr rfl), ?_⟩
      rw [hg.header]
      show PageType.allocated ≠ .free
      decide
  · rw [hfreed, List.mem_filter] at hp
    obtain ⟨hmeta, hlt, hfree⟩ := h.freed p hp.1
    have hpq : p ≠ q := of_decide_eq_true hp.2
    exact ⟨hmeta, PageId.lt_of_lt_of_le hlt hg.pageCount_le, by rw [hother hmeta hpq]; exact hfree⟩

theorem Ledger.moves_inserted {f : Nat} {q : PageId} (h : Ledger s (.insert f q :: rest))
    (hinv : Inv s (.insert f q :: rest)) (hm : Moves cfg acts s (.insert f q) s' (.recordAccess q .write f false))
    (hdisk : s'.disk = s.disk) (howned : s'.owned = q :: s.owned) (hfreed : s'.freed = s.freed) :
    Ledger s' (.recordAccess q .write f false :: rest) := by
  obtain ⟨kind, hkind, hs⟩ := h.sound
  have hone := countP_rest (h.createdOnce q) (decide_eq_true rfl)
  refine ⟨fun b hb p hp => ?_, fun p => countP_once (h.createdOnce p) nofun, fun b hb p hp => ?_,
    fun p => countP_once (h.deletedOnce p) nofun, ⟨kind, hkind, hdisk ▸ hs.subset ?_⟩, fun p hl => ?_, fun p hp => ?_⟩
  · cases hb with
    | head => cases hp
    | tail _ hb =>
      rw [howned]
      refine fun hmem => ?_
      cases hmem with
      | head => exact of_decide_eq_false (hone b hb) hp
      | tail _ hmem => exact h.created b (.tail _ hb) p hp hmem
  · rw [howned]
    cases hb with
    | head => cases hp
    | tail _ hb => exact .tail _ (h.deleted b (.tail _ hb) p hp)
  · rintro p (hp | ⟨b, hb, hbp⟩)
    · rw [howned] at hp
      cases hp with
      | head => exact .inr ⟨_, .head _, rfl⟩
      | tail _ hp => exact .inl hp
    · exact .inr (mem_creates (.inr rfl) hb hbp)
  · rw [hdisk]
    obtain hl | ⟨hv, -⟩ := hinv.live_moves hm hl
    · exact h.live p hl
    · cases hv
  · rw [hdisk]
    exact h.freed p (hfreed ▸ hp)

/-- What a `DeallocatePage` leaves, whether it succeeds or not: the other pages. -/
theorem Ledger.other_kept {q : PageId} {f : Option Nat} (h : Ledger s (.deallocate q f :: rest))
    (hinv : Inv s (.deallocate q f :: rest)) (hsh : Shards s (.deallocate q f :: rest)) {d' : DiskManager}
    (hother : ∀ p, p ≠ metaPageId → p ≠ q → d'.file p = s.disk.file p) (hcount : d'.pageCount = s.disk.pageCount)
    (hl : Live s (.deallocate q f :: rest) p) : OnDisk d' p := by
  have hp := h.live p hl
  refine hp.of_file (hother p hp.ne_meta ?_) (by rw [hcount]; exact Int32.le_refl _)
  rintro rfl
  exact h.not_live hinv (h.deleted _ (.head _) p rfl) (hsh _ (.head _) p rfl) hl

theorem deletePushed_ids (q : PageId) (f : Option Nat) : (deletePushed q f).creates = none ∧
    (deletePushed q f).deletes = none ∧ (deletePushed q f).vouches = none := by
  cases f <;> exact ⟨rfl, rfl, rfl⟩

theorem Ledger.moves_deallocated {q : PageId} {f : Option Nat} (h : Ledger s (.deallocate q f :: rest))
    (hinv : Inv s (.deallocate q f :: rest)) (hsh : Shards s (.deallocate q f :: rest))
    (hm : Moves cfg acts s (.deallocate q f) s' (deletePushed q f))
    (hd : DiskManager.deallocatePage cfg.disk q s.disk = some (.ok (), s'.disk))
    (howned : s'.owned = s.owned.filter (· ≠ q)) (hfreed : s'.freed = q :: s.freed) :
    Ledger s' (deletePushed q f :: rest) := by
  obtain ⟨kind, hkind, hs⟩ := h.sound
  obtain ⟨hq, hlt, hrel, hfree, hs', -⟩ := wp_ok (wp_deallocatePage_exact hs) hd
  obtain ⟨hc, hdel, hv⟩ := deletePushed_ids q f
  have hmem : ∀ {p}, p ∈ s'.owned ↔ p ∈ s.owned ∧ p ≠ q := by
    intro p
    rw [howned, List.mem_filter, decide_eq_true_eq]
  have hone := countP_rest (h.deletedOnce q) (decide_eq_true rfl)
  have hnone : ∀ {part : Activity → Option PageId} (p : PageId), part (deletePushed q f) = none →
      decide (part (deletePushed q f) = some p) = true → decide (part (.deallocate q f) = some p) = true := by
    intro part p hpart hp
    rw [hpart] at hp
    cases of_decide_eq_true hp
  refine ⟨fun b hb p hp => ?_, fun p => countP_once (h.createdOnce p) (hnone p hc), fun b hb p hp => ?_,
    fun p => countP_once (h.deletedOnce p) (hnone p hdel), ⟨kind, hkind, hs'.subset ?_⟩, fun p hl => ?_,
    fun p hp => ?_⟩
  · obtain ⟨b', hb', hp'⟩ := mem_creates (.inr hc) hb hp
    exact fun ho => h.created b' hb' p hp' (hmem.mp ho).1
  · cases hb with
    | head =>
      rw [hdel] at hp
      cases hp
    | tail _ hb =>
      refine hmem.mpr ⟨h.deleted b (.tail _ hb) p hp, ?_⟩
      rintro rfl
      exact of_decide_eq_false (hone b hb) hp
  · rintro p (hp | ⟨b, hb, hbp⟩)
    · exact ⟨.inl (hmem.mp hp).1, (hmem.mp hp).2⟩
    · obtain ⟨b', hb', hp'⟩ := mem_creates (a := .deallocate q f) (.inr hc) hb hbp
      refine ⟨.inr ⟨b', hb', hp'⟩, ?_⟩
      rintro rfl
      exact h.created b' hb' p hp' (h.deleted _ (.head _) p rfl)
  · obtain hl | ⟨hnew, -⟩ := hinv.live_moves hm hl
    · exact h.other_kept hinv hsh hrel.other hrel.pageCount hl
    · rw [hv] at hnew
      cases hnew
  · rw [hfreed] at hp
    rw [hrel.pageCount]
    by_cases hpq : p = q
    · subst hpq
      exact ⟨(PageId.of_two_le hq).1, hlt, hfree⟩
    · obtain ⟨hmeta, hin, hold⟩ := h.freed p ((List.mem_cons.mp hp).resolve_left hpq)
      exact ⟨hmeta, hin, by rw [hrel.other p hmeta hpq]; exact hold⟩

theorem Ledger.moves_notDeallocated {q : PageId} {f : Option Nat} {st : Status} (h : Ledger s (.deallocate q f :: rest))
    (hinv : Inv s (.deallocate q f :: rest)) (hsh : Shards s (.deallocate q f :: rest))
    (hm : Moves cfg acts s (.deallocate q f) s' (deletePushed q f))
    (hd : DiskManager.deallocatePage cfg.disk q s.disk = some (.error (.status st), s'.disk))
    (howned : s'.owned = s.owned) (hfreed : s'.freed = s.freed) : Ledger s' (deletePushed q f :: rest) := by
  obtain ⟨kind, hkind, hs⟩ := h.sound
  obtain ⟨hc, hdel, hv⟩ := deletePushed_ids q f
  obtain ⟨-, hsame⟩ | ⟨-, hrel, hs', hbotch⟩ := wp_error (wp_deallocatePage_exact hs) hd
  · refine h.carry_live hinv hm howned (.inr hc) (.inr hdel) (.inr hv) ⟨kind, hkind, hsame ▸ hs⟩ (fun p hl => ?_) fun p hp => ?_
    · rw [hsame]
      exact h.live p hl
    · rw [hsame]
      exact h.freed p (hfreed ▸ hp)
  · refine h.carry_live hinv hm howned (.inr hc) (.inr hdel) (.inr hv) ⟨kind, hkind, hs'⟩
      (fun p hl => h.other_kept hinv hsh hrel.other hrel.pageCount hl) fun p hp => ?_
    obtain ⟨hmeta, hin, hold⟩ := h.freed p (hfreed ▸ hp)
    refine ⟨hmeta, by rw [hrel.pageCount]; exact hin, ?_⟩
    by_cases hpq : p = q
    · -- A page that is FREE already is FREE however the call ends.
      subst hpq
      by_cases hst : StampWritten cfg.disk s.disk
      · exact hbotch.stamped hst
      · rw [hbotch.spared hst]
        exact hold
    · rw [hrel.other p hmeta hpq]
      exact hold

theorem Ledger.moves (h : Ledger s (a :: rest)) (hinv : Inv s (a :: rest)) (hb : Bytes s (a :: rest))
    (hsh : Shards s (a :: rest)) (hm : Moves cfg acts s a s' a') : Ledger s' (a' :: rest) := by
  cases hm.books with
  | same hdisk howned hfreed hcreates hdeletes hvouches =>
    refine h.carry_live hinv hm howned (.inl hcreates) hdeletes hvouches ?_ (fun p hl => ?_) fun p hp => ?_
    · rw [hdisk]
      exact h.sound
    · rw [hdisk]
      exact h.live p hl
    · rw [hdisk]
      exact h.freed p (hfreed ▸ hp)
  | read hd howned hfreed hcreates hdeletes _ hv => exact h.moves_read hinv hm hd howned hfreed hcreates hdeletes hv
  | write ha hd howned hfreed hcreates hdeletes hv =>
    subst ha
    exact h.moves_write hinv hb hm hd howned hfreed hcreates hdeletes hv
  | allocated hd howned hfreed ha ha' =>
    subst ha ha'
    exact h.moves_allocated hinv hm hd howned hfreed
  | unallocated hd howned hfreed ha ha' =>
    subst ha ha'
    obtain ⟨kind, hkind, hs⟩ := h.sound
    obtain ⟨hun, hs'⟩ := allocatePage_error hs hd
    refine h.carry_live hinv hm howned (.inl rfl) (.inl rfl) (.inl rfl) ⟨kind, hkind, hs'⟩ (fun p hl => ?_) fun p hp => ?_
    · have hp := h.live p hl
      exact hp.of_file (hun.file p hp.ne_meta hp.inside) (by rw [hun.pageCount]; exact Int32.le_refl _)
    · obtain ⟨hmeta, hin, hold⟩ := h.freed p (hfreed ▸ hp)
      exact ⟨hmeta, by rw [hun.pageCount]; exact hin, by rw [hun.file p hmeta hin]; exact hold⟩
  | inserted hdisk howned hfreed ha ha' =>
    subst ha ha'
    exact h.moves_inserted hinv hm hdisk howned hfreed
  | deallocated hd howned hfreed ha ha' =>
    subst ha ha'
    exact h.moves_deallocated hinv hsh hm hd howned hfreed
  | notDeallocated hd howned hfreed ha ha' =>
    subst ha ha'
    exact h.moves_notDeallocated hinv hsh hm hd howned hfreed

/-- A page is mapped under its shard's lock. -/
theorem Moves.table (hm : Moves cfg acts s a s' a') :
    s'.table p = s.table p ∨ s'.table p = none ∨ shardFree acts p = true := by
  have herase : ∀ {q}, Function.update s.table q none p = s.table p ∨ Function.update s.table q none p = none ∨
      shardFree acts p = true := by
    intro q
    by_cases hpq : p = q
    · exact .inr (.inl (by rw [hpq, Function.update_self]))
    · exact .inl (Function.update_of_ne hpq _ _)
  have hmap : ∀ {q : PageId} {f : Nat}, shardFree acts q = true → Function.update s.table q (some f) p = s.table p ∨
      Function.update s.table q (some f) p = none ∨ shardFree acts p = true := by
    intro q f hq
    by_cases hpq : p = q
    · exact .inr (.inr (hpq ▸ hq))
    · exact .inl (Function.update_of_ne hpq _ _)
  cases hm with
  | unpinned => exact .inl (by rw [unpinPage_table])
  | reclaimed => exact herase
  | retaken => exact herase
  | mapped hshard => exact hmap hshard
  | erased => exact herase
  | inserted hshard => exact hmap hshard
  | deleteVacated => exact herase
  | _ => exact .inl rfl

/-- A shard stays locked from the step that found the page unmapped, or unmapped it. -/
theorem Moves.shard (hm : Moves cfg acts s a s' a') (hp : a'.shard = some p) :
    a.shard = some p ∨ s'.table p = none := by
  cases hm with
  | deleteUncached hmap => exact .inr (Option.some.inj hp ▸ hmap)
  | @deleteVacated q f _ _ =>
    obtain rfl : q = p := Option.some.inj hp
    exact .inr (Function.update_self ..)
  | deleteUnlisted => exact .inl hp
  | @deallocated q f _ _ =>
    cases f with
    | none => cases hp
    | some f => exact .inl hp
  | @notDeallocated q f _ _ _ =>
    cases f with
    | none => cases hp
    | some f => exact .inl hp
  | @idle _ a' _ _ ha' _ => cases a' <;> first | (cases ha'; done) | cases hp
  | hit _ _ h => obtain ⟨-, rfl⟩ | ⟨-, rfl⟩ := h <;> cases hp
  | woken _ h => obtain ⟨-, rfl⟩ | ⟨-, rfl⟩ := h <;> cases hp
  | recorded h => obtain rfl | rfl := h <;> cases hp
  | @unpinned f next => cases next <;> cases hp
  | @clean f q next => cases next <;> cases hp
  | @unwritten f q next _ _ _ => cases next <;> cases hp
  | @marked f q observed next => cases next <;> cases hp
  | _ => cases hp

theorem Shards.moves (h : Shards s (a :: rest)) (hm : Moves cfg acts s a s' a') (hacts : ∀ b ∈ a :: rest, b ∈ acts) :
    Shards s' (a' :: rest) := by
  have hkeep : ∀ {b p}, b ∈ a :: rest → b.shard = some p → s'.table p = none := by
    intro b p hb hp
    obtain hsame | hnone | hfree := hm.table (p := p)
    · rw [hsame]
      exact h b hb p hp
    · exact hnone
    · -- The shard is locked by `b`, so nobody maps the page.
      have hb := List.all_eq_true.mp hfree b (hacts b hb)
      rw [hp] at hb
      simp at hb
  intro b hb p hp
  cases hb with
  | tail _ hb => exact hkeep (.tail _ hb) hp
  | head => exact (hm.shard hp).elim (hkeep (.head _)) id

end Ledger

end KernSql.Concurrent
