import KernSql.Buffer.ConcurrentLedger

/- The concurrent pool and the pages on disk, over whole runs.

   Owners delete, and each page once at a time; anybody may fetch, flush and evict
   anything (`OwnersDelete`). Then the pool never touches a page that is FREE on
   disk (`freed_pages_are_left_alone`).

   The same ledger shows when `NewPage` can find its page mapped already. A fetch
   publishes its mapping before it has read the page, so a fetch of an id that is
   about to be allocated can be first; `newPage_aborts` is such a run. When
   mappings are published for allocated pages only, no `NewPage` aborts
   (`newPage_never_aborts`). -/
namespace KernSql.Concurrent
open DiskManager Machine Exec

section Runs
variable {cfg : PoolConfig} {s s' : System} {c : Choice} {sh : Shared} {acts : List Activity}

/-- Only the owner of a page deletes it, once at a time, and no header is typed FREE through a guard. -/
def OwnersDelete (s : System) : Choice → Prop
  | .call (.deletePage p) => p ∈ s.shared.owned ∧ ∀ a ∈ s.acts, a.deletes ≠ some p
  | .edit _ (.pageType type) => type ≠ .free
  | _ => True

/-- What every state has in which owners have deleted. -/
structure Kept (sh : Shared) (acts : List Activity) : Prop where
  inv : Inv sh acts
  bytes : Bytes sh acts
  ledger : Ledger sh acts
  shards : Shards sh acts

theorem Kept.perm {acts' : List Activity} (h : Kept sh acts) (hp : acts.Perm acts') : Kept sh acts' := by
  have hmem : ∀ {b}, b ∈ acts' ↔ b ∈ acts := hp.mem_iff.symm
  refine ⟨h.inv.perm hp, ⟨fun f hf => h.bytes.typed f ?_, fun f hd => ?_, fun f p next hw q hq => ?_⟩, ⟨?_, ?_, ?_, ?_, ?_, ?_, ?_⟩, ?_⟩
  · simpa only [Filled, hmem] using hf
  · simpa only [hmem] using h.bytes.fresh f hd
  · exact h.bytes.writing f p next (hmem.mp hw) q (hmem.mp hq)
  · simpa only [hmem] using h.ledger.created
  · simpa only [hp.countP_eq] using h.ledger.createdOnce
  · simpa only [hmem] using h.ledger.deleted
  · simpa only [hp.countP_eq] using h.ledger.deletedOnce
  · simpa only [inHand, hmem] using h.ledger.sound
  · simpa only [Live, hmem] using h.ledger.live
  · exact h.ledger.freed
  · simpa only [Shards, hmem] using h.shards

theorem Kept.moves {a a' : Activity} {rest : List Activity} {sh' : Shared} (h : Kept sh (a :: rest))
    (hm : Moves cfg acts sh a sh' a') (hacts : ∀ b ∈ a :: rest, b ∈ acts) : Kept sh' (a' :: rest) :=
  ⟨h.inv.moves hm, h.bytes.moves h.inv hm, h.ledger.moves h.inv h.bytes h.shards hm, h.shards.moves hm hacts⟩

theorem Activity.not_marked_of_idle {a : Activity} (h : a.idle = true) : (∀ f p, a ≠ .fill f p) ∧
    (∀ p latch f, a ≠ .publish p latch f) ∧ (∀ f p next, a ≠ .writePage f p next) ∧ a.shard = none := by
  cases a <;> first | (cases h; done) | exact ⟨nofun, nofun, nofun, rfl⟩

/-- A call begins. -/
theorem Kept.start {a : Activity} (h : Kept sh acts) (ha : a.idle = true)
    (hdel : ∀ p, a.deletes = some p → p ∈ sh.owned ∧ ∀ b ∈ acts, b.deletes ≠ some p) : Kept sh (a :: acts) := by
  obtain ⟨hfill, hpub, hwrite, hshard⟩ := Activity.not_marked_of_idle ha
  obtain ⟨hcreates, hvouches⟩ := ids_of_idle ha
  have hmemFill : ∀ {f p}, .fill f p ∈ a :: acts ↔ .fill f p ∈ acts := by
    intro f p
    rw [List.mem_cons]
    exact or_iff_right fun he => hfill f p he.symm
  have hmemPub : ∀ {p latch f}, .publish p latch f ∈ a :: acts ↔ .publish p latch f ∈ acts := by
    intro p latch f
    rw [List.mem_cons]
    exact or_iff_right fun he => hpub p latch f he.symm
  refine ⟨h.inv.start (Activity.stake_of_idle ha), ⟨fun f hf => h.bytes.typed f ?_, fun f hd => ?_, ?_⟩,
    ⟨fun b hb p hp => ?_, fun p => ?_, fun b hb p hp => ?_, fun p => ?_, ?_, fun p hl => h.ledger.live p ?_,
      h.ledger.freed⟩, fun b hb p hp => ?_⟩
  · simpa only [Filled, hmemFill, hmemPub] using hf
  · simpa only [hmemFill] using h.bytes.fresh f hd
  · intro f p next hw q hq
    cases hw with
    | head => exact hwrite f p next rfl
    | tail _ hw => exact h.bytes.writing f p next hw q (hmemFill.mp hq)
  · cases hb with
    | head =>
      rw [hcreates] at hp
      cases hp
    | tail _ hb => exact h.ledger.created b hb p hp
  · rw [countP_cons_toNat, hcreates]
    exact h.ledger.createdOnce p
  · cases hb with
    | head => exact (hdel p hp).1
    | tail _ hb => exact h.ledger.deleted b hb p hp
  · rw [countP_cons_toNat]
    by_cases hp : a.deletes = some p
    · have hzero : acts.countP (·.deletes = some p) = 0 :=
        List.countP_eq_zero.mpr fun b hb => by simpa using (hdel p hp).2 b hb
      rw [hzero, Nat.zero_add]
      exact Bool.toNat_le _
    · rw [decide_eq_false hp]
      exact h.ledger.deletedOnce p
  · obtain ⟨kind, hkind, hs⟩ := h.ledger.sound
    refine ⟨kind, hkind, hs.subset ?_⟩
    rintro p (hp | ⟨b, hb, hbp⟩)
    · exact .inl hp
    · cases hb with
      | head =>
        rw [hcreates] at hbp
        cases hbp
      | tail _ hb => exact .inr ⟨b, hb, hbp⟩
  · refine hl.imp id fun hl => ?_
    obtain ⟨b, hb, hv⟩ := hl
    cases hb with
    | head =>
      rw [hvouches] at hv
      cases hv
    | tail _ hb => exact ⟨b, hb, hv⟩
  · cases hb with
    | head =>
      rw [hshard] at hp
      cases hp
    | tail _ hb => exact h.shards b hb p hp

theorem Edit.apply_type {e : Edit} {pg : Page} (he : ∀ type, e = .pageType type → type ≠ .free)
    (hpg : pg.header.pageType ≠ .free) : (e.apply pg).header.pageType ≠ .free := by
  cases e with
  | pageType type => exact he type rfl
  | body b => exact hpg
  | flags bits => exact hpg
  | nextPageId next => exact hpg
  | prevPageId prev => exact hpg

/-- A write guard changes its page. -/
theorem Kept.edit {p : PageId} {f : Nat} {e : Edit} (h : Kept sh acts) (hmem : .guard p .write f ∈ acts)
    (he : ∀ type, e = .pageType type → type ≠ .free) :
    Kept (sh.setFrame f { sh.frames f with data := e.apply (sh.frames f).data }) acts := by
  have hq : Quiet sh (sh.setFrame f { sh.frames f with data := e.apply (sh.frames f).data }) :=
    (Quiet.refl sh).setFrame rfl rfl rfl
  have hperm := List.perm_cons_erase hmem
  have hdirty : ∀ g, ((sh.setFrame f { sh.frames f with data := e.apply (sh.frames f).data }).frames g).isDirty =
      (sh.frames g).isDirty := by
    intro g
    by_cases hg : g = f
    · subst hg
      simp [Shared.setFrame, Frame.isDirty]
    · simp [Shared.setFrame, hg]
  refine ⟨((h.inv.perm hperm).quiet hq rfl).perm hperm.symm, ⟨fun g hg => ?_, fun g hd => ?_, h.bytes.writing⟩,
    ⟨h.ledger.created, h.ledger.createdOnce, h.ledger.deleted, h.ledger.deletedOnce, h.ledger.sound, fun q hl => ?_,
      h.ledger.freed⟩, h.shards⟩
  · have hg' : Filled sh acts g := by simpa only [Filled, hq.state] using hg
    have hold := h.bytes.typed g hg'
    by_cases hgf : g = f
    · subst hgf
      simp only [Shared.setFrame, Function.update_self]
      exact Edit.apply_type he hold
    · simpa [Shared.setFrame, hgf] using hold
  · rw [hq.state]
    exact h.bytes.fresh g (hdirty g ▸ hd)
  · refine h.ledger.live q ?_
    simpa only [Live, hq.state, hq.pageId] using hl

theorem Kept.taken (h : Kept s.shared s.acts) (hc : OwnersDelete s c) (ht : Taken cfg s s' c) :
    Kept s'.shared s'.acts := by
  cases ht with
  | call c hshared hacts =>
    rw [hshared]
    refine (h.start c.start_idle fun p hp => ?_).perm hacts.symm
    cases c with
    | deletePage q =>
      obtain rfl : q = p := Option.some.inj hp
      exact hc
    | _ => cases hp
  | run _ _ hacts hacts' hm =>
    exact ((h.perm hacts).moves hm fun b hb => hacts.mem_iff.mpr hb).perm hacts'.symm
  | @edit i e p f hi hacts hshared =>
    rw [hacts, hshared]
    refine h.edit (List.mem_of_getElem? hi) fun type he => ?_
    subst he
    exact hc

theorem kept_new {disk : DiskManager} {kind : PageType} (capacity : Nat) {owned : List PageId}
    (hs : Sound kind disk {p | p ∈ owned}) (hkind : kind ≠ .free) :
    Kept (System.new disk capacity owned).shared (System.new disk capacity owned).acts := by
  have hnot : ∀ {f}, ((System.new disk capacity owned).shared.frames f).state ≠ .resident := nofun
  refine ⟨inv_new disk capacity owned, ⟨fun f hf => ?_, nofun, nofun⟩,
    ⟨nofun, fun _ => Nat.zero_le _, nofun, fun _ => Nat.zero_le _, ⟨kind, hkind, hs.subset ?_⟩, fun p hl => ?_, nofun⟩, nofun⟩
  · obtain ⟨hres, -⟩ | ⟨p, latch, hp⟩ := hf
    · exact absurd hres hnot
    · cases hp
  · rintro p (hp | ⟨b, hb, -⟩)
    · exact hp
    · cases hb
  · obtain ⟨f, hres, -⟩ | ⟨b, hb, -⟩ := hl
    · exact absurd hres hnot
    · cases hb

theorem kept_reaches {allowed : System → Choice → Prop} (hle : ∀ s c, allowed s c → OwnersDelete s c)
    {disk : DiskManager} {kind : PageType} {capacity : Nat} {owned : List PageId} (hs : Sound kind disk {p | p ∈ owned})
    (hkind : kind ≠ .free) (h : Reaches (step cfg) allowed (System.new disk capacity owned) s) :
    Kept s.shared s.acts := by
  refine h.invariant (I := fun s => Kept s.shared s.acts) (kept_new capacity hs hkind) fun hi ha hst => ?_
  exact hi.taken (hle _ _ ha) (step_taken hst).2

/-- A freed page stays freed until `AllocatePage` hands it out. -/
theorem Moves.freed {a a' : Activity} {sh' : Shared} {p : PageId} (hm : Moves cfg acts sh a sh' a') (hp : p ∈ sh.freed) :
    p ∈ sh'.freed ∨ ∃ f, a' = .stamp f p := by
  cases hm.books with
  | same _ _ hfreed => exact .inl (hfreed ▸ hp)
  | read _ _ hfreed => exact .inl (hfreed ▸ hp)
  | write _ _ _ hfreed => exact .inl (hfreed ▸ hp)
  | @allocated f q _ _ hfreed _ ha' =>
    by_cases hpq : p = q
    · exact .inr ⟨f, hpq ▸ ha'⟩
    · exact .inl (hfreed ▸ List.mem_filter.mpr ⟨hp, decide_eq_true hpq⟩)
  | unallocated _ _ hfreed => exact .inl (hfreed ▸ hp)
  | inserted _ _ hfreed => exact .inl (hfreed ▸ hp)
  | deallocated _ _ hfreed => exact .inl (hfreed ▸ .tail _ hp)
  | notDeallocated _ _ hfreed => exact .inl (hfreed ▸ hp)

/-- The header of page `p` on disk is FREE. -/
def FreeOnDisk (s : Shared) (p : PageId) : Prop := (s.disk.file p).header.pageType = .free

theorem freed_pages_are_left_alone {disk : DiskManager} {kind : PageType} {capacity : Nat} {owned : List PageId}
    (hs : Sound kind disk {p | p ∈ owned}) (hkind : kind ≠ .free)
    (h : Reaches (step cfg) OwnersDelete (System.new disk capacity owned) s) :
    (∀ f p next, .writePage f p next ∈ s.acts → ¬FreeOnDisk s.shared p) ∧
    (∀ f, (s.shared.frames f).state = .resident → ¬FreeOnDisk s.shared (s.shared.frames f).pageId) ∧
    (∀ p ∈ s.shared.freed, FreeOnDisk s.shared p ∧ ∀ latch f, .guard p latch f ∉ s.acts) ∧
    ∀ c s' p, step cfg s c = some s' → p ∈ s.shared.freed →
      p ∈ s'.shared.freed ∨ ∃ i f, c = .run i ∧ s'.acts[i]? = some (.stamp f p) := by
  have hk := kept_reaches (fun _ _ ha => ha) hs hkind h
  have hres : ∀ f, (s.shared.frames f).state = .resident → ¬FreeOnDisk s.shared (s.shared.frames f).pageId :=
    fun f hf => (hk.ledger.live _ (.inl ⟨f, hf, rfl⟩)).inUse
  refine ⟨fun f p next hw => (hk.ledger.writing hk.inv hk.bytes hw).1.inUse, hres, fun p hp => ?_, fun c s' p hst hp => ?_⟩
  · have hfree := (hk.ledger.freed p hp).2.2
    refine ⟨hfree, fun latch f hg => ?_⟩
    obtain ⟨hs, hpage, -⟩ : Holds s.shared f (.pinned p) := (hk.inv f).holds _ hg _ (Activity.stakeOn_same rfl)
    exact hres f hs (hpage ▸ hfree)
  · cases (step_taken hst).2 with
    | call c hshared _ => exact .inl (hshared ▸ hp)
    | @run i a a' rest _ hi' _ _ hm =>
      refine (hm.freed hp).imp id fun ha' => ?_
      obtain ⟨f, rfl⟩ := ha'
      exact ⟨i, f, rfl, hi'⟩
    | edit _ _ hshared => exact .inl (hshared ▸ hp)

/-- A new file is sound, with no page in use. -/
theorem openedNew {d : DiskManager} (h : open_ cfg.disk missing = some (.ok (), d)) :
    Sound .catalog d {p | p ∈ ([] : List PageId)} :=
  (wp_ok (wp_openNew (d := missing) rfl) h).1.subset fun _ hp => nomatch hp

instance (s : System) (c : Choice) : Decidable (OwnersDelete s c) := by
  unfold OwnersDelete
  split <;> infer_instance

/-- A page is created and deleted; then somebody fetches its stale id. -/
def staleFetch : List Choice :=
  .call .newPage :: List.replicate 9 (.run 0) ++ .call (.deletePage 2) :: List.replicate 4 (.run 1) ++
    .call (.fetchPage .write 2) :: List.replicate 4 (.run 2)

theorem freed_pages_are_left_alone_demo : ∃ d s, open_ quietDisk.disk missing = some (.ok (), d) ∧
    Reaches (step quietDisk) OwnersDelete (System.new d 1 []) s ∧ s.acts[2]? = some (.abandonErase 2 0) ∧
    FreeOnDisk s.shared 2 ∧ ∀ c s', step quietDisk s c = some s' →
      2 ∈ s'.shared.freed ∨ ∃ i f, c = .run i ∧ s'.acts[i]? = some (.stamp f 2) := by
  have hrun : endsIn quietDisk OwnersDelete 1 staleFetch
      (fun s => s.acts[2]? = some (.abandonErase 2 0) ∧ 2 ∈ s.shared.freed) = true := by decide +kernel
  obtain ⟨d, s, hopen, hreach, hgood⟩ := of_endsIn hrun
  obtain ⟨hact, hfreed⟩ := of_decide_eq_true hgood
  have hs := openedNew hopen
  obtain ⟨-, -, hleft, hstay⟩ := freed_pages_are_left_alone hs (by decide) hreach
  exact ⟨d, s, hopen, hreach, hact, (hleft 2 hfreed).1, fun c s' hst => hstay c s' 2 hst hfreed⟩

end Runs

/-! When `NewPage` publishes. -/

section Publish
variable {cfg : PoolConfig} {acts rest : List Activity} {s s' : Shared} {a a' : Activity} {p : PageId}

/-- An id that `AllocatePage` will not hand out. -/
def Allocated (d : DiskManager) (p : PageId) : Prop := p < 2 ∨ p < d.pageCount ∧ (d.file p).header.pageType ≠ .free

/-- Owners delete, and a miss publishes its mapping only for an id that is allocated, and that is not a page some
`NewPage` still has to publish. -/
def FetchesAllocated (s : System) : Choice → Prop
  | .run i => match s.acts[i]? with
    | some (.acquired (.fetch p _) _) =>
      s.shared.table p = none → Allocated s.shared.disk p ∧ ∀ a ∈ s.acts, a.creates ≠ some p
    | _ => True
  | c => OwnersDelete s c

/-- Mapped pages are allocated and published, and nothing has been aborted. -/
structure Published (s : Shared) (acts : List Activity) : Prop where
  mapped : ∀ p f, s.table p = some f → Allocated s.disk p ∧ ∀ a ∈ acts, a.creates ≠ some p
  running : s.aborted = false

theorem OnDisk.allocated {d : DiskManager} (h : OnDisk d p) : Allocated d p := .inr ⟨h.inside, h.inUse⟩

theorem Allocated.of_file {d d' : DiskManager} (h : Allocated d p) (hfile : 2 ≤ p → p < d.pageCount → d'.file p = d.file p)
    (hcount : d.pageCount ≤ d'.pageCount) : Allocated d' p := by
  by_cases hp : p < 2
  · exact .inl hp
  · obtain ⟨hlt, hfree⟩ := h.resolve_left hp
    exact .inr ⟨PageId.lt_of_lt_of_le hlt hcount, by rw [hfile (Int32.not_lt.mp hp) hlt]; exact hfree⟩

/-- A mapping is as old as the step, or published by it. -/
theorem Moves.mapping {f : Nat} (hm : Moves cfg acts s a s' a') (hp : s'.table p = some f) : s.table p = some f ∨
    (∃ latch g, a = .acquired (.fetch p latch) g ∧ s.table p = none ∧ a'.creates = none ∧ s'.disk = s.disk) ∨
    ∃ g, a = .insert g p ∧ a'.creates = none ∧ s'.disk = s.disk := by
  have herase : ∀ {q}, Function.update s.table q none p = some f → s.table p = some f := by
    intro q hq
    by_cases hpq : p = q
    · rw [hpq, Function.update_self] at hq
      cases hq
    · rwa [Function.update_of_ne hpq] at hq
  cases hm with
  | unpinned =>
    rw [unpinPage_table] at hp
    exact .inl hp
  | reclaimed => exact .inl (herase hp)
  | retaken => exact .inl (herase hp)
  | erased => exact .inl (herase hp)
  | deleteVacated => exact .inl (herase hp)
  | @mapped q latch g _ hmap =>
    by_cases hpq : p = q
    · subst hpq
      exact .inr (.inl ⟨latch, g, rfl, hmap, rfl, rfl⟩)
    · exact .inl ((Function.update_of_ne hpq _ _).symm.trans hp)
  | @inserted g q _ hmap =>
    by_cases hpq : p = q
    · subst hpq
      exact .inr (.inr ⟨g, rfl, rfl, rfl⟩)
    · exact .inl ((Function.update_of_ne hpq _ _).symm.trans hp)
  | _ => exact .inl hp

/-- The disk calls leave a mapped page allocated. -/
theorem Kept.allocated_moves (h : Kept s (a :: rest)) (hm : Moves cfg acts s a s' a') {f : Nat}
    (hmap : s.table p = some f) (hp : Allocated s.disk p) : Allocated s'.disk p := by
  obtain ⟨kind, hkind, hs⟩ := h.ledger.sound
  have hsame : ∀ {d : DiskManager}, d = s.disk ∨ d = s.disk.tick → Allocated d p := by
    intro d hd
    obtain rfl | rfl := hd
    · exact hp
    · exact hp.of_file (fun _ _ => rfl) (Int32.le_refl _)
  cases hm.books with
  | same hdisk => exact hdisk ▸ hp
  | read hd => exact hsame (readPage_same hs.count_le hd)
  | @write g q next ha hd =>
    subst ha
    have hpg := (h.ledger.writing h.inv h.bytes (.head _)).2
    obtain hd | ⟨st, hd⟩ := hd
    · rw [(wp_ok wp_writePage hd).2.2.2]
      by_cases hpq : p = q
      · subst hpq
        exact hp.imp id fun hin => ⟨hin.1, by rw [setPage_same]; exact hpg⟩
      · exact hp.of_file (fun _ _ => setPage_other hpq) (Int32.le_refl _)
    · exact hsame ((wp_error wp_writePage hd).imp (·.2.2) (·.2.2))
  | @allocated g q hd =>
    obtain ⟨hg, -, -⟩ := allocatePage_ok hs hd
    refine hp.of_file (fun h2 hlt => hg.other p (PageId.of_two_le h2).1 ?_) hg.pageCount_le
    rintro rfl
    obtain hlt2 | ⟨-, hfree⟩ := hp
    · exact Int32.not_le.mpr hlt2 h2
    · exact hg.fresh.elim (fun hle => Int32.not_le.mpr hlt hle) hfree
  | unallocated hd =>
    obtain ⟨hun, -⟩ := allocatePage_error hs hd
    refine hp.of_file (fun h2 hlt => hun.file p (PageId.of_two_le h2).1 hlt) ?_
    rw [hun.pageCount]
    exact Int32.le_refl _
  | inserted hdisk => exact hdisk ▸ hp
  | @deallocated g q hd _ _ ha =>
    subst ha
    have hpq : p ≠ q := by
      rintro rfl
      rw [h.shards _ (.head _) p rfl] at hmap
      cases hmap
    obtain ⟨-, -, hrel, -⟩ := wp_ok (wp_deallocatePage_exact hs) hd
    refine hp.of_file (fun h2 _ => hrel.other p (PageId.of_two_le h2).1 hpq) ?_
    rw [hrel.pageCount]
    exact Int32.le_refl _
  | @notDeallocated g q st hd _ _ ha =>
    subst ha
    have hpq : p ≠ q := by
      rintro rfl
      rw [h.shards _ (.head _) p rfl] at hmap
      cases hmap
    obtain ⟨-, hd'⟩ | ⟨-, hrel, -⟩ := wp_error (wp_deallocatePage_exact hs) hd
    · exact hsame (.inl hd')
    · refine hp.of_file (fun h2 _ => hrel.other p (PageId.of_two_le h2).1 hpq) ?_
      rw [hrel.pageCount]
      exact Int32.le_refl _

/-- Nobody is handed a page that is mapped. -/
theorem Kept.creates_moves (h : Kept s (a :: rest)) (hm : Moves cfg acts s a s' a') (hp : Allocated s.disk p)
    (hno : ∀ b ∈ a :: rest, b.creates ≠ some p) : ∀ b ∈ a' :: rest, b.creates ≠ some p := by
  intro b hb hbp
  cases hb with
  | tail _ hb => exact hno b (.tail _ hb) hbp
  | head =>
    cases hm.books with
    | same _ _ _ hcreates => exact hno a (.head _) (hcreates ▸ hbp)
    | read _ _ _ hcreates => exact nomatch hcreates.symm.trans hbp
    | write _ _ _ _ hcreates => exact nomatch hcreates.symm.trans hbp
    | @allocated f q hd _ _ _ ha' =>
      subst ha'
      obtain rfl : q = p := Option.some.inj hbp
      obtain ⟨kind, -, hs⟩ := h.ledger.sound
      obtain ⟨hg, -, -⟩ := allocatePage_ok hs hd
      obtain hlt | ⟨hlt, hfree⟩ := hp
      · exact Int32.not_le.mpr hlt hg.two_le
      · exact hg.fresh.elim (fun hle => Int32.not_le.mpr hlt hle) hfree
    | unallocated _ _ _ _ ha' =>
      subst ha'
      cases hbp
    | inserted _ _ _ _ ha' =>
      subst ha'
      cases hbp
    | @deallocated f q _ _ _ _ ha' =>
      subst ha'
      exact nomatch (deletePushed_ids q f).1.symm.trans hbp
    | @notDeallocated f q _ _ _ _ _ ha' =>
      subst ha'
      exact nomatch (deletePushed_ids q f).1.symm.trans hbp

theorem Moves.aborted_eq (hm : Moves cfg acts s a s' a') : s'.aborted = s.aborted ∨
    ∃ f g p, a = .insert f p ∧ s.table p = some g := by
  cases hm with
  | aborted hmap => exact .inr ⟨_, _, _, rfl, hmap⟩
  | unpinned =>
    refine .inl ?_
    unfold Shared.unpinPage
    dsimp only
    split <;> rfl
  | _ => exact .inl rfl

theorem Published.moves (h : Published s (a :: rest)) (hk : Kept s (a :: rest)) (hm : Moves cfg acts s a s' a')
    (hcond : ∀ p latch f, a = .acquired (.fetch p latch) f → s.table p = none →
      Allocated s.disk p ∧ ∀ b ∈ rest, b.creates ≠ some p) : Published s' (a' :: rest) := by
  refine ⟨fun p f hp => ?_, ?_⟩
  · obtain hold | ⟨latch, g, rfl, hmap, hcreates, hdisk⟩ | ⟨g, rfl, hcreates, hdisk⟩ := hm.mapping hp
    · obtain ⟨hal, hno⟩ := h.mapped p f hold
      exact ⟨hk.allocated_moves hm hold hal, hk.creates_moves hm hal hno⟩
    · -- A miss publishes.
      obtain ⟨hal, hno⟩ := hcond p latch g rfl hmap
      refine ⟨hdisk ▸ hal, fun b hb => ?_⟩
      cases hb with
      | head =>
        rw [hcreates]
        nofun
      | tail _ hb => exact hno b hb
    · -- `NewPage` publishes; it was the only one with this page.
      have hone := countP_rest (hk.ledger.createdOnce p) (decide_eq_true rfl)
      refine ⟨hdisk ▸ (hk.ledger.live p (.inr ⟨_, .head _, rfl⟩)).allocated, fun b hb => ?_⟩
      cases hb with
      | head =>
        rw [hcreates]
        nofun
      | tail _ hb => exact of_decide_eq_false (hone b hb)
  · obtain hsame | ⟨f, g, p, rfl, hmap⟩ := hm.aborted_eq
    · exact hsame.trans h.running
    · exact absurd rfl ((h.mapped p g hmap).2 _ (.head _))

theorem Published.perm {acts' : List Activity} (h : Published s acts) (hp : acts.Perm acts') : Published s acts' :=
  ⟨fun p f hm => ⟨(h.mapped p f hm).1, fun a ha => (h.mapped p f hm).2 a (hp.mem_iff.mpr ha)⟩, h.running⟩

theorem FetchesAllocated.ownersDelete {s : System} {c : Choice} (h : FetchesAllocated s c) : OwnersDelete s c := by
  cases c with
  | run i => trivial
  | call c => exact h
  | edit i e => exact h

theorem Published.taken {s s' : System} {c : Choice} (h : Published s.shared s.acts) (hk : Kept s.shared s.acts)
    (hc : FetchesAllocated s c) (ht : Taken cfg s s' c) : Published s'.shared s'.acts := by
  cases ht with
  | call c hshared hacts =>
    rw [hshared]
    refine .perm ⟨fun p f hp => ⟨(h.mapped p f hp).1, fun a ha => ?_⟩, h.running⟩ hacts.symm
    cases ha with
    | head =>
      rw [(ids_of_idle c.start_idle).1]
      nofun
    | tail _ ha => exact (h.mapped p f hp).2 a ha
  | @run i a a' rest hi _ hacts hacts' hm =>
    refine ((h.perm hacts).moves (hk.perm hacts) hm fun p latch f ha hmap => ?_).perm hacts'.symm
    subst ha
    simp only [FetchesAllocated, hi] at hc
    obtain ⟨hal, hno⟩ := hc hmap
    exact ⟨hal, fun b hb => hno b (hacts.mem_iff.mpr (.tail _ hb))⟩
  | edit _ hacts hshared =>
    rw [hacts, hshared]
    exact ⟨h.mapped, h.running⟩

theorem newPage_never_aborts {disk : DiskManager} {kind : PageType} {capacity : Nat} {owned : List PageId} {s : System}
    (hs : Sound kind disk {p | p ∈ owned}) (hkind : kind ≠ .free)
    (h : Reaches (step cfg) FetchesAllocated (System.new disk capacity owned) s) :
    s.shared.aborted = false ∧ ∀ f p, .insert f p ∈ s.acts → s.shared.table p = none := by
  have hboth : Kept s.shared s.acts ∧ Published s.shared s.acts := by
    refine h.invariant (I := fun s => Kept s.shared s.acts ∧ Published s.shared s.acts)
      ⟨kept_new capacity hs hkind, nofun, rfl⟩ fun hi ha hst => ?_
    have ht := (step_taken hst).2
    exact ⟨hi.1.taken ha.ownersDelete ht, hi.2.taken hi.1 ha ht⟩
  refine ⟨hboth.2.running, fun f p hmem => ?_⟩
  cases hmap : s.shared.table p with
  | none => rfl
  | some g => exact absurd rfl ((hboth.2.mapped p g hmap).2 _ hmem)

/-- `NewPage` has a frame; a fetch of the id one past the end publishes its mapping; `NewPage` is given that id. -/
def fetchedFirst : List Choice :=
  [.call .newPage, .run 0, .call (.fetchPage .read 2), .run 1, .run 1, .run 1, .run 0, .run 0, .run 0, .run 0]

theorem newPage_aborts : ∃ d s, open_ quietDisk.disk missing = some (.ok (), d) ∧
    Reaches (step quietDisk) OwnersDelete (System.new d 2 []) s ∧ s.acts[0]? = some (.insert 1 2) ∧
    s.shared.table 2 = some 0 ∧ s.shared.aborted = true := by
  have hrun : endsIn quietDisk OwnersDelete 2 fetchedFirst
      (fun s => s.acts[0]? = some (.insert 1 2) ∧ s.shared.table 2 = some 0 ∧ s.shared.aborted = true) = true := by
    decide +kernel
  obtain ⟨d, s, hopen, hreach, hgood⟩ := of_endsIn hrun
  exact ⟨d, s, hopen, hreach, of_decide_eq_true hgood⟩

instance (d : DiskManager) (p : PageId) : Decidable (Allocated d p) := inferInstanceAs (Decidable (_ ∨ _))

def fetchesAllocated (s : System) : Choice → Bool
  | .run i => match s.acts[i]? with
    | some (.acquired (.fetch p _) _) =>
      decide (s.shared.table p = none → Allocated s.shared.disk p ∧ ∀ a ∈ s.acts, a.creates ≠ some p)
    | _ => true
  | c => decide (OwnersDelete s c)

theorem fetchesAllocated_iff (s : System) (c : Choice) : fetchesAllocated s c = true ↔ FetchesAllocated s c := by
  unfold fetchesAllocated FetchesAllocated
  split
  · split
    · exact decide_eq_true_iff
    · simp
  · exact decide_eq_true_iff

instance (s : System) (c : Choice) : Decidable (FetchesAllocated s c) :=
  decidable_of_iff _ (fetchesAllocated_iff s c)

/-- `NewPage` is about to publish page 2 while the catalog root is being loaded. -/
def fetchedBeside : List Choice :=
  [.call .newPage, .run 0, .run 0, .run 0, .run 0, .call (.fetchPage .read 1), .run 1, .run 1, .run 1]

theorem newPage_never_aborts_demo : ∃ d s, open_ quietDisk.disk missing = some (.ok (), d) ∧
    Reaches (step quietDisk) FetchesAllocated (System.new d 2 []) s ∧ .insert 1 2 ∈ s.acts ∧
    s.shared.table 1 = some 0 ∧ s.shared.table 2 = none ∧ s.shared.aborted = false := by
  have hrun : endsIn quietDisk FetchesAllocated 2 fetchedBeside
      (fun s => .insert 1 2 ∈ s.acts ∧ s.shared.table 1 = some 0) = true := by decide +kernel
  obtain ⟨d, s, hopen, hreach, hgood⟩ := of_endsIn hrun
  obtain ⟨hins, hmap⟩ := of_decide_eq_true hgood
  have hs := openedNew hopen
  obtain ⟨hab, hno⟩ := newPage_never_aborts hs (by decide) hreach
  exact ⟨d, s, hopen, hreach, hins, hmap, hno 1 2 hins, hab⟩

end Publish
end KernSql.Concurrent
