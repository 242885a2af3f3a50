import KernSql.Buffer.BufferPoolSpec

/- The pool's calls, one specification each.

   A call that does not change what the pool shows leaves it `Quiet`: frames may
   have been written back or vacated on the way, the guards and the view are the
   same. Every fetch and every `NewPage` starts by acquiring a frame, and the
   one reason for the full pool's error is there: no frame is free and no frame is
   a candidate, which is to say that every frame is pinned (`AllPinned`). -/
namespace KernSql.BufferPool
open Exec DiskManager

def AllPinned (b : BufferPool) : Prop := ∀ f < b.capacity, 0 < (b.frames f).pinCount

/-- Nothing a caller could see happened; the frames `mine` are the running call's. -/
structure Quiet (typed : PageId → PageType → Prop) (b b' : BufferPool) (mine : List Nat) : Prop where
  inv : Inv typed b' mine
  view : NoFree typed → b'.view = b.view
  held : b'.held = b.held
  capacity : b'.capacity = b.capacity
  unmapped : ∀ q, b.table q = none → b'.table q = none
  offline : ∀ q, b.table q = none → b'.disk.file q = b.disk.file q
  pageCount : b'.disk.pageCount = b.disk.pageCount
  freelistHead : b'.disk.freelistHead = b.disk.freelistHead
  settled : Settled b.disk → Settled b'.disk

section Calls
variable {cfg : PoolConfig} {typed : PageId → PageType → Prop} {b b' : BufferPool} {v f : Nat} {p : PageId}

theorem Quiet.refl {mine : List Nat} (h : Inv typed b mine) : Quiet typed b b mine :=
  ⟨h, fun _ => rfl, rfl, rfl, fun _ hq => hq, fun _ _ => rfl, rfl, rfl, id⟩

theorem Quiet.trans {b'' : BufferPool} {mine mine' : List Nat} (h : Quiet typed b b' mine)
    (h' : Quiet typed b' b'' mine') : Quiet typed b b'' mine' :=
  ⟨h'.inv, fun hf => (h'.view hf).trans (h.view hf), h'.held.trans h.held, h'.capacity.trans h.capacity,
    fun q hq => h'.unmapped q (h.unmapped q hq),
    fun q hq => (h'.offline q (h.unmapped q hq)).trans (h.offline q hq), h'.pageCount.trans h.pageCount,
    h'.freelistHead.trans h.freelistHead, fun hs => h'.settled (h.settled hs)⟩

/-! Acquiring a frame. -/

/-- A candidate is a resident frame without guards. -/
theorem Inv.candidate {mine : List Nat} (h : Inv typed b mine) (hv : b.replacer.evictable v = true) :
    ∃ p, b.table p = some v ∧ b.guardsOn v = 0 := by
  have hcap : v < b.capacity := h.capacity ▸ h.counted.inside v hv
  by_cases hown : v ∈ mine ++ b.freeList
  · have := (h.vacant v hown).2.candidate
    rw [hv] at this
    cases this
  · obtain ⟨q, hq⟩ := h.frames v hcap hown
    refine ⟨q, hq.mapped, ?_⟩
    have := hq.candidate
    rw [hv] at this
    exact of_decide_eq_true this.symm

theorem Inv.not_allPinned (h : Inv typed b []) (hm : b.table p = some v) (hg : b.guardsOn v = 0) : ¬b.AllPinned := by
  intro hall
  obtain ⟨hcap, hr⟩ := h.resident hm
  have := hall v hcap
  rw [hr.pinCount, hg] at this
  exact absurd this (by decide)

/-- No free frame and no candidate: every frame is pinned. -/
theorem Inv.allPinned (h : Inv typed b []) (hfree : b.freeList = [])
    (hnone : ∀ f, b.replacer.evictable f = false) : b.AllPinned := by
  intro f hcap
  obtain ⟨q, hq⟩ := h.frames f hcap (by simp [hfree])
  have hc := hq.candidate
  rw [hnone f] at hc
  have hne : b.guardsOn f ≠ 0 := of_decide_eq_false hc.symm
  rw [hq.pinCount]
  omega

theorem removed_of_claimed {r r' : Replacer} (h : r.Claimed v r') : Removed r v r' :=
  ⟨h.evictable, h.capacity, h.counted⟩

theorem setEvictable_back {r r' : Replacer} (h : r.Claimed v r') :
    (r'.setEvictable v true).evictable = r.evictable := by
  rw [Replacer.setEvictable_evictable, h.evictable, Function.update_idem, ← h.candidate, Function.update_eq_self]

/-- Credits apart, the replacer is as it was. -/
theorem Inv.setReplacer {mine : List Nat} {r : Replacer} (h : Inv typed b mine) (hc : r.Counted)
    (hev : r.evictable = b.replacer.evictable) (hcap : r.capacity = b.replacer.capacity) :
    Inv typed { b with replacer := r } mine :=
  { h with
    counted := hc
    capacity := hcap.trans h.capacity
    vacant := fun f hf => ⟨(h.vacant f hf).1, { (h.vacant f hf).2 with
      candidate := (congrFun hev f).trans (h.vacant f hf).2.candidate }⟩
    frames := fun f hf hown => (h.frames f hf hown).imp fun q hq => { hq with
      candidate := (congrFun hev f).trans hq.candidate } }

/-- A resident frame nobody pins or writes. -/
structure Idle (b : BufferPool) (v : Nat) (p : PageId) : Prop where
  inside : v < b.capacity
  state : (b.frames v).state = .resident
  pinCount : (b.frames v).pinCount = 0
  pageId : (b.frames v).pageId = p
  mapped : b.table p = some v
  page : 1 ≤ p ∧ p < b.disk.pageCount
  writer : ¬b.writer v

theorem wp_vacate {Q : Unit → BufferPool → Prop} {E : Status → BufferPool → Prop} (hpin : (b.frames v).pinCount = 0)
    (hq : Q () (b.vacated v p b.replacer)) : wp (vacate v p) Q E b := by
  rw [vacate, wp_bind, wp_erase, wp_updateFrame]
  have hfr : ({ (b.frames v).resetEpochs with pageId := invalidPage, state := .free } : Frame) =
      { (b.frames v).resetEpochs with pageId := invalidPage, state := .free, pinCount := 0 } := by
    rw [Frame.resetEpochs, hpin]
  show Q () (BufferPool.setFrame { b with table := Function.update b.table p none } v
    { (b.frames v).resetEpochs with pageId := invalidPage, state := .free })
  rw [hfr]
  exact hq

/-- The pinned victim written back and vacated, or left as it was. -/
theorem wp_reclaimDirty {Q : Bool → BufferPool → Prop} {E : Status → BufferPool → Prop} (h : b.Idle v p)
    (hd : (b.frames v).isDirty = true) (hdone : Q true ((b.flushed v p).vacated v p b.replacer))
    (herr : ∀ st : Status, st.code = .ioError → ¬Reliable cfg.disk →
      E st { b.ticked with replacer := b.replacer.setEvictable v true }) :
    wp (reclaimDirty cfg v p) Q E (b.setFrame v { b.frames v with pinCount := (b.frames v).pinCount + 1 }) := by
  have hpinned : (b.setFrame v { b.frames v with pinCount := (b.frames v).pinCount + 1 }).frames v =
      { b.frames v with pinCount := (b.frames v).pinCount + 1 } := Function.update_self _ _ _
  rw [reclaimDirty, wp_bind, wp_attempt]
  refine wp_flushFrame h.inside h.page (fun _ => h.writer) (fun hn => ?_) (fun _ => ?_) fun st hst hrel _ => ?_
  · rw [hpinned] at hn
    exact absurd (hn.symm.trans hd) (by decide)
  · -- The frame is resident, clean, and pinned by this call alone.
    have hfl : ((b.setFrame v { b.frames v with pinCount := (b.frames v).pinCount + 1 }).flushed v p).frames v =
        { b.frames v with pinCount := (b.frames v).pinCount + 1, flushedEpoch := (b.frames v).dirtyEpoch } := by
      simp [flushed, setFrame]
    dsimp only
    have hinside : v < ((b.setFrame v { b.frames v with pinCount := (b.frames v).pinCount + 1 }).flushed v p).capacity :=
      h.inside
    have hmapped : ((b.setFrame v { b.frames v with pinCount := (b.frames v).pinCount + 1 }).flushed v p).table p =
        some v := h.mapped
    rw [wp_bind, wp_frameAt hinside, hfl, if_pos ⟨h.state, h.pageId, by simp [h.pinCount], by simp [Frame.isDirty]⟩,
      wp_bind, wp_get, wp_bind, wp_asserts hmapped, wp_bind, vacate, wp_bind, wp_erase,
      wp_updateFrame, wp_bind, wp_updateFrame, wp_pure]
    simp only [flushed, vacated, setFrame, Frame.resetEpochs, Function.update_self, Function.update_idem] at hdone ⊢
    exact hdone
  · dsimp only
    rw [wp_bind]
    refine wp_unpinPage h.inside (by simp [ticked, setFrame, h.pinCount]) ?_
    have hfr : ({ b.frames v with pinCount := (b.frames v).pinCount + 1 - 1 } : Frame) = b.frames v := by
      rw [Int.add_sub_cancel]
    have hlast : (b.frames v).pinCount + 1 = 1 ∧ (b.frames v).state = .resident := ⟨by rw [h.pinCount]; rfl, h.state⟩
    simp only [ticked, setFrame, Function.update_self, Function.update_idem, hfr, Function.update_eq_self, wp_fail,
      if_pos hlast]
    exact herr st hst hrel

/-- A victim is vacated, after its bytes are on disk; if they cannot be written it stays. -/
theorem wp_reclaimVictim {Q : Bool → BufferPool → Prop} {E : Status → BufferPool → Prop} (h : b.Idle v p)
    (hclean : (b.frames v).isDirty = false → Q true (b.vacated v p b.replacer))
    (hdirty : (b.frames v).isDirty = true → Q true ((b.flushed v p).vacated v p b.replacer))
    (herr : ∀ st : Status, st.code = .ioError → ¬Reliable cfg.disk →
      E st { b.ticked with replacer := b.replacer.setEvictable v true }) : wp (reclaimVictim cfg v) Q E b := by
  have hgood : ¬((b.frames v).state ≠ .resident ∨ (b.frames v).pinCount ≠ 0) := by
    simp [h.state, h.pinCount]
  have hgood' : ¬((b.frames v).state ≠ .resident ∨ (b.frames v).pinCount ≠ 0 ∨
      (b.frames v).pageId ≠ (b.frames v).pageId) := by
    simp [h.state, h.pinCount]
  rw [reclaimVictim, wp_bind, wp_frameAt h.inside, if_neg hgood]
  dsimp only
  rw [wp_bind, wp_frameAt h.inside, if_neg hgood', wp_bind, wp_get, wp_bind, h.pageId, wp_asserts h.mapped, wp_ite]
  constructor
  · intro hd
    rw [wp_bind]
    exact wp_vacate h.pinCount (hclean hd)
  · intro hd
    have hd' : (b.frames v).isDirty = true := by simpa using hd
    rw [wp_bind, wp_updateFrame]
    exact wp_reclaimDirty h hd' (hdirty hd') herr

theorem settled_setPage {d : DiskManager} {pg : Page} (hp : 1 ≤ p) (h : Settled d) : Settled (d.tick.setPage p pg) := by
  refine ⟨?_, h.2⟩
  rw [persistedHead, setPage_other (Ne.symm (one_le_iff.mp hp).1)]
  exact h.1

theorem Inv.quiet_flushed {mine : List Nat} (h : Inv typed b mine) (hm : b.table p = some v) :
    Quiet typed b (b.flushed v p) mine := by
  refine ⟨h.flushed hm, fun _ => Inv.view_flushed hm, rfl, rfl, fun _ hq => hq, fun q hq => setPage_other ?_, rfl, rfl,
    settled_setPage (h.resident hm).2.inside.1⟩
  rintro rfl
  rw [hm] at hq
  cases hq

theorem Inv.quiet_ticked {mine : List Nat} (h : Inv typed b mine) : Quiet typed b b.ticked mine :=
  ⟨h.ticked, fun _ => view_ticked, rfl, rfl, fun _ hq => hq, fun _ _ => rfl, rfl, rfl, id⟩

theorem Inv.quiet_vacated {mine : List Nat} {r : Replacer} (h : Inv typed b mine) (hm : b.table p = some v)
    (hg : b.guardsOn v = 0) (hr : Removed b.replacer v r) (hclean : (b.frames v).isDirty = false) :
    Quiet typed b (b.vacated v p r) (v :: mine) := by
  refine ⟨h.vacated hm hg hr, fun hf => h.view_vacated hm hg hclean hf, rfl, rfl, fun q hq => ?_, fun _ _ => rfl, rfl,
    rfl, id⟩
  show Function.update b.table p none q = none
  by_cases hqp : q = p
  · rw [hqp, Function.update_self]
  · rw [Function.update_of_ne hqp, hq]

theorem isDirty_flushed : ((b.flushed v p).frames v).isDirty = false := by
  simp [flushed, Frame.isDirty]

theorem Inv.idle {mine : List Nat} {r : Replacer} (h : Inv typed b mine) (hm : b.table p = some v)
    (hg : b.guardsOn v = 0) : Idle { b with replacer := r } v p := by
  obtain ⟨hcap, hr⟩ := h.resident hm
  exact ⟨hcap, hr.state, by rw [hr.pinCount, hg]; rfl, hr.pageId, hm, hr.inside, not_writer hg⟩

/-- Why a call that needs a frame found none. -/
def Exhausted (cfg : PoolConfig) (typed : PageId → PageType → Prop) (b : BufferPool) (e : Status)
    (b' : BufferPool) : Prop :=
  (e.code = .bufferPoolFull ∧ b.AllPinned ∧ b' = b) ∨
    (e.code = .ioError ∧ ¬Reliable cfg.disk ∧ ¬b.AllPinned ∧ Quiet typed b b' [])

theorem wp_acquireFrame (h : Inv typed b []) :
    wp (acquireFrame cfg) (fun f b' => Quiet typed b b' [f] ∧ ¬b.AllPinned) (Exhausted cfg typed b) b := by
  rw [acquireFrame, wp_bind]
  refine wp_tryPop (fun hnil => ?_) fun f rest hcons => ?_
  · dsimp only
    rw [reclaimFrame, wp_bind]
    refine wp_evict h.counted (fun hnone => .inl ⟨rfl, h.allPinned hnil hnone, rfl⟩) fun v r hcl => ?_
    obtain ⟨p, hm, hg⟩ := h.candidate hcl.candidate
    have hnot := h.not_allPinned hm hg
    have hrem := removed_of_claimed hcl
    dsimp only
    rw [wp_bind]
    refine wp_reclaimVictim (h.idle hm hg) (fun hd => ?_) (fun _ => ?_) fun st hst hrel => ?_
    · rw [if_pos rfl]
      exact ⟨h.quiet_vacated hm hg hrem hd, hnot⟩
    · rw [if_pos rfl]
      exact ⟨(h.quiet_flushed hm).trans ((h.flushed hm).quiet_vacated hm hg hrem isDirty_flushed), hnot⟩
    · -- The victim could not be written: it is a candidate again.
      refine .inr ⟨hst, hrel, hnot, ?_⟩
      have hcap : v < r.capacity := hcl.capacity.symm ▸ h.counted.inside v hcl.candidate
      have hq := h.quiet_ticked
      exact { hq with
        inv := h.ticked.setReplacer (hcl.counted.setEvictable hcap true) (setEvictable_back hcl)
          ((Replacer.setEvictable_capacity true).trans hcl.capacity) }
  · dsimp only
    have hvac := h.vacant f (by simp [hcons])
    refine ⟨⟨h.pop hcons, fun _ => rfl, rfl, rfl, fun _ hq => hq, fun _ _ => rfl, rfl, rfl, id⟩, fun hall => ?_⟩
    have := hall f hvac.1
    rw [hvac.2.pinCount] at this
    exact absurd this (by decide)

/-! Fetching. -/

theorem Inv.quiet_push {mine : List Nat} (h : Inv typed b (f :: mine)) :
    Quiet typed b { b with freeList := f :: b.freeList } mine :=
  ⟨h.push, fun _ => rfl, rfl, rfl, fun _ hq => hq, fun _ _ => rfl, rfl, rfl, id⟩

theorem view_setData {mine : List Nat} {pg : Page} (h : Inv typed b (f :: mine)) :
    (b.setFrame f { b.frames f with data := pg }).view = b.view := by
  funext q
  cases ht : b.table q with
  | none => rw [view_unmapped ht, view_unmapped (b := b.setFrame f _) ht]; rfl
  | some g =>
    have hgf : g ≠ f := fun he => (h.table _ _ (he ▸ ht)).2.1 (by simp)
    rw [view_mapped ht, view_mapped (b := b.setFrame f _) ht]
    show some (Function.update b.frames f _ g).data = _
    rw [Function.update_of_ne hgf]

theorem Inv.quiet_setData {mine : List Nat} (h : Inv typed b (f :: mine)) (pg : Page) :
    Quiet typed b (b.setFrame f { b.frames f with data := pg }) (f :: mine) :=
  ⟨h.setData pg, fun _ => view_setData h, rfl, rfl, fun _ hq => hq, fun _ _ => rfl, rfl, rfl, id⟩

/-- The frame a load works on, from the publication of its mapping on. -/
def loading (b : BufferPool) (f : Nat) (p : PageId) : BufferPool :=
  { b with
    table := Function.update b.table p (some f)
    frames := Function.update b.frames f
      { (b.frames f).resetEpochs with pageId := p, state := .loading, pinCount := 1 } }

/-- The debug build's assertion in `AbandonLoad`: ids below the invalid one reach it. -/
def Askable (cfg : PoolConfig) (p : PageId) : Prop := cfg.debug = true → -1 ≤ p

theorem Askable.one_le (h : Askable cfg p) (hp : p ≠ metaPageId ∧ p ≠ invalidPage) : cfg.debug = true → 1 ≤ p := by
  intro hd
  have hlow := h hd
  have e0 : p.toInt ≠ 0 := fun he => hp.1 (Int32.toInt_inj.mp (he.trans (by decide)))
  have e1 : p.toInt ≠ -1 := fun he => hp.2 (Int32.toInt_inj.mp (he.trans (by decide)))
  have h1 : (1 : PageId).toInt = 1 := by decide
  have hn : (-1 : PageId).toInt = -1 := by decide
  rw [Int32.le_iff_toInt_le] at hlow ⊢
  omega

theorem Vacant.eq {fr : Frame} (hs : fr.state = .free) (hid : fr.pageId = invalidPage) (hp : fr.pinCount = 0)
    (hd : fr.dirtyEpoch = 0) (hf : fr.flushedEpoch = 0) (pg : Page) :
    ({ fr with data := pg } : Frame) = ⟨pg, .free, invalidPage, 0, 0, 0⟩ := by
  rw [← hs, ← hid, ← hp]
  simp [hd, hf]

theorem wp_abandonLoad {Q : Unit → BufferPool → Prop} {E : Status → BufferPool → Prop} {pg : Page}
    (hf : f < b.capacity) (hfr : b.frames f = ⟨pg, .loading, p, 1, 0, 0⟩) (hp : cfg.debug = true → 1 ≤ p)
    (hq : Q () { b with
      table := Function.update b.table p none
      frames := Function.update b.frames f ⟨pg, .free, invalidPage, 0, 0, 0⟩
      freeList := f :: b.freeList }) : wp (abandonLoad cfg f p) Q E b := by
  have hfail : (({ b with table := Function.update b.table p none } : BufferPool).setFrame f
      { b.frames f with state := .failed }).frames f = ⟨pg, .failed, p, 1, 0, 0⟩ := by
    rw [hfr]
    exact Function.update_self _ _ _
  rw [abandonLoad, wp_bind, wp_erase, wp_bind, wp_updateFrame, wp_bind,
    wp_frameAt (b := ({ b with table := Function.update b.table p none } : BufferPool).setFrame f
      { b.frames f with state := .failed }) hf, hfail, wp_bind, asserts, wp_check]
  refine ⟨hp, ?_⟩
  rw [wp_bind, wp_check]
  refine ⟨rfl, ?_⟩
  rw [wp_bind, wp_updateFrame, wp_push, hfail]
  simp only [setFrame, Function.update_idem, Frame.resetEpochs]
  exact hq

/-- A failed load leaves the frame on the free list and the page table as it was. -/
theorem wp_abandon {Q : Unit → BufferPool → Prop} {E : Status → BufferPool → Prop} {d : DiskManager} {pg : Page}
    (h : Inv typed b [f]) (hnone : b.table p = none) (hp : cfg.debug = true → 1 ≤ p)
    (hq : Q () (BufferPool.setFrame { b with disk := d, freeList := f :: b.freeList } f { b.frames f with data := pg })) :
    wp (abandonLoad cfg f p) Q E
      (BufferPool.setFrame { b.loading f p with disk := d } f ⟨pg, .loading, p, 1, 0, 0⟩) := by
  obtain ⟨hcap, hvac⟩ := h.vacant f (by simp)
  refine wp_abandonLoad hcap (Function.update_self _ _ _) hp ?_
  have htab : Function.update (Function.update b.table p (some f)) p none = b.table := by
    rw [Function.update_idem, ← hnone, Function.update_eq_self]
  rw [Vacant.eq hvac.state hvac.pageId hvac.pinCount hvac.dirtyEpoch hvac.flushedEpoch] at hq
  simp only [setFrame, loading, Function.update_idem, htab] at hq ⊢
  exact hq

/-- How a load fails: a page that is not there, or a disk that does not answer. -/
theorem wp_load (h : Inv typed b [f]) (hnone : b.table p = none) (hp : cfg.debug = true → 1 ≤ p) :
    wp (load cfg f p)
      (fun f' b' => f' = f ∧ (1 ≤ p ∧ p < b.disk.pageCount) ∧ (b.disk.file p).header.pageType ≠ .free ∧
        (b.disk.file p).header.pageId = p ∧
        b' = { b.ticked.published f p (b.disk.file p) .read with held := b.held })
      (fun e b' => (e.code = .invalidArgument ∨ e.code = .corruption ∨ e.code = .ioError) ∧ Quiet typed b b' [] ∧
        f ∈ b'.freeList ∧ (¬Reliable cfg.disk ∨ onDiskView b.disk p = none)) b := by
  obtain ⟨hcap, hvac⟩ := h.vacant f (by simp)
  obtain ⟨-, hle⟩ := h.two_le_count
  have hstart : b.loading f p = (b.loading f p).setFrame f ⟨(b.frames f).data, .loading, p, 1, 0, 0⟩ := by
    unfold loading setFrame
    simp only [Function.update_idem, Frame.resetEpochs]
  have hquiet : ∀ pg, Quiet typed b (BufferPool.setFrame
      { b with disk := b.disk.tick, freeList := f :: b.freeList } f { b.frames f with data := pg }) [] := fun pg =>
    (h.quiet_ticked.trans (h.ticked.quiet_setData pg)).trans (h.ticked.setData pg).quiet_push
  have hsame : Quiet typed b (BufferPool.setFrame
      { b with freeList := f :: b.freeList } f { b.frames f with data := (b.frames f).data }) [] := by
    have := h.quiet_push
    unfold setFrame
    rw [Function.update_eq_self]
    exact this
  rw [load, wp_bind, wp_modify, wp_bind, wp_updateFrame, wp_bind, wp_attempt]
  show wp (onDisk (readPage cfg.disk p)) _ _ (b.loading f p)
  refine wp_onDisk (wp_readPage hle) (fun pg d hd => ?_) fun st d hd => ?_
  · obtain ⟨hmeta, h0, hcount, rfl, rfl⟩ := hd
    have hread : ({ b.loading f p with disk := b.disk.tick } : BufferPool).setFrame f
        { (b.loading f p).frames f with data := b.disk.file p } =
        ({ b.loading f p with disk := b.disk.tick } : BufferPool).setFrame f
          ⟨b.disk.file p, .loading, p, 1, 0, 0⟩ := by
      simp [loading, Frame.resetEpochs]
    dsimp only
    rw [wp_bind, wp_updateFrame, wp_ite]
    refine ⟨fun hbad => ?_, fun hgood => ?_⟩
    · rw [wp_bind]
      have hview : onDiskView b.disk p = none := by
        rw [onDiskView, if_neg fun hn => hbad.elim hn.2.2.1 fun he => he hn.2.2.2]
      have hcode : (badPage p (b.disk.file p).header).code = .invalidArgument ∨
          (badPage p (b.disk.file p).header).code = .corruption ∨
          (badPage p (b.disk.file p).header).code = .ioError := by
        unfold badPage
        dsimp only
        split <;> simp
      show wp (abandonLoad cfg f p) _ _ (({ b.loading f p with disk := b.disk.tick } : BufferPool).setFrame f
        { (b.loading f p).frames f with data := b.disk.file p })
      rw [hread]
      exact wp_abandon h hnone hp ⟨hcode, hquiet _, List.mem_cons_self, .inr hview⟩
    · rw [not_or, not_not] at hgood
      rw [wp_bind, wp_updateFrame, wp_bind, wp_recordAccess, wp_pure]
      refine ⟨rfl, ⟨one_le_iff.mpr ⟨hmeta, h0⟩, hcount⟩, hgood.1, hgood.2, ?_⟩
      simp [loading, published, ticked, setFrame, Frame.resetEpochs]
  · cases hd with
    | inl hd =>
      obtain ⟨hcode, hinv, rfl⟩ := hd
      have hview : onDiskView b.disk p = none := by
        rw [onDiskView, if_neg fun hn => hinv ⟨(one_le_iff.mp hn.1).1, (one_le_iff.mp hn.1).2, hn.2.1⟩]
      dsimp only
      rw [wp_bind]
      show wp (abandonLoad cfg f p) _ _ (b.loading f p)
      rw [hstart]
      exact wp_abandon (d := b.disk) h hnone hp ⟨.inl hcode, hsame, List.mem_cons_self, .inr hview⟩
    | inr hd =>
      obtain ⟨hrel, hcode, rfl⟩ := hd
      dsimp only
      rw [wp_bind]
      have hstart' : ({ b.loading f p with disk := b.disk.tick } : BufferPool) =
          ({ b.loading f p with disk := b.disk.tick } : BufferPool).setFrame f
            ⟨(b.frames f).data, .loading, p, 1, 0, 0⟩ := by
        unfold loading setFrame
        simp only [Function.update_idem, Frame.resetEpochs]
      show wp (abandonLoad cfg f p) _ _ ({ b.loading f p with disk := b.disk.tick } : BufferPool)
      rw [hstart']
      exact wp_abandon h hnone hp ⟨.inr (.inr hcode), hquiet _, List.mem_cons_self, .inl hrel⟩

theorem wp_hit {Q : Nat → BufferPool → Prop} {E : Status → BufferPool → Prop} (h : Inv typed b [])
    (hm : b.table p = some f) (hq : Q f { b.joined f p .read with held := b.held }) : wp (hit cfg f) Q E b := by
  obtain ⟨hcap, hr⟩ := h.resident hm
  have hstate : ¬(b.frames f).state = .failed := by
    rw [hr.state]
    decide
  have hloaded : (b.frames f).state ≠ .loading := by
    rw [hr.state]
    decide
  rw [hit, wp_bind, wp_frameAt hcap, wp_bind, wp_updateFrame, wp_bind, wp_check]
  refine ⟨hloaded, ?_⟩
  rw [wp_bind, wp_asserts (.inl hr.state), if_neg hstate, wp_bind, wp_recordAccess, wp_ite]
  refine ⟨fun h0 => ?_, fun h0 => ?_⟩
  · rw [wp_bind, wp_setEvictable, wp_pure]
    simp only [joined, if_pos h0] at hq
    exact hq
  · rw [wp_pure]
    simp only [joined, if_neg h0] at hq
    exact hq

/-- A guard granted on a page that was there already. -/
structure Fetched (typed : PageId → PageType → Prop) (b b' : BufferPool) (g : Held) : Prop where
  inv : Inv typed b' []
  held : b'.held = g :: b.held
  view : NoFree typed → b'.view = b.view
  capacity : b'.capacity = b.capacity
  pageCount : b'.disk.pageCount = b.disk.pageCount
  freelistHead : b'.disk.freelistHead = b.disk.freelistHead
  settled : Settled b.disk → Settled b'.disk

/-- A page of the file that is not stamped FREE is not on the freelist. -/
theorem Inv.sound_use {mine : List Nat} (h : Inv typed b mine) (hin : 1 ≤ p ∧ p < b.disk.pageCount)
    (hfree : (b.disk.file p).header.pageType ≠ .free) :
    ∃ kind, Sound kind b.disk {q | 2 ≤ q ∧ (q = p ∨ b.table q ≠ none)} := by
  obtain ⟨kind, hs⟩ := h.disk
  by_cases h2 : 2 ≤ p
  · refine ⟨kind, (hs.use h2 hin.2 hfree).subset fun q hq => ?_⟩
    obtain ⟨hq2, rfl | hq⟩ := hq
    · exact Set.mem_insert _ _
    · exact Set.mem_insert_of_mem _ ⟨hq2, hq⟩
  · refine ⟨kind, hs.subset fun q hq => ?_⟩
    obtain ⟨hq2, rfl | hq⟩ := hq
    · exact absurd hq2 h2
    · exact ⟨hq2, hq⟩

/-- A page read from the file into a frame of the running call. -/
theorem Inv.loaded {latch : Latch} (h : Inv typed b [f]) (ht : Typing typed) (hnone : b.table p = none)
    (hin : 1 ≤ p ∧ p < b.disk.pageCount) (hfree : (b.disk.file p).header.pageType ≠ .free)
    (hid : (b.disk.file p).header.pageId = p) :
    Fetched typed b (b.ticked.published f p (b.disk.file p) latch) ⟨f, p, latch⟩ := by
  have htyped : typed p (b.disk.file p).header.pageType := by
    by_cases hcat : p = catalogRootPageId
    · exact hcat ▸ h.catalog
    · exact ht p _ (PageId.two_le (one_le_iff.mp hin.1).2 (one_le_iff.mp hin.1).1 hcat) hfree
  obtain ⟨kind, hs⟩ := h.sound_use hin hfree
  refine ⟨h.ticked.published hnone hin hid htyped ⟨kind, hs.tick⟩ (.inr rfl), rfl, fun _ => ?_, rfl, rfl, rfl, id⟩
  have hshown : b.view p = some (b.disk.file p) := by
    rw [view_unmapped hnone, onDiskView, if_pos ⟨hin.1, hin.2, hfree, hid⟩]
  rw [view_published h.ticked hnone, view_ticked, ← hshown, Function.update_eq_self]

/-- Why a fetch of page `p` fails, and that it leaves no trace. -/
structure NotFetched (cfg : PoolConfig) (typed : PageId → PageType → Prop) (b : BufferPool) (p : PageId) (e : Status)
    (b' : BufferPool) : Prop where
  quiet : Quiet typed b b' []
  full : e.code = .bufferPoolFull → b.table p = none ∧ b.AllPinned ∧ b' = b
  pinned : b.table p = none → 1 ≤ p → b.AllPinned → e.code = .bufferPoolFull
  absent : Reliable cfg.disk → NoFree typed → e.code ≠ .bufferPoolFull → b.view p = none

/-- A fetch of page `p` that failed and gave back the frame it had taken. -/
structure GaveBack (cfg : PoolConfig) (typed : PageId → PageType → Prop) (b : BufferPool) (p : PageId) (e : Status)
    (b' : BufferPool) : Prop extends NotFetched cfg typed b p e b' where
  code : e.code = .invalidArgument ∨ e.code = .corruption ∨ e.code = .ioError ∨ e.code = .bufferPoolFull
  missed : b.table p = none
  returned : p ≠ metaPageId → p ≠ invalidPage → ∀ f b₁, acquireFrame cfg b = some (.ok f, b₁) → f ∈ b'.freeList

theorem wp_fetchLoop {n : Nat} (latch : Latch) (h : Inv typed b []) (ht : Typing typed)
    (hp : p ≠ metaPageId ∧ p ≠ invalidPage)
    (hask : (∃ f b₁, acquireFrame cfg b = some (.ok f, b₁)) → Askable cfg p) :
    wp (fetchLoop cfg p (n + 1))
      (fun f b' => Fetched typed b { b' with held := ⟨f, p, latch⟩ :: b'.held } ⟨f, p, latch⟩ ∧
        (b.table p = none → b'.guardsOn f = 0 ∧ ¬b.AllPinned) ∧ (∀ f', b.table p = some f' → f = f') ∧
        b'.held = b.held)
      (GaveBack cfg typed b p) b := by
  rw [fetchLoop, wp_bind, wp_get]
  cases hm : b.table p with
  | some f =>
    dsimp only
    have hjoin : Fetched typed b (b.joined f p latch) ⟨f, p, latch⟩ :=
      ⟨h.joined hm, rfl, fun _ => view_joined, rfl, rfl, rfl, id⟩
    exact wp_hit h hm ⟨hjoin, nofun, fun f' hf' => Option.some.inj hf', rfl⟩
  | none =>
    dsimp only
    rw [wp_bind]
    have hacquire : wp (acquireFrame cfg) _ _ b := wp_acquireFrame h
    obtain ⟨f, b₁, hrun, hq, hnot⟩ | ⟨e, b₁, hrun, he⟩ := wp_run hacquire
    · have hm₁ := hq.unmapped p hm
      refine wp_of_ok hrun ?_
      rw [wp_bind, wp_get, hm₁]
      refine wp_mono (wp_load hq.inv hm₁ ((hask ⟨f, b₁, hrun⟩).one_le hp)) (fun f' b' hl => ?_) fun e b' he => ?_
      · obtain ⟨rfl, hin, hfree, hid, rfl⟩ := hl
        have hfetch : Fetched typed b₁ (b₁.ticked.published f' p (b₁.disk.file p) latch) ⟨f', p, latch⟩ :=
          hq.inv.loaded ht hm₁ hin hfree hid
        refine ⟨⟨hfetch.inv, hfetch.held.trans (by rw [hq.held]), fun hf => (hfetch.view hf).trans (hq.view hf),
          hfetch.capacity.trans hq.capacity, hfetch.pageCount.trans hq.pageCount, hfetch.freelistHead.trans hq.freelistHead,
          fun hs => hfetch.settled (hq.settled hs)⟩, fun _ => ⟨?_, hnot⟩, nofun, hq.held⟩
        exact (hq.inv.vacant f' (by simp)).2.guards
      · obtain ⟨hcode, hquiet, hback, hwhy⟩ := he
        have hnotFull : e.code ≠ .bufferPoolFull := by
          intro hfull
          rw [hfull] at hcode
          simp at hcode
        refine ⟨⟨hq.trans hquiet, fun hf => absurd hf hnotFull, fun _ _ hall => absurd hall hnot, fun hrel hf _ => ?_⟩,
          ?_, hm, fun _ _ f' b₂ hrun' => ?_⟩
        · rw [← hq.view hf, view_unmapped hm₁]
          exact hwhy.resolve_left fun hn => hn hrel
        · exact hcode.imp_right (·.imp_right .inl)
        · rw [hrun] at hrun'
          cases hrun'
          exact hback
    · refine wp_of_error hrun ?_
      have hnone : ∀ f b₂, acquireFrame cfg b ≠ some (.ok f, b₂) := by
        intro f b₂ hok
        rw [hrun] at hok
        cases hok
      cases he with
      | inl he =>
        obtain ⟨hcode, hall, rfl⟩ := he
        exact ⟨⟨.refl h, fun _ => ⟨hm, hall, rfl⟩, fun _ _ _ => hcode, fun _ _ hn => absurd hcode hn⟩,
          .inr (.inr (.inr hcode)), hm, fun _ _ f b₂ hok => absurd hok (hnone f b₂)⟩
      | inr he =>
        obtain ⟨hcode, hrel, hnot, hquiet⟩ := he
        refine ⟨⟨hquiet, fun hf => ?_, fun _ _ hall => absurd hall hnot, fun hr => absurd hr hrel⟩,
          .inr (.inr (.inl hcode)), hm, fun _ _ f b₂ hok => absurd hok (hnone f b₂)⟩
        rw [hcode] at hf
        cases hf

/-- A fetch that would not wait for a latch of its own thread. -/
def Fetchable (b : BufferPool) (latch : Latch) (p : PageId) : Prop :=
  ∀ f, b.table p = some f → b.blocks latch f = false

/-- A fetch of any id, as long as no frame is taken for one that the debug build asserts away. -/
theorem wp_fetchPage_gaveBack {latch : Latch} (h : Inv typed b []) (ht : Typing typed)
    (hask : (∃ f b₁, acquireFrame cfg b = some (.ok f, b₁)) → Askable cfg p) (hfetch : b.Fetchable latch p) :
    wp (fetchPage cfg latch p)
      (fun g b' => Fetched typed b b' g ∧ g.page = p ∧ g.latch = latch ∧ (b.table p = none → ¬b.AllPinned))
      (GaveBack cfg typed b p) b := by
  rw [fetchPage, wp_bind, fetchFrame]
  by_cases hp : p = metaPageId ∨ p = invalidPage
  · rw [if_pos hp, wp_fail]
    have hlow : ¬1 ≤ p := by
      obtain rfl | rfl := hp
      · decide
      · decide
    have hm : b.table p = none := by
      cases hm : b.table p with
      | none => rfl
      | some f => exact absurd (h.resident hm).2.inside.1 hlow
    refine ⟨⟨.refl h, nofun, fun _ h1 => absurd h1 hlow, fun _ _ _ => ?_⟩, .inl rfl, hm, fun h0 h1 => ?_⟩
    · rw [view_unmapped hm, onDiskView, if_neg fun hn => hlow hn.1]
    · exact absurd hp (not_or.mpr ⟨h0, h1⟩)
  · rw [if_neg hp]
    rw [not_or] at hp
    refine wp_mono (wp_fetchLoop latch h ht hp hask) (fun f b' hf => ?_) fun _ _ he => he
    obtain ⟨hf, hmiss, hhit, hheld⟩ := hf
    have hfree : b'.blocks latch f = false := by
      cases hm : b.table p with
      | none => exact not_blocks (hmiss hm).1 latch
      | some f' =>
        unfold blocks
        rw [hheld, hhit f' hm]
        exact hfetch f' hm
    rw [wp_bind, wp_acquireLatch hfree, wp_bind, wp_modify, wp_pure]
    exact ⟨hf, rfl, rfl, fun hm => (hmiss hm).2⟩

theorem wp_fetchPage {latch : Latch} (h : Inv typed b []) (ht : Typing typed) (hask : Askable cfg p)
    (hfetch : b.Fetchable latch p) :
    wp (fetchPage cfg latch p)
      (fun g b' => Fetched typed b b' g ∧ g.page = p ∧ g.latch = latch ∧ (b.table p = none → ¬b.AllPinned))
      (NotFetched cfg typed b p) b :=
  wp_mono (wp_fetchPage_gaveBack h ht (fun _ => hask) hfetch) (fun _ _ hg => hg) fun _ _ he => he.toNotFetched

/-! New pages. -/

/-- A guard granted on a page that was not there before. -/
structure Created (typed : PageId → PageType → Prop) (b b' : BufferPool) (g : Held) : Prop where
  inv : Inv typed b' []
  held : b'.held = g :: b.held
  latch : g.latch = .write
  two_le : 2 ≤ g.page
  fresh : NoFree typed → b.view g.page = none
  view : NoFree typed → b'.view = Function.update b.view g.page (some (blankPage g.page))
  capacity : b'.capacity = b.capacity
  settled : Settled b.disk → Settled b'.disk
  taken : b.disk.freelistHead ≠ invalidPage → g.page = b.disk.freelistHead ∧
    b'.disk.freelistHead = linkOf b.disk.file b.disk.freelistHead ∧ b'.disk.pageCount = b.disk.pageCount
  extended : b.disk.freelistHead = invalidPage → g.page = b.disk.pageCount ∧
    b'.disk.freelistHead = invalidPage ∧ b'.disk.pageCount = b.disk.pageCount + 1
  offline : ∀ q, b.table q = none → q ≠ metaPageId → q ≠ g.page → b'.disk.file q = b.disk.file q

/-- Why `NewPage` fails, and what is left of it. -/
structure NotCreated (cfg : PoolConfig) (typed : PageId → PageType → Prop) (b : BufferPool) (e : Status)
    (b' : BufferPool) : Prop where
  inv : Inv typed b' []
  view : NoFree typed → b'.view = b.view
  held : b'.held = b.held
  capacity : b'.capacity = b.capacity
  full : e.code = .bufferPoolFull → b.AllPinned ∧ b' = b
  pinned : b.AllPinned → e.code = .bufferPoolFull
  failed : e.code ≠ .bufferPoolFull → ¬Reliable cfg.disk

theorem Inv.mapped_ne_meta {mine : List Nat} {q : PageId} (h : Inv typed b mine) (hq : b.table q = some f) :
    q ≠ metaPageId := (one_le_iff.mp (h.resident hq).2.inside.1).1

/-- The allocator's work under the frames of a pool. -/
theorem Inv.granted {mine : List Nat} {d : DiskManager} {kind : PageType} (h : Inv typed b mine)
    (hg : Granted b.disk d p) (hnone : b.table p = none) (hs : Sound kind d {q | 2 ≤ q ∧ b.table q ≠ none}) :
    Inv typed { b with disk := d } mine := by
  refine h.setDisk ⟨kind, hs⟩ ?_ (hg.pageCount_le) fun q f hq => ?_
  · rw [hg.other _ (by decide) (Ne.symm (PageId.of_two_le hg.two_le).2.1)]
    exact h.catalog
  · refine hg.other q (h.mapped_ne_meta hq) ?_
    rintro rfl
    rw [hnone] at hq
    cases hq

theorem view_granted {d : DiskManager} (hg : Granted b.disk d p) {q : PageId} (hq : q ≠ p) :
    ({ b with disk := d } : BufferPool).view q = b.view q := by
  cases ht : b.table q with
  | some f => rw [view_mapped ht, view_mapped (b := { b with disk := d }) ht]
  | none =>
    rw [view_unmapped ht, view_unmapped (b := { b with disk := d }) ht]
    refine onDiskView_congr ?_ fun _ h1 => hg.other q (one_le_iff.mp h1).1 hq
    rw [hg.count]
    exact or_iff_left hq

theorem Inv.unchanged {mine : List Nat} {d : DiskManager} {kind : PageType} (h : Inv typed b mine)
    (hu : Unchanged b.disk d) (hs : Sound kind d {q | 2 ≤ q ∧ b.table q ≠ none}) :
    Inv typed { b with disk := d } mine := by
  obtain ⟨h2, -⟩ := h.two_le_count
  refine h.setDisk ⟨kind, hs⟩ ?_ (hu.pageCount ▸ Int32.le_refl _) fun q f hq => ?_
  · rw [hu.file _ (by decide) (PageId.lt_of_lt_of_le (by decide) h2)]
    exact h.catalog
  · exact hu.file q (h.mapped_ne_meta hq) (h.resident hq).2.inside.2

theorem view_unchanged {d : DiskManager} (hu : Unchanged b.disk d) :
    ({ b with disk := d } : BufferPool).view = b.view := by
  funext q
  cases ht : b.table q with
  | some f => rw [view_mapped ht, view_mapped (b := { b with disk := d }) ht]
  | none =>
    rw [view_unmapped ht, view_unmapped (b := { b with disk := d }) ht]
    exact onDiskView_congr (by rw [hu.pageCount]) fun hc h1 => hu.file q (one_le_iff.mp h1).1 hc

/-- A page the allocator may hand out is not shown. -/
theorem view_fresh {d : DiskManager} (hg : Granted b.disk d p) (hnone : b.table p = none) : b.view p = none := by
  rw [view_unmapped hnone, onDiskView, if_neg]
  intro hn
  cases hg.fresh with
  | inl hle => exact Int32.lt_irrefl (PageId.lt_of_lt_of_le hn.2.1 hle)
  | inr hfree => exact hn.2.2.1 hfree

/-- The page `NewPage` publishes. -/
theorem Inv.created {d : DiskManager} {kind : PageType} (h : Inv typed b [f]) (ht : Typing typed)
    (hg : Granted b.disk d p) (hnone : b.table p = none)
    (hs : Sound kind d (insert p {q | 2 ≤ q ∧ b.table q ≠ none})) (hset : Settled b.disk → Settled d) :
    Created typed b (({ b with disk := d } : BufferPool).published f p (blankPage p) .write) ⟨f, p, .write⟩ := by
  have hinv := h.granted hg hnone (hs.subset (Set.subset_insert _ _))
  have h1 : 1 ≤ p := one_le_iff.mpr ⟨(PageId.of_two_le hg.two_le).1, (PageId.of_two_le hg.two_le).2.2.2⟩
  refine ⟨hinv.published hnone ⟨h1, (hg.count p).mpr (.inr rfl)⟩ rfl (ht p _ hg.two_le ?_) ⟨kind, ?_⟩ (.inl rfl), rfl, rfl,
    hg.two_le, fun _ => view_fresh hg hnone, fun _ => ?_, rfl, hset, hg.taken, hg.extended, fun q _ => hg.other q⟩
  · show PageType.allocated ≠ .free
    decide
  · refine hs.subset fun q hq => ?_
    obtain ⟨h2, rfl | hq⟩ := hq
    · exact Set.mem_insert _ _
    · exact Set.mem_insert_of_mem _ ⟨h2, hq⟩
  · rw [view_published hinv hnone]
    funext q
    by_cases hq : q = p
    · rw [hq, Function.update_self, Function.update_self]
    · rw [Function.update_of_ne hq, Function.update_of_ne hq, view_granted hg hq]

theorem Inv.head_unmapped {mine : List Nat} (h : Inv typed b mine) (hne : b.disk.freelistHead ≠ invalidPage) :
    b.table b.disk.freelistHead = none := by
  obtain ⟨kind, hs⟩ := h.disk
  obtain ⟨h2, -, -, hused⟩ := hs.head hne
  by_contra hn
  exact hused ⟨h2, hn⟩

theorem wp_newPage (h : Inv typed b []) (ht : Typing typed)
    (hroom : b.disk.freelistHead = invalidPage → b.disk.pageCount ≠ Int32.maxValue) :
    wp (newPage cfg) (fun g b' => Created typed b b' g ∧ ¬b.AllPinned) (NotCreated cfg typed b) b := by
  rw [newPage, wp_bind]
  refine wp_mono (wp_acquireFrame h) (fun f b₁ hacq => ?_) fun e b₁ he => ?_
  · obtain ⟨hq, hnot⟩ := hacq
    obtain ⟨kind, hs⟩ := hq.inv.disk
    rw [wp_bind, wp_attempt]
    refine wp_onDisk (wp_allocatePage hs (by rw [hq.freelistHead, hq.pageCount]; exact hroom)) (fun p d hd => ?_)
      fun e d hd => ?_
    · obtain ⟨hg, hused, hs', hset⟩ := hd
      have hnone : b₁.table p = none := by
        by_contra hn
        exact hused ⟨hg.two_le, hn⟩
      have hcr := hq.inv.created ht hg hnone hs' hset
      have hguards := (hq.inv.vacant f (by simp)).2.guards
      -- The head of the freelist is in no frame, so no write-back touched its link.
      have htaken : b.disk.freelistHead ≠ invalidPage → p = b.disk.freelistHead ∧
          d.freelistHead = linkOf b.disk.file b.disk.freelistHead ∧ d.pageCount = b.disk.pageCount := by
        intro hne
        obtain ⟨h1, h2, h3⟩ := hcr.taken (by rw [hq.freelistHead]; exact hne)
        refine ⟨h1.trans hq.freelistHead, h2.trans ?_, h3.trans hq.pageCount⟩
        rw [linkOf, linkOf, hq.freelistHead, hq.offline _ (h.head_unmapped hne)]
      dsimp only
      rw [wp_bind, wp_updateFrame, wp_bind, wp_updateFrame, wp_bind, wp_get, wp_bind, wp_check]
      refine ⟨hnone, ?_⟩
      rw [wp_bind, wp_modify, wp_bind, wp_recordAccess, wp_bind]
      refine Iff.mpr (wp_acquireLatch ?_) ?_
      · exact not_blocks (b := b₁) hguards .write
      rw [wp_bind, wp_modify, wp_pure]
      simp only [setFrame, Function.update_idem, Function.update_self, Frame.resetEpochs]
      exact ⟨⟨hcr.inv, hcr.held.trans (by rw [hq.held]), rfl, hcr.two_le,
        fun hf => (congrFun (hq.view hf) p).symm.trans (hcr.fresh hf), fun hf => (hcr.view hf).trans (by rw [hq.view hf]),
        hcr.capacity.trans hq.capacity, fun hset => hcr.settled (hq.settled hset), htaken,
        by rw [← hq.freelistHead, ← hq.pageCount]; exact hcr.extended,
        fun q hm hq0 hqp => (hcr.offline q (hq.unmapped q hm) hq0 hqp).trans (hq.offline q hm)⟩, hnot⟩
    · obtain ⟨hrel, hcode, hu, hs'⟩ := hd
      dsimp only
      rw [wp_bind, wp_push, wp_fail]
      have hinv := (hq.inv.unchanged hu hs').push
      refine ⟨hinv, fun hf => (view_unchanged hu).trans (hq.view hf), hq.held, hq.capacity, fun hf => ?_, fun hall => absurd hall hnot,
        fun _ => hrel⟩
      rw [hcode] at hf
      cases hf
  · cases he with
    | inl he =>
      obtain ⟨hcode, hall, rfl⟩ := he
      exact ⟨h, fun _ => rfl, rfl, rfl, fun _ => ⟨hall, rfl⟩, fun _ => hcode, fun hn => absurd hcode hn⟩
    | inr he =>
      obtain ⟨hcode, hrel, hnot, hq⟩ := he
      refine ⟨hq.inv, hq.view, hq.held, hq.capacity, fun hf => ?_, fun hall => absurd hall hnot, fun _ => hrel⟩
      rw [hcode] at hf
      cases hf

/-! Deleting. -/

/-- A page that may be deleted: not reserved, in the file, without guards. -/
def Deletable (b : BufferPool) (p : PageId) : Prop :=
  2 ≤ p ∧ p < b.disk.pageCount ∧ ∀ f, b.table p = some f → b.guardsOn f = 0

structure Deleted (typed : PageId → PageType → Prop) (b b' : BufferPool) (p : PageId) : Prop where
  inv : Inv typed b' []
  held : b'.held = b.held
  capacity : b'.capacity = b.capacity
  deletable : b.Deletable p
  view : NoFree typed → b'.view = Function.update b.view p none
  settled : Settled b.disk → Settled b'.disk

/-- A deletion refused, or begun and not finished: what is left of the page is what is on disk. -/
structure NotDeleted (cfg : PoolConfig) (typed : PageId → PageType → Prop) (b b' : BufferPool) (p : PageId) :
    Prop where
  inv : Inv typed b' []
  held : b'.held = b.held
  capacity : b'.capacity = b.capacity
  others : ∀ q, q ≠ p → b'.view q = b.view q
  refused : ¬b.Deletable p → b' = b
  stamped : b.Deletable p → StampWritten cfg.disk b.disk → b'.view p = none
  spared : b.Deletable p → ¬StampWritten cfg.disk b.disk → b'.view p = onDiskView b.disk p
  failed : b.Deletable p → ¬Reliable cfg.disk

/-- The deallocator's work under the frames of a pool. -/
theorem Inv.released {mine : List Nat} {d : DiskManager} {kind : PageType} (h : Inv typed b mine) (h2 : 2 ≤ p)
    (hr : Released b.disk d p) (hnone : b.table p = none) (hs : Sound kind d {q | 2 ≤ q ∧ b.table q ≠ none}) :
    Inv typed { b with disk := d } mine := by
  refine h.setDisk ⟨kind, hs⟩ ?_ (hr.pageCount ▸ Int32.le_refl _) fun q f hq => ?_
  · rw [hr.other _ (by decide) (Ne.symm (PageId.of_two_le h2).2.1)]
    exact h.catalog
  · refine hr.other q (h.mapped_ne_meta hq) ?_
    rintro rfl
    rw [hnone] at hq
    cases hq

theorem view_released {d : DiskManager} (hr : Released b.disk d p) {q : PageId} (hq : q ≠ p) :
    ({ b with disk := d } : BufferPool).view q = b.view q := by
  cases ht : b.table q with
  | some f => rw [view_mapped ht, view_mapped (b := { b with disk := d }) ht]
  | none =>
    rw [view_unmapped ht, view_unmapped (b := { b with disk := d }) ht]
    exact onDiskView_congr (by rw [hr.pageCount]) fun _ h1 => hr.other q (one_le_iff.mp h1).1 hq

theorem onDiskView_free {d : DiskManager} (h : (d.file p).header.pageType = .free) : onDiskView d p = none := by
  rw [onDiskView, if_neg fun hn => hn.2.2.1 h]

theorem view_setDisk {d : DiskManager} (hnone : b.table p = none) :
    ({ b with disk := d } : BufferPool).view p = onDiskView d p := view_unmapped (b := { b with disk := d }) hnone

theorem Botched.onDiskView {env : DiskEnv} {d d' : DiskManager} (hb : Botched env d d' p) (hr : Released d d' p)
    (hs : ¬StampWritten env d) : onDiskView d' p = onDiskView d p := by
  rw [BufferPool.onDiskView, BufferPool.onDiskView, hb.spared hs, hr.pageCount]

/-- `DeallocatePage` of a page no frame holds. -/
theorem wp_deallocate {mine : List Nat} {Q : Unit → BufferPool → Prop} {E : Status → BufferPool → Prop}
    (h : Inv typed b mine) (hnone : b.table p = none)
    (hok : ∀ d, 2 ≤ p → p < b.disk.pageCount → Inv typed { b with disk := d } mine → Released b.disk d p →
      onDiskView d p = none → (Settled b.disk → Settled d) → Q () { b with disk := d })
    (hinv : ∀ st, ¬(2 ≤ p ∧ p < b.disk.pageCount) → E st b)
    (herr : ∀ st d, Inv typed { b with disk := d } mine → Released b.disk d p → ¬Reliable cfg.disk →
      Botched cfg.disk b.disk d p → E st { b with disk := d }) :
    wp (onDisk (deallocatePage cfg.disk p)) Q E b := by
  obtain ⟨kind, hs⟩ := h.disk
  refine wp_onDisk (wp_deallocatePage_exact hs) (fun _ d hd => ?_) fun st d hd => ?_
  · obtain ⟨h2, hcount, hr, hfree, hs', hset⟩ := hd
    refine hok d h2 hcount (h.released h2 hr hnone (hs'.subset fun q hq => ⟨hq, ?_⟩)) hr (onDiskView_free hfree) hset
    rintro rfl
    exact hq.2 hnone
  · cases hd with
    | inl hd =>
      obtain ⟨hbad, rfl⟩ := hd
      exact hinv st hbad
    | inr hd =>
      obtain ⟨hrel, hr, hs', hb⟩ := hd
      exact herr st d (h.released hb.inside.1 hr hnone hs') hr hrel hb

theorem wp_deletePage (h : Inv typed b []) :
    wp (deletePage cfg p) (fun _ b' => Deleted typed b b' p) (fun _ b' => NotDeleted cfg typed b b' p) b := by
  -- Refusals touch nothing.
  have hrefused : ¬b.Deletable p → NotDeleted cfg typed b b p := fun hn =>
    ⟨h, rfl, rfl, fun _ _ => rfl, fun _ => rfl, fun hd => absurd hd hn, fun hd => absurd hd hn, fun hd => absurd hd hn⟩
  rw [deletePage]
  dsimp only
  rw [wp_ite]
  refine ⟨fun hres => hrefused fun hd => ?_, fun hres' => ?_⟩
  · obtain ⟨hmeta, hcat, -, -⟩ := PageId.of_two_le hd.1
    exact hres.elim hmeta hcat
  rw [wp_bind, wp_get]
  cases hm : b.table p with
  | none =>
    have hdel : 2 ≤ p → p < b.disk.pageCount → b.Deletable p := fun h2 hc => ⟨h2, hc, fun f hf => by
      rw [hm] at hf
      cases hf⟩
    refine wp_deallocate h hm (fun d h2 hc hinv hr hview hset => ?_) (fun st hbad => ?_)
      fun st d hinv hr hrel hb => ?_
    · refine ⟨hinv, rfl, rfl, hdel h2 hc, fun _ => ?_, hset⟩
      funext q
      by_cases hq : q = p
      · subst hq
        rw [Function.update_self, view_setDisk hm, hview]
      · rw [Function.update_of_ne hq, view_released hr hq]
    · exact hrefused fun hd => hbad ⟨hd.1, hd.2.1⟩
    · refine ⟨hinv, rfl, rfl, fun q hq => view_released hr hq, fun hn => absurd (hdel hb.inside.1 hb.inside.2) hn,
        fun _ hs => ?_, fun _ hs => ?_, fun _ => hrel⟩
      · exact (view_setDisk hm).trans (onDiskView_free (hb.stamped hs))
      · exact (view_setDisk hm).trans (Botched.onDiskView hb hr hs)
  | some f =>
    obtain ⟨hcap, hres⟩ := h.resident hm
    obtain ⟨hmeta, h0⟩ := one_le_iff.mp hres.inside.1
    have h2 : 2 ≤ p := PageId.two_le h0 hmeta fun hcat => hres' (.inr hcat)
    dsimp only
    rw [wp_bind, wp_frameAt hcap, wp_ite]
    refine ⟨fun hpin => hrefused fun hd => hpin ?_, fun hpin => ?_⟩
    · rw [hres.pinCount, hd.2.2 f hm]
      rfl
    have hpin0 : (b.frames f).pinCount = 0 := not_not.mp hpin
    have hg : b.guardsOn f = 0 := by
      have := hres.pinCount
      omega
    have hdel : b.Deletable p := ⟨h2, hres.inside.2, fun f' hf' => by
      rw [hm] at hf'
      exact Option.some.inj hf' ▸ hg⟩
    have hrem : Removed b.replacer f (b.replacer.setEvictable f false) :=
      ⟨Replacer.setEvictable_evictable false, Replacer.setEvictable_capacity false,
        h.counted.setEvictable (h.capacity.symm ▸ hcap) false⟩
    have hvac := h.vacated hm hg hrem
    have hnone : (b.vacated f p (b.replacer.setEvictable f false)).table p = none := Function.update_self _ _ _
    rw [wp_bind, wp_asserts hres.state, wp_bind]
    refine wp_vacate hpin0 ?_
    rw [wp_bind, wp_setEvictable, wp_bind, wp_attempt]
    show wp (onDisk (deallocatePage cfg.disk p)) _ _ (b.vacated f p (b.replacer.setEvictable f false))
    refine wp_deallocate hvac hnone (fun d _ _ hinv hr hview hset => ?_) (fun st hbad => ?_)
      fun st d hinv hr hrel hb => ?_
    · rw [wp_bind, wp_push]
      refine ⟨hinv.push, rfl, rfl, hdel, fun _ => ?_, hset⟩
      funext q
      by_cases hq : q = p
      · subst hq
        rw [Function.update_self]
        exact (view_setDisk hnone).trans hview
      · rw [Function.update_of_ne hq]
        exact (view_released hr hq).trans (view_vacated_other hq h hm)
    · exact absurd ⟨h2, hres.inside.2⟩ hbad
    · rw [wp_bind, wp_push]
      refine ⟨hinv.push, rfl, rfl, fun q hq => (view_released hr hq).trans (view_vacated_other hq h hm),
        fun hn => absurd hdel hn, fun _ hs => ?_, fun _ hs => ?_, fun _ => hrel⟩
      · exact (view_setDisk hnone).trans (onDiskView_free (hb.stamped hs))
      · exact (view_setDisk hnone).trans (Botched.onDiskView hb hr hs)

/-! Writing back. -/

/-- A flush would not wait for a write guard of its own thread. -/
def Flushable (b : BufferPool) (f : Nat) : Prop := (b.frames f).isDirty = true → ¬b.writer f

/-- Frames were written back; none was dirtied, filled or emptied. -/
structure WrittenBack (typed : PageId → PageType → Prop) (b b' : BufferPool) : Prop where
  quiet : Quiet typed b b' []
  table : b'.table = b.table
  state : ∀ f, (b'.frames f).state = (b.frames f).state
  clean : ∀ f, (b.frames f).isDirty = false → (b'.frames f).isDirty = false
  flag : b'.isShutdown = b.isShutdown

theorem WrittenBack.refl (h : Inv typed b []) : WrittenBack typed b b :=
  ⟨.refl h, rfl, fun _ => rfl, fun _ hf => hf, rfl⟩

theorem WrittenBack.trans {b'' : BufferPool} (h : WrittenBack typed b b') (h' : WrittenBack typed b' b'') :
    WrittenBack typed b b'' :=
  ⟨h.quiet.trans h'.quiet, h'.table.trans h.table, fun f => (h'.state f).trans (h.state f),
    fun f hf => h'.clean f (h.clean f hf), h'.flag.trans h.flag⟩

theorem WrittenBack.flushable (h : WrittenBack typed b b') (hf : b.Flushable f) : b'.Flushable f := by
  intro hd
  unfold writer
  rw [h.quiet.held]
  refine hf ?_
  cases hb : (b.frames f).isDirty with
  | true => rfl
  | false =>
    rw [h.clean f hb] at hd
    cases hd

theorem Inv.writtenBack (h : Inv typed b []) (hm : b.table p = some f) : WrittenBack typed b (b.flushed f p) := by
  refine ⟨h.quiet_flushed hm, rfl, fun g => ?_, fun g hg => ?_, rfl⟩
  · show (Function.update b.frames f _ g).state = _
    by_cases hgf : g = f
    · rw [hgf, Function.update_self]
    · rw [Function.update_of_ne hgf]
  · by_cases hgf : g = f
    · rw [hgf]
      exact isDirty_flushed
    · show (Function.update b.frames f _ g).isDirty = false
      rw [Function.update_of_ne hgf]
      exact hg

/-- One frame: clean afterwards, or the disk failed. -/
theorem wp_flushResident {E : Status → BufferPool → Prop} (h : Inv typed b []) (hm : b.table p = some f)
    (hf : b.Flushable f) :
    wp (flushPinned cfg f p)
      (fun r b' => WrittenBack typed b b' ∧ (r = .ok () → (b'.frames f).isDirty = false) ∧
        ∀ e, r = .error e → e.code = .ioError ∧ ¬Reliable cfg.disk) E b := by
  obtain ⟨hcap, hr⟩ := h.resident hm
  refine wp_flushPinned hcap hr hf (fun hd => ⟨.refl h, fun _ => hd, nofun⟩) (fun _ => ?_) fun st hst hrel _ => ?_
  · exact ⟨h.writtenBack hm, fun _ => isDirty_flushed, nofun⟩
  · refine ⟨⟨h.quiet_ticked, rfl, fun _ => rfl, fun _ hg => hg, rfl⟩, nofun, fun e he => ?_⟩
    cases he
    exact ⟨hst, hrel⟩

theorem wp_flushPage (h : Inv typed b []) (hf : ∀ f, b.table p = some f → b.Flushable f) :
    wp (flushPage cfg p) (fun _ b' => WrittenBack typed b b')
      (fun e b' => WrittenBack typed b b' ∧ e.code = .ioError ∧ ¬Reliable cfg.disk) b := by
  rw [flushPage, wp_bind, wp_get]
  cases hm : b.table p with
  | none => exact .refl h
  | some f =>
    obtain ⟨hcap, hr⟩ := h.resident hm
    have hstate : ¬(b.frames f).state ≠ .resident := not_not.mpr hr.state
    dsimp only
    rw [wp_bind, wp_frameAt hcap, if_neg hstate, wp_bind]
    refine wp_mono (wp_flushResident (E := fun _ _ => False) h hm (hf f hm)) (fun r b' hr => ?_) nofun
    refine wp_handOn (fun _ _ => hr.1) fun e he => ⟨hr.1, hr.2.2 e he⟩

theorem Inv.resident_frame (h : Inv typed b []) (hcap : f < b.capacity) (hs : (b.frames f).state = .resident) :
    b.table (b.frames f).pageId = some f := by
  by_cases hf : f ∈ b.freeList
  · have := (h.vacant f (by simpa using hf)).2.state
    rw [hs] at this
    cases this
  · obtain ⟨q, hq⟩ := h.frames f hcap (by simpa using hf)
    rw [hq.pageId]
    exact hq.mapped

theorem wp_flushEach {E : Status → BufferPool → Prop} : ∀ {fs : List Nat} {b : BufferPool}, Inv typed b [] →
    (∀ f ∈ fs, f < b.capacity) → (∀ f ∈ fs, b.Flushable f) →
    wp (flushEach cfg fs)
      (fun r b' => WrittenBack typed b b' ∧
        (r = .ok () → ∀ f ∈ fs, (b'.frames f).state = .resident → (b'.frames f).isDirty = false) ∧
        ∀ e, r = .error e → e.code = .ioError ∧ ¬Reliable cfg.disk) E b
  | [], b, h, _, _ => ⟨.refl h, fun _ _ hf => absurd hf (by simp), nofun⟩
  | f :: fs, b, h, hcap, hfl => by
    have hcap' : ∀ g ∈ fs, g < b.capacity := fun g hg => hcap g (List.mem_cons_of_mem _ hg)
    have hfl' : ∀ g ∈ fs, b.Flushable g := fun g hg => hfl g (List.mem_cons_of_mem _ hg)
    rw [flushEach, wp_bind, wp_frameAt (hcap f List.mem_cons_self), wp_ite]
    constructor
    · -- A frame that holds nothing is passed over, and holds nothing afterwards.
      intro hs
      refine wp_mono (wp_flushEach (E := fun _ _ => False) h hcap' hfl') (fun r b' hb => ?_) nofun
      obtain ⟨hw, hclean, herr⟩ := hb
      refine ⟨hw, fun hr g hg hgs => ?_, herr⟩
      cases List.mem_cons.mp hg with
      | inl he => exact absurd ((hw.state f).symm.trans (he ▸ hgs)) hs
      | inr hg => exact hclean hr g hg hgs
    · intro hs
      have hm := h.resident_frame (hcap f List.mem_cons_self) (not_not.mp hs)
      rw [wp_bind]
      refine wp_mono (wp_flushResident (E := fun _ _ => False) h hm (hfl f List.mem_cons_self)) (fun r₁ b₁ h₁ => ?_) nofun
      obtain ⟨hw₁, hclean₁, herr₁⟩ := h₁
      have hcap₁ : ∀ g ∈ fs, g < b₁.capacity := fun g hg => hw₁.quiet.capacity ▸ hcap' g hg
      rw [wp_bind]
      refine wp_mono (wp_flushEach (E := fun _ _ => False) hw₁.quiet.inv hcap₁ fun g hg => hw₁.flushable (hfl' g hg))
        (fun r₂ b₂ h₂ => ?_) nofun
      obtain ⟨hw₂, hclean₂, herr₂⟩ := h₂
      cases r₁ with
      | error e => exact ⟨hw₁.trans hw₂, nofun, fun e' he => Except.error.inj he ▸ herr₁ e rfl⟩
      | ok _ =>
        refine ⟨hw₁.trans hw₂, fun hr g hg hgs => ?_, herr₂⟩
        cases List.mem_cons.mp hg with
        | inl he => exact he ▸ hw₂.clean f (hclean₁ rfl)
        | inr hg => exact hclean₂ hr g hg hgs

/-- Every page the pool holds is on disk. -/
def AllClean (b : BufferPool) : Prop :=
  ∀ f < b.capacity, (b.frames f).state = .resident → (b.frames f).isDirty = false

theorem wp_flushAllPages (h : Inv typed b []) (hf : ∀ f < b.capacity, b.Flushable f) :
    wp (flushAllPages cfg) (fun _ b' => WrittenBack typed b b' ∧ b'.AllClean)
      (fun e b' => WrittenBack typed b b' ∧ e.code = .ioError ∧ ¬Reliable cfg.disk) b := by
  rw [flushAllPages, wp_bind, wp_get, wp_bind]
  refine wp_mono (wp_flushEach (E := fun _ _ => False) h (fun f hf' => List.mem_range.mp hf')
    fun f hf' => hf f (List.mem_range.mp hf')) (fun r b' hr => ?_) nofun
  obtain ⟨hw, hclean, herr⟩ := hr
  refine wp_handOn (fun _ hr => ⟨hw, fun f hcap hs => ?_⟩) fun e he => ⟨hw, herr e he⟩
  exact hclean hr f (List.mem_range.mpr (hw.quiet.capacity ▸ hcap)) hs

/-! Guards. -/

theorem wp_write {g : Held} {e : Edit} {Q : Unit → BufferPool → Prop} {E : Status → BufferPool → Prop} :
    wp (write g e) Q E b ↔ Q () (b.edited g e) := Iff.rfl

theorem wp_drop {g : Held} {Q : Unit → BufferPool → Prop} {E : Status → BufferPool → Prop} (h : Inv typed b [])
    (hg : g ∈ b.held) (hq : Q () (b.dropped g)) : wp (drop cfg g) Q E b := by
  have hm := h.held g hg
  obtain ⟨hcap, hr⟩ := h.resident hm
  have hpos : 0 < (b.frames g.frame).pinCount := by
    rw [hr.pinCount]
    exact Int.natCast_pos.mpr (List.countP_pos_iff.mpr ⟨g, hg, by simp⟩)
  rw [drop]
  cases hl : g.latch with
  | read =>
    rw [if_neg (by decide), wp_bind, wp_modify]
    refine wp_unpinPage hcap hpos ?_
    simp only [dropped, hl, hr.state, and_true] at hq
    simpa [hr.state] using hq
  | write =>
    rw [if_pos rfl, wp_bind, wp_updateFrame, wp_bind, wp_modify]
    refine wp_unpinPage hcap (by simpa [setFrame, Frame.markDirty] using hpos) ?_
    simp only [dropped, hl, if_true] at hq
    simpa [setFrame, Frame.markDirty, hr.state] using hq

/-! Shutting down. -/

theorem Inv.unguarded (h : Inv typed b []) (hheld : b.held = []) (hcap : f < b.capacity) :
    (b.frames f).pinCount = 0 ∧ (b.frames f).state ≠ .loading := by
  by_cases hf : f ∈ b.freeList
  · have hv := (h.vacant f (by simpa using hf)).2
    exact ⟨hv.pinCount, by rw [hv.state]; decide⟩
  · obtain ⟨q, hq⟩ := h.frames f hcap (by simpa using hf)
    refine ⟨?_, by rw [hq.state]; decide⟩
    rw [hq.pinCount, guardsOn, hheld]
    rfl

theorem wp_sync {Q : Unit → BufferPool → Prop} {E : Status → BufferPool → Prop} (hdone : Q () b.ticked)
    (herr : ∀ st : Status, st.code = .ioError → ¬Reliable cfg.disk → E st b.ticked) :
    wp (onDisk (sync cfg.disk)) Q E b := by
  have hwp : wp (sync cfg.disk) (fun _ d => d = b.disk.tick) (orStop cfg.disk
      (fun st d => st.code = .ioError ∧ ¬Reliable cfg.disk ∧ d = b.disk.tick) (fun _ => True)) b.disk :=
    wp_sysCall rfl (fun _ hr => ⟨rfl, hr, rfl⟩) trivial
  exact wp_onDisk hwp (fun _ _ hd => hd ▸ hdone) fun st _ hd => hd.2.2 ▸ herr st hd.1 hd.2.1

/-- The pool with its flag set. -/
theorem Inv.quiet_flag (h : Inv typed b []) : Quiet typed b { b with isShutdown := true } [] := by
  have hinv : Inv typed { b with isShutdown := true } [] := { h with
    vacant := fun f hf => ⟨(h.vacant f hf).1, { (h.vacant f hf).2 with }⟩
    frames := fun f hcap hf => (h.frames f hcap hf).imp fun q hq => { hq with } }
  exact ⟨hinv, fun _ => rfl, rfl, rfl, fun _ hq => hq, fun _ _ => rfl, rfl, rfl, id⟩

/-- The first `Shutdown` of a pool without guards. -/
theorem wp_shutdown (h : Inv typed b []) (hflag : b.isShutdown = false) (hheld : b.held = []) :
    wp (shutdown cfg) (fun _ b' => Quiet typed b b' [] ∧ b'.AllClean)
      (fun e b' => Quiet typed b b' [] ∧ e.code = .ioError ∧ ¬Reliable cfg.disk) b := by
  have hq := h.quiet_flag
  have hfl : ∀ f < b.capacity, Flushable { b with isShutdown := true } f := by
    intro f _ _ ⟨g, hg, _⟩
    rw [hheld] at hg
    cases hg
  have hoff : ¬b.isShutdown = true := by simp [hflag]
  rw [shutdown, wp_bind, wp_get, if_neg hoff, wp_bind, wp_modify, wp_bind,
    wp_asserts (fun f hcap => h.unguarded hheld hcap), wp_bind, wp_attempt]
  refine wp_mono (wp_flushAllPages hq.inv hfl) (fun _ b₁ hb => ?_) fun e b₁ hb => ?_
  · obtain ⟨hw, hclean⟩ := hb
    have hq₁ := hq.trans hw.quiet
    rw [wp_bind, wp_attempt]
    exact wp_sync ⟨hq₁.trans hw.quiet.inv.quiet_ticked, hclean⟩ fun st hst hrel =>
      ⟨hq₁.trans hw.quiet.inv.quiet_ticked, hst, hrel⟩
  · obtain ⟨hw, hcode, hrel⟩ := hb
    have hq₁ := hq.trans hw.quiet
    rw [wp_bind, wp_attempt]
    exact wp_sync ⟨hq₁.trans hw.quiet.inv.quiet_ticked, hcode, hrel⟩ fun st _ _ =>
      ⟨hq₁.trans hw.quiet.inv.quiet_ticked, hcode, hrel⟩

end Calls
end KernSql.BufferPool
