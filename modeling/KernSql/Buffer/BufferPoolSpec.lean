import KernSql.Buffer.BufferPool
import KernSql.Storage.Freelist

/- What the pool keeps true between calls, and what its calls do to it.

   Every frame has one owner: the free list, the running call (`mine`), or the
   page table (`Inv.frames`). A frame of the page table is Resident, is pinned
   once for each guard on it, and is a candidate of the replacer exactly when it
   is not pinned. Its bytes are on disk unless it is dirty or a write guard is on
   it (`Resident.saved`).

   `view` is what the pool shows of a page: the bytes of its frame, or what a load
   would read. Frames come and go without changing it; it needs that no page in a
   frame is stamped FREE, which is a promise of the callers. `typed p t` says which
   types `t` the callers may give page `p`, so that a result can ask for that
   promise, for less, or for more. -/
namespace KernSql

/-- Callers' promises about page types: any type but FREE is theirs to give from page 2 on. -/
def Typing (typed : PageId → PageType → Prop) : Prop := ∀ p t, 2 ≤ p → t ≠ .free → typed p t

/-- No page may be stamped FREE. -/
def NoFree (typed : PageId → PageType → Prop) : Prop := ∀ p, ¬typed p .free

namespace BufferPool
open Exec DiskManager

/-- What a load of page `p` would find on disk. -/
def onDiskView (d : DiskManager) (p : PageId) : Option Page :=
  if 1 ≤ p ∧ p < d.pageCount ∧ (d.file p).header.pageType ≠ .free ∧ (d.file p).header.pageId = p then
    some (d.file p)
  else none

/-- What the pool shows of page `p`. -/
def view (b : BufferPool) (p : PageId) : Option Page :=
  match b.table p with
  | some f => some (b.frames f).data
  | none => onDiskView b.disk p

/-- The number of guards on frame `f`. -/
def guardsOn (b : BufferPool) (f : Nat) : Nat := b.held.countP (·.frame = f)

def writer (b : BufferPool) (f : Nat) : Prop := ∃ h ∈ b.held, h.frame = f ∧ h.latch = .write

/-- A frame that holds nothing. -/
structure Vacant (b : BufferPool) (f : Nat) : Prop where
  state : (b.frames f).state = .free
  pageId : (b.frames f).pageId = invalidPage
  pinCount : (b.frames f).pinCount = 0
  dirtyEpoch : (b.frames f).dirtyEpoch = 0
  flushedEpoch : (b.frames f).flushedEpoch = 0
  candidate : b.replacer.evictable f = false
  guards : b.guardsOn f = 0

/-- Frame `f` holds page `p`. -/
structure Resident (typed : PageId → PageType → Prop) (b : BufferPool) (f : Nat) (p : PageId) : Prop where
  state : (b.frames f).state = .resident
  pageId : (b.frames f).pageId = p
  mapped : b.table p = some f
  pinCount : (b.frames f).pinCount = b.guardsOn f
  candidate : b.replacer.evictable f = decide (b.guardsOn f = 0)
  inside : 1 ≤ p ∧ p < b.disk.pageCount
  header : (b.frames f).data.header.pageId = p
  typed : typed p (b.frames f).data.header.pageType
  epochs : (b.frames f).flushedEpoch ≤ (b.frames f).dirtyEpoch
  saved : ¬b.writer f → (b.frames f).isDirty = false → b.disk.file p = (b.frames f).data

/-- The frames `mine` belong to the running call. -/
structure Inv (typed : PageId → PageType → Prop) (b : BufferPool) (mine : List Nat) : Prop where
  disk : ∃ kind, Sound kind b.disk {p | 2 ≤ p ∧ b.table p ≠ none}
  catalog : typed catalogRootPageId (b.disk.file catalogRootPageId).header.pageType
  counted : b.replacer.Counted
  capacity : b.replacer.capacity = b.capacity
  nodup : (mine ++ b.freeList).Nodup
  vacant : ∀ f ∈ mine ++ b.freeList, f < b.capacity ∧ b.Vacant f
  frames : ∀ f < b.capacity, f ∉ mine ++ b.freeList → ∃ p, b.Resident typed f p
  table : ∀ p f, b.table p = some f → f < b.capacity ∧ f ∉ mine ++ b.freeList ∧ (b.frames f).pageId = p
  held : ∀ h ∈ b.held, b.table h.page = some h.frame

/-! The primitive calls. -/

section Primitives
variable {cfg : PoolConfig} {b : BufferPool} {f : Nat} {E : Status → BufferPool → Prop}

theorem not_stops (cfg : PoolConfig) : ¬Stops cfg.disk := by
  intro ⟨i, hi⟩
  unfold PoolConfig.disk at hi
  dsimp only at hi
  split at hi
  · cases hi
  · cases hi

theorem wp_asserts {c : Prop} [Decidable c] {Q : Unit → BufferPool → Prop} (hc : c) :
    wp (asserts cfg c) Q E b ↔ Q () b := by
  rw [asserts, wp_check]
  exact ⟨fun h => h.2, fun h => ⟨fun _ => hc, h⟩⟩

theorem wp_onDisk {α : Type} {m : DiskM α} {Q : α → BufferPool → Prop} {Q' : α → DiskManager → Prop}
    {E' : Status → DiskManager → Prop} {S : DiskManager → Prop} (h : wp m Q' (orStop cfg.disk E' S) b.disk)
    (hQ : ∀ a d, Q' a d → Q a { b with disk := d }) (hE : ∀ st d, E' st d → E st { b with disk := d }) :
    wp (onDisk m) Q E b := by
  unfold wp onDisk
  obtain ⟨a, d, hm, hd⟩ | ⟨e, d, hm, hd⟩ := wp_run h
  · rw [hm]
    exact hQ a d hd
  · rw [hm]
    cases e with
    | status st => exact hE st d hd
    | stopped => exact absurd hd.1 (not_stops cfg)

theorem wp_handOn {α : Type} {r : Except Status α} {Q : α → BufferPool → Prop}
    (hok : ∀ a, r = .ok a → Q a b) (herr : ∀ e, r = .error e → E e b) : wp (handOn r) Q E b := by
  cases r with
  | ok a => exact hok a rfl
  | error e => exact herr e rfl

theorem wp_frameAt {Q : Frame → BufferPool → Prop} (hf : f < b.capacity) :
    wp (frameAt cfg f) Q E b ↔ Q (b.frames f) b := by
  rw [frameAt, wp_bind, wp_get, wp_bind, wp_asserts hf, wp_pure]

theorem wp_updateFrame {change : Frame → Frame} {Q : Unit → BufferPool → Prop} :
    wp (updateFrame f change) Q E b ↔ Q () (b.setFrame f (change (b.frames f))) := Iff.rfl

theorem wp_acquireLatch {latch : Latch} {Q : Unit → BufferPool → Prop} (h : b.blocks latch f = false) :
    wp (acquireLatch latch f) Q E b ↔ Q () b := by
  rw [acquireLatch, wp_bind, wp_get, wp_check]
  exact ⟨fun hc => hc.2, fun hc => ⟨h, hc⟩⟩

theorem wp_recordAccess {Q : Unit → BufferPool → Prop} :
    wp (recordAccess f) Q E b ↔ Q () { b with replacer := b.replacer.recordAccess f } := Iff.rfl

theorem wp_setEvictable {evictable : Bool} {Q : Unit → BufferPool → Prop} :
    wp (setEvictable f evictable) Q E b ↔ Q () { b with replacer := b.replacer.setEvictable f evictable } := Iff.rfl

theorem wp_push {Q : Unit → BufferPool → Prop} :
    wp (push f) Q E b ↔ Q () { b with freeList := f :: b.freeList } := Iff.rfl

theorem wp_erase {p : PageId} {Q : Unit → BufferPool → Prop} :
    wp (erase p) Q E b ↔ Q () { b with table := Function.update b.table p none } := Iff.rfl

theorem wp_tryPop {Q : Option Nat → BufferPool → Prop} (hnil : b.freeList = [] → Q none b)
    (hcons : ∀ f rest, b.freeList = f :: rest → Q (some f) { b with freeList := rest }) : wp tryPop Q E b := by
  unfold wp tryPop
  cases h : b.freeList with
  | nil => exact hnil h
  | cons f rest => exact hcons f rest h

theorem wp_evict {Q : Option Nat → BufferPool → Prop} (hc : b.replacer.Counted)
    (hnone : (∀ f, b.replacer.evictable f = false) → Q none b)
    (hsome : ∀ v r, b.replacer.Claimed v r → Q (some v) { b with replacer := r }) : wp evict Q E b := by
  unfold wp evict
  obtain ⟨v, r, hev, hcl⟩ | ⟨hev, hall⟩ := hc.evict_spec
  · rw [hev]
    exact hsome v r hcl
  · rw [hev]
    exact hnone hall

theorem wp_unpinPage {Q : Unit → BufferPool → Prop} (hf : f < b.capacity) (hpin : 0 < (b.frames f).pinCount)
    (hq : Q () { b with
      frames := Function.update b.frames f { b.frames f with pinCount := (b.frames f).pinCount - 1 }
      replacer := if (b.frames f).pinCount = 1 ∧ (b.frames f).state = .resident then
        b.replacer.setEvictable f true else b.replacer }) : wp (unpinPage cfg f) Q E b := by
  rw [unpinPage, wp_bind, wp_frameAt hf, wp_bind, wp_asserts hpin, wp_bind, wp_updateFrame, wp_ite]
  refine ⟨fun h => ?_, fun h => ?_⟩
  · rw [if_pos h] at hq
    exact hq
  · rw [if_neg h] at hq
    exact hq

end Primitives

/-! Writing a frame back. -/

section Flush
variable {cfg : PoolConfig} {typed : PageId → PageType → Prop} {b : BufferPool} {f : Nat} {p : PageId} {mine : List Nat}

theorem not_blocks_read (h : ¬b.writer f) : b.blocks .read f = false := by
  simp only [blocks, List.any_eq_false, decide_eq_true_eq, not_and, not_or]
  intro g hg hgf
  exact ⟨by decide, fun hw => h ⟨g, hg, hgf, hw⟩⟩

theorem not_blocks (h : b.guardsOn f = 0) (latch : Latch) : b.blocks latch f = false := by
  simp only [blocks, List.any_eq_false, decide_eq_true_eq, not_and]
  intro g hg hgf
  exact absurd hgf (by simpa using List.countP_eq_zero.mp h g hg)

theorem not_writer (h : b.guardsOn f = 0) : ¬b.writer f := by
  intro ⟨g, hg, hgf, _⟩
  exact absurd hgf (by simpa using List.countP_eq_zero.mp h g hg)

/-- The bytes of a frame on disk, and the frame clean. -/
def flushed (b : BufferPool) (f : Nat) (p : PageId) : BufferPool :=
  { b with
    disk := b.disk.tick.setPage p (b.frames f).data
    frames := Function.update b.frames f { b.frames f with flushedEpoch := (b.frames f).dirtyEpoch } }

/-- A system call went wrong, and nothing else happened. -/
def ticked (b : BufferPool) : BufferPool := { b with disk := b.disk.tick }

theorem one_le_iff : (1 : PageId) ≤ p ↔ p ≠ metaPageId ∧ (0 : PageId) ≤ p := by
  have h0 : (0 : PageId).toInt = 0 := by decide
  have h1 : (1 : PageId).toInt = 1 := by decide
  have hm : p ≠ metaPageId ↔ p.toInt ≠ 0 := by
    rw [not_iff_not, ← Int32.toInt_inj]
    exact ⟨fun h => h.trans (by decide), fun h => h.trans (by decide)⟩
  rw [hm, Int32.le_iff_toInt_le, Int32.le_iff_toInt_le, h0, h1]
  omega

theorem markFlushed_dirty {fr : Frame} (h : fr.isDirty = true) :
    fr.markFlushed fr.dirtyEpoch = { fr with flushedEpoch := fr.dirtyEpoch } := by
  unfold Frame.isDirty at h
  rw [Frame.markFlushed, if_pos (by simpa using h)]

theorem wp_flushFrame {Q : Unit → BufferPool → Prop} {E : Status → BufferPool → Prop} (hf : f < b.capacity)
    (hp : 1 ≤ p ∧ p < b.disk.pageCount) (hw : (b.frames f).isDirty = true → ¬b.writer f)
    (hclean : (b.frames f).isDirty = false → Q () b) (hdirty : (b.frames f).isDirty = true → Q () (b.flushed f p))
    (herr : ∀ st : Status, st.code = .ioError → ¬Reliable cfg.disk → (b.frames f).isDirty = true → E st b.ticked) :
    wp (flushFrame cfg f p) Q E b := by
  rw [flushFrame, wp_bind, wp_frameAt hf, wp_ite]
  refine ⟨hclean, fun h => ?_⟩
  have hd : (b.frames f).isDirty = true := by simpa using h
  rw [wp_bind, wp_acquireLatch (not_blocks_read (hw hd))]
  dsimp only
  rw [wp_bind]
  refine wp_onDisk wp_writePage (fun _ d hw => ?_) fun st d he => ?_
  · rw [wp_updateFrame]
    obtain ⟨-, -, -, rfl⟩ := hw
    have : ({ b with disk := b.disk.tick.setPage p (b.frames f).data } : BufferPool).setFrame f
        ((b.frames f).markFlushed (b.frames f).dirtyEpoch) = b.flushed f p := by
      rw [markFlushed_dirty hd]
      rfl
    exact this ▸ hdirty hd
  · cases he with
    | inl he => exact absurd ⟨(one_le_iff.mp hp.1).1, (one_le_iff.mp hp.1).2, hp.2⟩ he.2.1
    | inr he => exact he.2.2.symm ▸ herr st he.2.1 he.1 hd

/-- A pinned frame flushed and unpinned: its pin is back where it was, and so is the candidate set. -/
theorem wp_flushPinned {Q : Except Status Unit → BufferPool → Prop} {E : Status → BufferPool → Prop}
    (hf : f < b.capacity) (hr : b.Resident typed f p) (hw : (b.frames f).isDirty = true → ¬b.writer f)
    (hclean : (b.frames f).isDirty = false → Q (.ok ()) b)
    (hdirty : (b.frames f).isDirty = true → Q (.ok ()) (b.flushed f p))
    (herr : ∀ st : Status, st.code = .ioError → ¬Reliable cfg.disk → (b.frames f).isDirty = true →
      Q (.error st) b.ticked) : wp (flushPinned cfg f p) Q E b := by
  -- Unpinning restores the frame: a candidate of the replacer already, if nobody else pins it.
  have hback : ∀ (b' : BufferPool) (fr : Frame), b'.replacer = b.replacer →
      fr.pinCount = (b.frames f).pinCount → fr.state = .resident →
      (if ({ fr with pinCount := fr.pinCount + 1 } : Frame).pinCount = 1 ∧ fr.state = .resident then
        b'.replacer.setEvictable f true else b'.replacer) = b'.replacer := by
    intro b' fr hrep hpin hstate
    by_cases h0 : (b.guardsOn f) = 0
    · have hc := hr.candidate
      rw [h0, decide_eq_true rfl] at hc
      have hset : b'.replacer.setEvictable f true = b'.replacer := by
        rw [hrep, Replacer.setEvictable, if_pos hc]
      rw [hset, ite_self]
    · have hne : ¬fr.pinCount + 1 = 1 := by
        rw [hpin, hr.pinCount]
        omega
      rw [if_neg fun h => hne h.1]
  have hpos : 0 < (b.frames f).pinCount + 1 := by
    rw [hr.pinCount]
    omega
  have hsame : ∀ fr : Frame, ({ fr with pinCount := fr.pinCount + 1 - 1 } : Frame) = fr := by
    intro fr
    rw [Int.add_sub_cancel]
  rw [flushPinned, wp_bind, wp_updateFrame, wp_bind, wp_attempt]
  refine wp_flushFrame (b := b.setFrame f { b.frames f with pinCount := (b.frames f).pinCount + 1 }) hf hr.inside
    (fun hd => hw (by simpa [setFrame, Frame.isDirty] using hd)) ?_ ?_ ?_
  · intro hd
    have hd' : (b.frames f).isDirty = false := by simpa [setFrame, Frame.isDirty] using hd
    rw [wp_bind]
    refine wp_unpinPage hf (by simpa [setFrame] using hpos) ?_
    have := hclean hd'
    simp only [setFrame, Function.update_self, Function.update_idem, hsame, Function.update_eq_self, wp_pure]
    rw [hback b _ rfl rfl hr.state]
    exact this
  · intro hd
    have hd' : (b.frames f).isDirty = true := by simpa [setFrame, Frame.isDirty] using hd
    rw [wp_bind]
    refine wp_unpinPage hf (by simpa [setFrame, flushed] using hpos) ?_
    have := hdirty hd'
    simp only [setFrame, flushed, Function.update_self, Function.update_idem, Int.add_sub_cancel, wp_pure]
    rw [hback b _ rfl rfl hr.state]
    exact this
  · intro st hst hrel hd
    have hd' : (b.frames f).isDirty = true := by simpa [setFrame, Frame.isDirty] using hd
    rw [wp_bind]
    refine wp_unpinPage hf (by simpa [setFrame, ticked] using hpos) ?_
    have := herr st hst hrel hd'
    simp only [setFrame, ticked, Function.update_self, Function.update_idem, hsame, Function.update_eq_self, wp_pure]
    rw [hback b _ rfl rfl hr.state]
    exact this

end Flush
/-! Steps that touch one frame. -/

/-- Only frame `v`, its mapping and its guards changed; on disk, only pages no other frame holds. -/
structure OnlyFrame (b b' : BufferPool) (v : Nat) : Prop where
  capacity : b'.capacity = b.capacity
  frames : ∀ f, f ≠ v → b'.frames f = b.frames f
  evictable : ∀ f, f ≠ v → b'.replacer.evictable f = b.replacer.evictable f
  table : ∀ p f, f ≠ v → (b'.table p = some f ↔ b.table p = some f)
  guards : ∀ f, f ≠ v → b'.guardsOn f = b.guardsOn f
  writer : ∀ f, f ≠ v → (b'.writer f ↔ b.writer f)
  pageCount : b.disk.pageCount ≤ b'.disk.pageCount
  file : ∀ p f, f ≠ v → b.table p = some f → b'.disk.file p = b.disk.file p

section Transitions
variable {typed : PageId → PageType → Prop} {b b' : BufferPool} {v f : Nat} {p : PageId} {mine mine' : List Nat}

theorem Inv.resident (h : Inv typed b mine) (hp : b.table p = some f) : f < b.capacity ∧ b.Resident typed f p := by
  obtain ⟨hcap, hown, hid⟩ := h.table p f hp
  obtain ⟨q, hq⟩ := h.frames f hcap hown
  exact ⟨hcap, (hq.pageId.symm.trans hid) ▸ hq⟩

theorem OnlyFrame.vacant (ho : OnlyFrame b b' v) (hne : f ≠ v) (h : b.Vacant f) : b'.Vacant f where
  state := ho.frames f hne ▸ h.state
  pageId := ho.frames f hne ▸ h.pageId
  pinCount := ho.frames f hne ▸ h.pinCount
  dirtyEpoch := ho.frames f hne ▸ h.dirtyEpoch
  flushedEpoch := ho.frames f hne ▸ h.flushedEpoch
  candidate := ho.evictable f hne ▸ h.candidate
  guards := ho.guards f hne ▸ h.guards

theorem OnlyFrame.resident (ho : OnlyFrame b b' v) (hne : f ≠ v) (h : b.Resident typed f p) :
    b'.Resident typed f p where
  state := ho.frames f hne ▸ h.state
  pageId := ho.frames f hne ▸ h.pageId
  mapped := (ho.table p f hne).mpr h.mapped
  pinCount := by rw [ho.frames f hne, ho.guards f hne]; exact h.pinCount
  candidate := by rw [ho.evictable f hne, ho.guards f hne]; exact h.candidate
  inside := ⟨h.inside.1, PageId.lt_of_lt_of_le h.inside.2 ho.pageCount⟩
  header := ho.frames f hne ▸ h.header
  typed := ho.frames f hne ▸ h.typed
  epochs := ho.frames f hne ▸ h.epochs
  saved hw hd := by
    rw [ho.frames f hne, ho.file p f hne h.mapped]
    exact h.saved (fun hw' => hw ((ho.writer f hne).mpr hw')) (ho.frames f hne ▸ hd)

/-- The rule for such a step: what is left to show is about `v`. -/
theorem Inv.onlyFrame (h : Inv typed b mine) (ho : OnlyFrame b b' v)
    (hdisk : ∃ kind, Sound kind b'.disk {p | 2 ≤ p ∧ b'.table p ≠ none})
    (hcat : typed catalogRootPageId (b'.disk.file catalogRootPageId).header.pageType)
    (hrep : b'.replacer.Counted ∧ b'.replacer.capacity = b'.capacity)
    (hmem : ∀ f, f ≠ v → (f ∈ mine' ++ b'.freeList ↔ f ∈ mine ++ b.freeList)) (hnodup : (mine' ++ b'.freeList).Nodup)
    (hv : (v ∈ mine' ++ b'.freeList ∧ v < b'.capacity ∧ b'.Vacant v ∧ ∀ p, b'.table p ≠ some v) ∨
      (v ∉ mine' ++ b'.freeList ∧ v < b'.capacity ∧ ∃ p, b'.Resident typed v p ∧ ∀ q, b'.table q = some v → q = p))
    (hheld : ∀ g ∈ b'.held, b'.table g.page = some g.frame) : Inv typed b' mine' where
  disk := hdisk
  catalog := hcat
  counted := hrep.1
  capacity := hrep.2
  nodup := hnodup
  vacant f hf := by
    by_cases hne : f = v
    · obtain ⟨-, hcap, hvac, -⟩ | ⟨hn, -⟩ := hv
      · exact hne ▸ ⟨hcap, hvac⟩
      · exact absurd (hne ▸ hf) hn
    · obtain ⟨hcap, hvac⟩ := h.vacant f ((hmem f hne).mp hf)
      exact ⟨ho.capacity ▸ hcap, ho.vacant hne hvac⟩
  frames f hcap hf := by
    by_cases hne : f = v
    · obtain ⟨hn, -⟩ | ⟨-, -, q, hq, -⟩ := hv
      · exact absurd (hne ▸ hn) hf
      · exact ⟨q, hne ▸ hq⟩
    · obtain ⟨q, hq⟩ := h.frames f (ho.capacity ▸ hcap) fun hn => hf ((hmem f hne).mpr hn)
      exact ⟨q, ho.resident hne hq⟩
  table q f hq := by
    by_cases hne : f = v
    · obtain ⟨-, -, -, hn⟩ | ⟨hn, hcap, r, hr, huniq⟩ := hv
      · exact absurd (hne ▸ hq) (hn q)
      · exact hne ▸ ⟨hcap, hn, hr.pageId.trans (huniq q (hne ▸ hq)).symm⟩
    · obtain ⟨hcap, hown, hid⟩ := h.table q f ((ho.table q f hne).mp hq)
      exact ⟨ho.capacity ▸ hcap, fun hn => hown ((hmem f hne).mp hn), ho.frames f hne ▸ hid⟩
  held := hheld

/-! What the pool shows. -/

theorem view_mapped (h : b.table p = some f) : b.view p = some (b.frames f).data := by
  rw [view, h]

theorem view_unmapped (h : b.table p = none) : b.view p = onDiskView b.disk p := by
  rw [view, h]

theorem onDiskView_congr {d d' : DiskManager} (hcount : p < d'.pageCount ↔ p < d.pageCount)
    (hfile : p < d.pageCount → 1 ≤ p → d'.file p = d.file p) : onDiskView d' p = onDiskView d p := by
  by_cases h : 1 ≤ p ∧ p < d.pageCount
  · simp only [onDiskView, hcount, hfile h.2 h.1]
  · rw [onDiskView, onDiskView, if_neg fun hn => h ⟨hn.1, hcount.mp hn.2.1⟩, if_neg fun hn => h ⟨hn.1, hn.2.1⟩]

/-- A resident page that is on disk would be loaded as it is. -/
theorem Resident.onDiskView (hr : b.Resident typed f p) (hfree : NoFree typed)
    (hsaved : b.disk.file p = (b.frames f).data) : onDiskView b.disk p = some (b.frames f).data := by
  have htype : (b.frames f).data.header.pageType ≠ .free := fun he => hfree p (he ▸ hr.typed)
  unfold BufferPool.onDiskView
  rw [hsaved, if_pos ⟨hr.inside.1, hr.inside.2, htype, hr.header⟩]

theorem Inv.table_unique {q : PageId} (h : Inv typed b mine) (hp : b.table p = some f) (hq : b.table q = some f) :
    p = q := (h.table p f hp).2.2.symm.trans (h.table q f hq).2.2

theorem Inv.two_le_count (h : Inv typed b mine) : 2 ≤ b.disk.pageCount ∧ b.disk.pageCount ≤ b.disk.fileEnd := by
  obtain ⟨kind, hs⟩ := h.disk
  exact ⟨hs.two_le, hs.count_le⟩

/-- A write to a page in use. -/
theorem sound_write {d : DiskManager} {used : Set PageId} {pg : Page} (h : ∃ kind, Sound kind d used) (hp : 1 ≤ p)
    (hused : 2 ≤ p → p ∈ used) : ∃ kind, Sound kind (d.setPage p pg) used := by
  obtain ⟨kind, hs⟩ := h
  obtain ⟨hmeta, h0⟩ := one_le_iff.mp hp
  by_cases hcat : p = catalogRootPageId
  · exact ⟨_, hcat ▸ hs.setCatalog⟩
  · have htwo := PageId.two_le h0 hmeta hcat
    exact ⟨kind, hs.setPage htwo (.inl (hused htwo))⟩

/-! The steps. -/

theorem Inv.ticked (h : Inv typed b mine) : Inv typed b.ticked mine := by
  obtain ⟨kind, hs⟩ := h.disk
  exact { h with
    disk := ⟨kind, hs.tick⟩
    vacant := fun f hf => ⟨(h.vacant f hf).1, { (h.vacant f hf).2 with }⟩
    frames := fun f hcap hf => (h.frames f hcap hf).imp fun q hq => { hq with } }

theorem view_ticked : b.ticked.view = b.view := rfl

theorem Inv.flushed (h : Inv typed b mine) (hm : b.table p = some f) : Inv typed (b.flushed f p) mine := by
  obtain ⟨hcap, hr⟩ := h.resident hm
  have ho : OnlyFrame b (b.flushed f p) f := by
    refine ⟨rfl, fun g hg => Function.update_of_ne hg _ _, fun _ _ => rfl, fun _ _ _ => Iff.rfl, fun _ _ => rfl,
      fun _ _ => Iff.rfl, Int32.le_refl _, fun q g hg hq => setPage_other ?_⟩
    rintro rfl
    exact hg (Option.some.inj (hq.symm.trans hm))
  have hfr : (b.flushed f p).frames f = { b.frames f with flushedEpoch := (b.frames f).dirtyEpoch } :=
    Function.update_self _ _ _
  refine h.onlyFrame ho ?_ ?_ ⟨h.counted, h.capacity⟩ (fun _ _ => Iff.rfl) h.nodup (.inr ⟨(h.table p f hm).2.1, hcap,
    p, ⟨?_, ?_, hm, ?_, hr.candidate, hr.inside, ?_, ?_, ?_, fun _ _ => ?_⟩, fun q hq => h.table_unique hq hm⟩) h.held
  · obtain ⟨kind, hs⟩ := h.disk
    exact sound_write ⟨kind, hs.tick⟩ hr.inside.1 fun h2 => ⟨h2, fun hn => Option.some_ne_none f (hm.symm.trans hn)⟩
  · by_cases hp : catalogRootPageId = p
    · subst hp
      show typed _ ((b.disk.tick.setPage catalogRootPageId (b.frames f).data).file catalogRootPageId).header.pageType
      rw [setPage_same]
      exact hr.typed
    · show typed _ ((b.disk.tick.setPage p (b.frames f).data).file catalogRootPageId).header.pageType
      rw [setPage_other hp]
      exact h.catalog
  · rw [hfr]; exact hr.state
  · rw [hfr]; exact hr.pageId
  · rw [hfr]; exact hr.pinCount
  · rw [hfr]; exact hr.header
  · rw [hfr]; exact hr.typed
  · rw [hfr]
  · rw [hfr]
    exact setPage_same

theorem flushed_data (g : Nat) : ((b.flushed f p).frames g).data = (b.frames g).data := by
  by_cases hg : g = f
  · subst hg
    show (Function.update b.frames g _ g).data = _
    rw [Function.update_self]
  · show (Function.update b.frames f _ g).data = _
    rw [Function.update_of_ne hg]

theorem Inv.view_flushed (hm : b.table p = some f) : (b.flushed f p).view = b.view := by
  funext q
  cases hq : b.table q with
  | some g => rw [view_mapped hq, view_mapped (b := b.flushed f p) hq, flushed_data]
  | none =>
    rw [view_unmapped hq, view_unmapped (b := b.flushed f p) hq]
    refine onDiskView_congr Iff.rfl fun _ _ => setPage_other ?_
    rintro rfl
    rw [hm] at hq
    cases hq

theorem Inv.pop {rest : List Nat} (h : Inv typed b mine) (hfree : b.freeList = f :: rest) :
    Inv typed { b with freeList := rest } (f :: mine) := by
  have hperm : (f :: mine ++ rest).Perm (mine ++ b.freeList) := hfree ▸ List.perm_middle.symm
  exact { h with
    nodup := hperm.nodup_iff.mpr h.nodup
    vacant := fun g hg => ⟨(h.vacant g (hperm.mem_iff.mp hg)).1, { (h.vacant g (hperm.mem_iff.mp hg)).2 with }⟩
    frames := fun g hcap hg => (h.frames g hcap fun hn => hg (hperm.mem_iff.mpr hn)).imp fun q hq => { hq with }
    table := fun q g hq =>
      ⟨(h.table q g hq).1, fun hn => (h.table q g hq).2.1 (hperm.mem_iff.mp hn), (h.table q g hq).2.2⟩ }

theorem Inv.push (h : Inv typed b (f :: mine)) : Inv typed { b with freeList := f :: b.freeList } mine := by
  have hperm : (mine ++ f :: b.freeList).Perm (f :: mine ++ b.freeList) := List.perm_middle
  exact { h with
    nodup := hperm.nodup_iff.mpr h.nodup
    vacant := fun g hg => ⟨(h.vacant g (hperm.mem_iff.mp hg)).1, { (h.vacant g (hperm.mem_iff.mp hg)).2 with }⟩
    frames := fun g hcap hg => (h.frames g hcap fun hn => hg (hperm.mem_iff.mpr hn)).imp fun q hq => { hq with }
    table := fun q g hq =>
      ⟨(h.table q g hq).1, fun hn => (h.table q g hq).2.1 (hperm.mem_iff.mp hn), (h.table q g hq).2.2⟩ }

/-- Another disk under the same frames. -/
theorem Inv.setDisk {d : DiskManager} (h : Inv typed b mine)
    (hdisk : ∃ kind, Sound kind d {q | 2 ≤ q ∧ b.table q ≠ none})
    (hcat : typed catalogRootPageId (d.file catalogRootPageId).header.pageType)
    (hcount : b.disk.pageCount ≤ d.pageCount) (hfile : ∀ q f, b.table q = some f → d.file q = b.disk.file q) :
    Inv typed { b with disk := d } mine :=
  { h with
    disk := hdisk
    catalog := hcat
    vacant := fun f hf => ⟨(h.vacant f hf).1, { (h.vacant f hf).2 with }⟩
    frames := fun f hcap hf => (h.frames f hcap hf).imp fun q hq => { hq with
      inside := ⟨hq.inside.1, PageId.lt_of_lt_of_le hq.inside.2 hcount⟩
      saved := fun hw hd => (hfile q f hq.mapped).trans (hq.saved hw hd) } }

/-- The bytes of a frame the running call owns do not matter. -/
theorem Inv.setData (h : Inv typed b (f :: mine)) (pg : Page) :
    Inv typed (b.setFrame f { b.frames f with data := pg }) (f :: mine) := by
  obtain ⟨hcap, hvac⟩ := h.vacant f (by simp)
  have hfr : (b.setFrame f { b.frames f with data := pg }).frames f = { b.frames f with data := pg } :=
    Function.update_self _ _ _
  refine h.onlyFrame (v := f) ⟨rfl, fun g hg => Function.update_of_ne hg _ _, fun _ _ => rfl, fun _ _ _ => Iff.rfl,
    fun _ _ => rfl, fun _ _ => Iff.rfl, Int32.le_refl _, fun _ _ _ _ => rfl⟩ h.disk h.catalog ⟨h.counted, h.capacity⟩
    (fun _ _ => Iff.rfl) h.nodup (.inl ⟨by simp, hcap, ⟨?_, ?_, ?_, ?_, ?_, hvac.candidate, hvac.guards⟩, fun q hq => ?_⟩)
    h.held
  · rw [hfr]; exact hvac.state
  · rw [hfr]; exact hvac.pageId
  · rw [hfr]; exact hvac.pinCount
  · rw [hfr]; exact hvac.dirtyEpoch
  · rw [hfr]; exact hvac.flushedEpoch
  · exact (h.table q f hq).2.1 (by simp)

/-- Frame `v` unmapped and free, in the hands of the running call. -/
def vacated (b : BufferPool) (v : Nat) (p : PageId) (r : Replacer) : BufferPool :=
  { b with
    table := Function.update b.table p none
    frames := Function.update b.frames v
      { (b.frames v).resetEpochs with pageId := invalidPage, state := .free, pinCount := 0 }
    replacer := r }

/-- Out of the candidate set. -/
structure Removed (r : Replacer) (v : Nat) (r' : Replacer) : Prop where
  evictable : r'.evictable = Function.update r.evictable v false
  capacity : r'.capacity = r.capacity
  counted : r'.Counted

theorem table_erase {q : PageId} (hq : Function.update b.table p none q = some f) : q ≠ p ∧ b.table q = some f := by
  by_cases hqp : q = p
  · subst hqp
    rw [Function.update_self] at hq
    cases hq
  · rw [Function.update_of_ne hqp] at hq
    exact ⟨hqp, hq⟩

theorem Inv.vacated {r : Replacer} (h : Inv typed b mine) (hm : b.table p = some v) (hg : b.guardsOn v = 0)
    (hr : Removed b.replacer v r) : Inv typed (b.vacated v p r) (v :: mine) := by
  obtain ⟨hcap, hres⟩ := h.resident hm
  have hown := (h.table p v hm).2.1
  have hfr : (b.vacated v p r).frames v =
      { (b.frames v).resetEpochs with pageId := invalidPage, state := .free, pinCount := 0 } :=
    Function.update_self _ _ _
  have htab : ∀ q f, f ≠ v → ((b.vacated v p r).table q = some f ↔ b.table q = some f) := by
    intro q f hf
    refine ⟨fun hq => (table_erase hq).2, fun hq => ?_⟩
    show Function.update b.table p none q = some f
    rw [Function.update_of_ne]
    · exact hq
    · rintro rfl
      exact hf (Option.some.inj (hq.symm.trans hm))
  have hgone : ∀ q, (b.vacated v p r).table q ≠ some v := by
    intro q hq
    obtain ⟨hne, hq⟩ := table_erase hq
    exact hne (h.table_unique hq hm)
  refine h.onlyFrame (v := v) ⟨rfl, fun g hg => Function.update_of_ne hg _ _, fun g hg => ?_, htab, fun _ _ => rfl,
    fun _ _ => Iff.rfl, Int32.le_refl _, fun _ _ _ _ => rfl⟩ ?_ h.catalog ⟨hr.counted, hr.capacity.trans h.capacity⟩
    (fun g hg => by simp [BufferPool.vacated, hg]) ?_ (.inl ⟨by simp, hcap, ⟨?_, ?_, ?_, ?_, ?_, ?_, hg⟩, hgone⟩)
    fun g hgh => ?_
  · show r.evictable g = b.replacer.evictable g
    rw [hr.evictable, Function.update_of_ne hg]
  · obtain ⟨kind, hs⟩ := h.disk
    refine ⟨kind, hs.subset fun q hq => ⟨hq.1, fun hn => hq.2 ?_⟩⟩
    show Function.update b.table p none q = none
    by_cases hqp : q = p
    · rw [hqp, Function.update_self]
    · rw [Function.update_of_ne hqp, hn]
  · exact List.nodup_cons.mpr ⟨hown, h.nodup⟩
  · rw [hfr]
  · rw [hfr]
  · rw [hfr]
  · rw [hfr]; rfl
  · rw [hfr]; rfl
  · show r.evictable v = false
    rw [hr.evictable, Function.update_self]
  · -- A guard on `v` would be counted.
    refine (htab g.page g.frame fun he => ?_).mpr (h.held g hgh)
    exact absurd he (by simpa using List.countP_eq_zero.mp hg g hgh)

theorem view_vacated_other {q : PageId} {r : Replacer} (hq : q ≠ p) (h : Inv typed b mine) (hm : b.table p = some v) :
    (b.vacated v p r).view q = b.view q := by
  have htab : (b.vacated v p r).table q = b.table q := Function.update_of_ne hq _ _
  cases ht : b.table q with
  | none => rw [view_unmapped ht, view_unmapped (htab.trans ht)]; rfl
  | some g =>
    have hgv : g ≠ v := fun he => hq (h.table_unique (he ▸ ht) hm)
    rw [view_mapped ht, view_mapped (htab.trans ht)]
    show some (Function.update b.frames v _ g).data = _
    rw [Function.update_of_ne hgv]

theorem view_vacated_same {r : Replacer} : (b.vacated v p r).view p = onDiskView b.disk p :=
  view_unmapped (Function.update_self _ _ _)

/-- Vacating a clean frame is not seen. -/
theorem Inv.view_vacated {r : Replacer} (h : Inv typed b mine) (hm : b.table p = some v) (hg : b.guardsOn v = 0)
    (hclean : (b.frames v).isDirty = false) (hfree : NoFree typed) : (b.vacated v p r).view = b.view := by
  obtain ⟨-, hres⟩ := h.resident hm
  funext q
  by_cases hq : q = p
  · subst hq
    rw [view_vacated_same, view_mapped hm]
    exact hres.onDiskView hfree (hres.saved (not_writer hg) hclean)
  · exact view_vacated_other hq h hm

/-- Frame `f` holding page `p`, with one guard on it. -/
def published (b : BufferPool) (f : Nat) (p : PageId) (pg : Page) (latch : Latch) : BufferPool :=
  { b with
    table := Function.update b.table p (some f)
    frames := Function.update b.frames f ⟨pg, .resident, p, 1, 0, 0⟩
    replacer := b.replacer.recordAccess f
    held := ⟨f, p, latch⟩ :: b.held }

theorem guardsOn_cons {g : Held} {b : BufferPool} :
    ({ b with held := g :: b.held } : BufferPool).guardsOn f = b.guardsOn f + if g.frame = f then 1 else 0 := by
  simp only [guardsOn, List.countP_cons, decide_eq_true_eq]

theorem writer_cons_of_ne {g : Held} {b : BufferPool} (hne : g.frame ≠ f) :
    ({ b with held := g :: b.held } : BufferPool).writer f ↔ b.writer f := by
  constructor
  · intro ⟨x, hx, hxf, hxw⟩
    cases List.mem_cons.mp hx with
    | inl he => exact absurd (he ▸ hxf) hne
    | inr hx => exact ⟨x, hx, hxf, hxw⟩
  · intro ⟨x, hx, hxf, hxw⟩
    exact ⟨x, List.mem_cons_of_mem _ hx, hxf, hxw⟩

theorem Inv.published {pg : Page} {latch : Latch} (h : Inv typed b (f :: mine)) (hnone : b.table p = none)
    (hin : 1 ≤ p ∧ p < b.disk.pageCount) (hhead : pg.header.pageId = p) (htyped : typed p pg.header.pageType)
    (hdisk : ∃ kind, Sound kind b.disk {q | 2 ≤ q ∧ (q = p ∨ b.table q ≠ none)})
    (hsaved : latch = .write ∨ b.disk.file p = pg) : Inv typed (b.published f p pg latch) mine := by
  obtain ⟨hcap, hvac⟩ := h.vacant f (by simp)
  have hnd := List.nodup_cons.mp h.nodup
  have hfr : (b.published f p pg latch).frames f = ⟨pg, .resident, p, 1, 0, 0⟩ := Function.update_self _ _ _
  have hguards : (b.published f p pg latch).guardsOn f = 1 := by
    have := guardsOn_cons (f := f) (g := ⟨f, p, latch⟩) (b := b)
    rw [if_pos rfl, hvac.guards] at this
    exact this
  have htab : ∀ q g, g ≠ f → ((b.published f p pg latch).table q = some g ↔ b.table q = some g) := by
    intro q g hg
    show Function.update b.table p (some f) q = some g ↔ _
    by_cases hq : q = p
    · subst hq
      rw [Function.update_self, hnone]
      exact ⟨fun he => absurd (Option.some.inj he).symm hg, fun he => by cases he⟩
    · rw [Function.update_of_ne hq]
  have hnew : (b.published f p pg latch).table p = some f := Function.update_self _ _ _
  refine h.onlyFrame (v := f) ⟨rfl, fun g hg => Function.update_of_ne hg _ _, fun g hg => ?_, htab, fun g hg => ?_,
    fun g hg => writer_cons_of_ne (Ne.symm hg), Int32.le_refl _, fun _ _ _ _ => rfl⟩ ?_ h.catalog
    ⟨h.counted.recordAccess f, ?_⟩ (fun g hg => by simp [BufferPool.published, hg]) hnd.2
    (.inr ⟨hnd.1, hcap, p, ⟨?_, ?_, hnew, ?_, ?_, hin, ?_, ?_, ?_, fun hw _ => ?_⟩, fun q hq => ?_⟩) fun g hg => ?_
  · exact congrFun Replacer.recordAccess_evictable g
  · exact guardsOn_cons.trans (by rw [if_neg (Ne.symm hg)]; rfl)
  · obtain ⟨kind, hs⟩ := hdisk
    refine ⟨kind, hs.subset fun q hq => ⟨hq.1, ?_⟩⟩
    by_cases hqp : q = p
    · exact .inl hqp
    · exact .inr fun hn => hq.2 ((Function.update_of_ne hqp _ _).trans hn)
  · exact Replacer.recordAccess_capacity.trans h.capacity
  · rw [hfr]
  · rw [hfr]
  · rw [hfr, hguards]; rfl
  · rw [hguards]
    exact (congrFun Replacer.recordAccess_evictable f).trans (hvac.candidate.trans (by decide))
  · rw [hfr]; exact hhead
  · rw [hfr]; exact htyped
  · rw [hfr]
  · rw [hfr]
    obtain hl | hl := hsaved
    · exact absurd ⟨⟨f, p, latch⟩, List.mem_cons_self, rfl, hl⟩ hw
    · exact hl
  · by_contra hqp
    have : b.table q = some f := (Function.update_of_ne hqp _ _).symm.trans hq
    exact (h.table q f this).2.1 (by simp)
  · cases List.mem_cons.mp hg with
    | inl he => exact he ▸ hnew
    | inr hg =>
      have hgt := h.held g hg
      have hgf : g.frame ≠ f := fun he => (h.table _ _ (he ▸ hgt)).2.1 (by simp)
      exact (htab _ _ hgf).mpr hgt

theorem view_published {pg : Page} {latch : Latch} (h : Inv typed b (f :: mine)) (hnone : b.table p = none) :
    (b.published f p pg latch).view = Function.update b.view p (some pg) := by
  funext q
  by_cases hq : q = p
  · subst hq
    rw [Function.update_self, view_mapped (f := f) (Function.update_self _ _ _)]
    show some (Function.update b.frames f _ f).data = _
    rw [Function.update_self]
  · have htab : (b.published f p pg latch).table q = b.table q := Function.update_of_ne hq _ _
    rw [Function.update_of_ne hq]
    cases ht : b.table q with
    | none => rw [view_unmapped ht, view_unmapped (htab.trans ht)]; rfl
    | some g =>
      have hgf : g ≠ f := fun he => (h.table _ _ (he ▸ ht)).2.1 (by simp)
      rw [view_mapped ht, view_mapped (htab.trans ht)]
      show some (Function.update b.frames f _ g).data = _
      rw [Function.update_of_ne hgf]

/-- One more guard on a frame that holds its page. -/
def joined (b : BufferPool) (f : Nat) (p : PageId) (latch : Latch) : BufferPool :=
  { b with
    frames := Function.update b.frames f { b.frames f with pinCount := (b.frames f).pinCount + 1 }
    replacer := if (b.frames f).pinCount = 0 then (b.replacer.recordAccess f).setEvictable f false
      else b.replacer.recordAccess f
    held := ⟨f, p, latch⟩ :: b.held }

/-- Whatever the pin count was, the frame is no candidate afterwards. -/
theorem Resident.joined_removed (hr : b.Resident typed f p) (hc : b.replacer.Counted)
    (hcap : f < b.replacer.capacity) : Removed b.replacer f (b.joined f p .read).replacer := by
  unfold joined
  by_cases h0 : (b.frames f).pinCount = 0
  · simp only [h0, if_true]
    refine ⟨?_, ?_, (hc.recordAccess f).setEvictable (by simpa using hcap) false⟩
    · rw [Replacer.setEvictable_evictable, Replacer.recordAccess_evictable]
    · rw [Replacer.setEvictable_capacity, Replacer.recordAccess_capacity]
  · simp only [h0, if_false]
    refine ⟨?_, Replacer.recordAccess_capacity, hc.recordAccess f⟩
    have hev : b.replacer.evictable f = false := by
      rw [hr.candidate]
      have : b.guardsOn f ≠ 0 := fun he => h0 (by rw [hr.pinCount, he]; rfl)
      simpa using this
    rw [Replacer.recordAccess_evictable, ← hev, Function.update_eq_self]

theorem Inv.joined {latch : Latch} (h : Inv typed b mine) (hm : b.table p = some f) :
    Inv typed (b.joined f p latch) mine := by
  obtain ⟨hcap, hr⟩ := h.resident hm
  have hrem : Removed b.replacer f (b.joined f p latch).replacer :=
    hr.joined_removed h.counted (h.capacity.symm ▸ hcap)
  have hfr : (b.joined f p latch).frames f = { b.frames f with pinCount := (b.frames f).pinCount + 1 } :=
    Function.update_self _ _ _
  have hguards : (b.joined f p latch).guardsOn f = b.guardsOn f + 1 :=
    guardsOn_cons.trans (by rw [if_pos rfl])
  refine h.onlyFrame (v := f) ⟨rfl, fun g hg => Function.update_of_ne hg _ _, fun g hg => ?_, fun _ _ _ => Iff.rfl,
    fun g hg => ?_, fun g hg => writer_cons_of_ne (Ne.symm hg), Int32.le_refl _, fun _ _ _ _ => rfl⟩ h.disk h.catalog
    ⟨hrem.counted, hrem.capacity.trans h.capacity⟩ (fun _ _ => Iff.rfl) h.nodup
    (.inr ⟨(h.table p f hm).2.1, hcap, p, ⟨?_, ?_, hm, ?_, ?_, hr.inside, ?_, ?_, ?_, fun hw hd => ?_⟩,
      fun q hq => h.table_unique hq hm⟩) fun g hg => ?_
  · rw [hrem.evictable, Function.update_of_ne hg]
  · exact guardsOn_cons.trans (by rw [if_neg (Ne.symm hg)]; rfl)
  · rw [hfr]; exact hr.state
  · rw [hfr]; exact hr.pageId
  · rw [hfr, hguards]
    show (b.frames f).pinCount + 1 = _
    rw [hr.pinCount]
    rfl
  · rw [hrem.evictable, Function.update_self, hguards]
    simp
  · rw [hfr]; exact hr.header
  · rw [hfr]; exact hr.typed
  · rw [hfr]; exact hr.epochs
  · rw [hfr] at hd ⊢
    refine hr.saved (fun ⟨g, hg, hgf, hgw⟩ => hw ⟨g, List.mem_cons_of_mem _ hg, hgf, hgw⟩) hd
  · cases List.mem_cons.mp hg with
    | inl he => exact he ▸ hm
    | inr hg => exact h.held g hg

theorem view_joined {latch : Latch} : (b.joined f p latch).view = b.view := by
  funext q
  cases ht : b.table q with
  | none => rw [view_unmapped ht, view_unmapped (b := b.joined f p latch) ht]; rfl
  | some g =>
    rw [view_mapped ht, view_mapped (b := b.joined f p latch) ht]
    show some (Function.update b.frames f _ g).data = _
    by_cases hg : g = f
    · rw [hg, Function.update_self]
    · rw [Function.update_of_ne hg]

/-- A guard dropped. -/
def dropped (b : BufferPool) (g : Held) : BufferPool :=
  let fr := if g.latch = .write then (b.frames g.frame).markDirty else b.frames g.frame
  { b with
    frames := Function.update b.frames g.frame { fr with pinCount := fr.pinCount - 1 }
    replacer := if (b.frames g.frame).pinCount = 1 then b.replacer.setEvictable g.frame true else b.replacer
    held := b.held.erase g }

theorem guardsOn_erase {g : Held} (hg : g ∈ b.held) :
    ({ b with held := b.held.erase g } : BufferPool).guardsOn f = b.guardsOn f - if g.frame = f then 1 else 0 := by
  simp only [guardsOn, List.countP_erase, hg, true_and, decide_eq_true_eq]

/-- Dropping a guard leaves every other guard's latch alone. -/
theorem writer_erase {g : Held} (hne : g.frame ≠ f ∨ g.latch = .read) :
    ({ b with held := b.held.erase g } : BufferPool).writer f ↔ b.writer f := by
  constructor
  · intro ⟨x, hx, hxf, hxw⟩
    exact ⟨x, List.mem_of_mem_erase hx, hxf, hxw⟩
  · intro ⟨x, hx, hxf, hxw⟩
    refine ⟨x, (List.mem_erase_of_ne ?_).mpr hx, hxf, hxw⟩
    rintro rfl
    obtain hn | hn := hne
    · exact hn hxf
    · rw [hn] at hxw
      cases hxw

theorem dropped_frame {g : Held} (hg : (b.frames g.frame).flushedEpoch ≤ (b.frames g.frame).dirtyEpoch) :
    ∃ fr, (b.dropped g).frames g.frame = fr ∧ fr.data = (b.frames g.frame).data ∧
      fr.state = (b.frames g.frame).state ∧ fr.pageId = (b.frames g.frame).pageId ∧
      fr.pinCount = (b.frames g.frame).pinCount - 1 ∧ fr.flushedEpoch ≤ fr.dirtyEpoch ∧
      (fr.isDirty = false → g.latch = .read ∧ (b.frames g.frame).isDirty = false) := by
  refine ⟨_, Function.update_self _ _ _, ?_⟩
  cases hl : g.latch with
  | read => exact ⟨rfl, rfl, rfl, rfl, hg, fun hd => ⟨rfl, hd⟩⟩
  | write =>
    refine ⟨rfl, rfl, rfl, rfl, Nat.le_succ_of_le hg, fun hd => absurd hd ?_⟩
    -- The drop of a write guard leaves the frame dirty.
    simp [Frame.isDirty, Frame.markDirty, Nat.lt_succ_of_le hg]

theorem Inv.dropped {g : Held} (h : Inv typed b mine) (hg : g ∈ b.held) : Inv typed (b.dropped g) mine := by
  have hm := h.held g hg
  obtain ⟨hcap, hr⟩ := h.resident hm
  obtain ⟨fr, hfr, hdata, hstate, hid, hpin, hep, hclean⟩ := dropped_frame hr.epochs
  have hpos : 0 < b.guardsOn g.frame := List.countP_pos_iff.mpr ⟨g, hg, by simp⟩
  have hguards : (b.dropped g).guardsOn g.frame = b.guardsOn g.frame - 1 :=
    (guardsOn_erase hg).trans (by rw [if_pos rfl])
  have hev : (b.dropped g).replacer.evictable =
      Function.update b.replacer.evictable g.frame (decide (b.guardsOn g.frame - 1 = 0)) ∧
      (b.dropped g).replacer.Counted ∧ (b.dropped g).replacer.capacity = b.replacer.capacity := by
    unfold BufferPool.dropped
    by_cases h1 : (b.frames g.frame).pinCount = 1
    · have : b.guardsOn g.frame = 1 := by
        have := hr.pinCount
        omega
      simp only [h1, if_true, this]
      refine ⟨?_, h.counted.setEvictable (h.capacity.symm ▸ hcap) true, Replacer.setEvictable_capacity true⟩
      rw [Replacer.setEvictable_evictable]
      rfl
    · simp only [h1, if_false]
      have hne : b.guardsOn g.frame - 1 ≠ 0 := by
        have := hr.pinCount
        omega
      have hf : b.replacer.evictable g.frame = false := by
        rw [hr.candidate, decide_eq_false (by omega)]
      refine ⟨?_, h.counted, trivial⟩
      rw [decide_eq_false hne, ← hf, Function.update_eq_self]
  refine h.onlyFrame (v := g.frame) ⟨rfl, fun f hf => Function.update_of_ne hf _ _, fun f hf => ?_,
    fun _ _ _ => Iff.rfl, fun f hf => ?_, fun f hf => writer_erase (.inl (Ne.symm hf)), Int32.le_refl _,
    fun _ _ _ _ => rfl⟩ h.disk h.catalog ⟨hev.2.1, hev.2.2.trans h.capacity⟩ (fun _ _ => Iff.rfl) h.nodup
    (.inr ⟨(h.table _ _ hm).2.1, hcap, g.page, ⟨?_, ?_, hm, ?_, ?_, hr.inside, ?_, ?_, ?_, fun hw hd => ?_⟩,
      fun q hq => h.table_unique hq hm⟩) fun x hx => h.held x (List.mem_of_mem_erase hx)
  · rw [hev.1, Function.update_of_ne hf]
  · exact (guardsOn_erase hg).trans (by rw [if_neg (Ne.symm hf)]; rfl)
  · rw [hfr, hstate]; exact hr.state
  · rw [hfr, hid]; exact hr.pageId
  · rw [hfr, hpin, hguards, hr.pinCount]
    omega
  · rw [hev.1, Function.update_self, hguards]
  · rw [hfr, hdata]; exact hr.header
  · rw [hfr, hdata]; exact hr.typed
  · rw [hfr]; exact hep
  · rw [hfr] at hd ⊢
    obtain ⟨hread, hd⟩ := hclean hd
    rw [hdata]
    exact hr.saved (fun hw' => hw ((writer_erase (.inr hread)).mpr hw')) hd

theorem dropped_data {g : Held} (f : Nat) : ((b.dropped g).frames f).data = (b.frames f).data := by
  show (Function.update b.frames g.frame _ f).data = _
  by_cases hf : f = g.frame
  · subst hf
    rw [Function.update_self]
    cases g.latch <;> rfl
  · rw [Function.update_of_ne hf]

theorem view_dropped {g : Held} : (b.dropped g).view = b.view := by
  funext q
  cases ht : b.table q with
  | none => rw [view_unmapped ht, view_unmapped (b := b.dropped g) ht]; rfl
  | some f => rw [view_mapped ht, view_mapped (b := b.dropped g) ht, dropped_data]

/-- A change through a write guard. -/
def edited (b : BufferPool) (g : Held) (e : Edit) : BufferPool :=
  b.setFrame g.frame { b.frames g.frame with data := e.apply (b.frames g.frame).data }

/-- The callers keep their promise about page types. -/
def Edit.Allowed (typed : PageId → PageType → Prop) (p : PageId) : Edit → Prop
  | .pageType type => typed p type
  | _ => True

theorem Edit.apply_pageId (pg : Page) (e : Edit) : (e.apply pg).header.pageId = pg.header.pageId := by
  cases e <;> rfl

theorem Edit.apply_typed {pg : Page} {e : Edit} (h : Edit.Allowed typed p e) (hpg : typed p pg.header.pageType) :
    typed p (e.apply pg).header.pageType := by
  cases e with
  | pageType type => exact h
  | body => exact hpg
  | flags => exact hpg
  | nextPageId => exact hpg
  | prevPageId => exact hpg

theorem Inv.edited {g : Held} {e : Edit} (h : Inv typed b mine) (hg : g ∈ b.held) (hw : g.latch = .write)
    (he : Edit.Allowed typed g.page e) : Inv typed (b.edited g e) mine := by
  have hm := h.held g hg
  obtain ⟨hcap, hr⟩ := h.resident hm
  have hfr : (b.edited g e).frames g.frame = { b.frames g.frame with data := e.apply (b.frames g.frame).data } :=
    Function.update_self _ _ _
  refine h.onlyFrame (v := g.frame) ⟨rfl, fun f hf => Function.update_of_ne hf _ _, fun _ _ => rfl,
    fun _ _ _ => Iff.rfl, fun _ _ => rfl, fun _ _ => Iff.rfl, Int32.le_refl _, fun _ _ _ _ => rfl⟩ h.disk h.catalog
    ⟨h.counted, h.capacity⟩ (fun _ _ => Iff.rfl) h.nodup
    (.inr ⟨(h.table _ _ hm).2.1, hcap, g.page, ⟨?_, ?_, hm, ?_, hr.candidate, hr.inside, ?_, ?_, ?_, fun hn => ?_⟩,
      fun q hq => h.table_unique hq hm⟩) h.held
  · rw [hfr]; exact hr.state
  · rw [hfr]; exact hr.pageId
  · rw [hfr]; exact hr.pinCount
  · rw [hfr]; exact (Edit.apply_pageId _ e).trans hr.header
  · rw [hfr]; exact Edit.apply_typed he hr.typed
  · rw [hfr]; exact hr.epochs
  · exact absurd ⟨g, hg, rfl, hw⟩ hn

theorem view_edited {g : Held} {e : Edit} (h : Inv typed b mine) (hg : g ∈ b.held) :
    (b.edited g e).view = Function.update b.view g.page ((b.view g.page).map e.apply) := by
  have hm := h.held g hg
  funext q
  by_cases hq : q = g.page
  · subst hq
    rw [Function.update_self, view_mapped hm, view_mapped (b := b.edited g e) hm]
    show some (Function.update b.frames g.frame _ g.frame).data = _
    rw [Function.update_self]
    rfl
  · rw [Function.update_of_ne hq]
    cases ht : b.table q with
    | none => rw [view_unmapped ht, view_unmapped (b := b.edited g e) ht]; rfl
    | some f =>
      have hf : f ≠ g.frame := fun he => hq (h.table_unique (he ▸ ht) hm)
      rw [view_mapped ht, view_mapped (b := b.edited g e) ht]
      show some (Function.update b.frames g.frame _ f).data = _
      rw [Function.update_of_ne hf]

end Transitions
end BufferPool
end KernSql
