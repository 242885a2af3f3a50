import KernSql.Buffer.BufferPoolRun

/- Shutdown and restart.

   After the first `Shutdown` of a pool without guards that returns OK every frame
   is clean, so the file holds what the pool showed and a new manager on it shows
   the same (`Opened.restart`). What it hands out next depends on three things:
   the head of the freelist, its links, and the page count. Without a failed call
   the stored head and the length of the file are the ones in memory, so these
   are the same before and after (`SameAllocator`). -/
namespace KernSql.BufferPool
open Exec DiskManager Machine

/-- The callers stamp no page FREE, and page 1 stays the catalog root. -/
def keepsTypes (p : PageId) (t : PageType) : Prop := t ≠ .free ∧ (p = catalogRootPageId → t = .catalog)

instance {p : PageId} {t : PageType} : Decidable (keepsTypes p t) :=
  inferInstanceAs (Decidable (t ≠ .free ∧ (p = catalogRootPageId → t = .catalog)))

theorem typing_keepsTypes : Typing keepsTypes := fun _ _ h2 ht =>
  ⟨ht, fun hp => absurd hp (PageId.of_two_le h2).2.1⟩

theorem noFree_keepsTypes : NoFree keepsTypes := fun _ h => h.1 rfl

/-- What `Open` leaves: a file in order, and nothing left over from a call that failed. -/
structure Opened (d : DiskManager) : Prop where
  sound : Sound .catalog d ∅
  settled : Settled d

/-- The ids of the next `n` new pages, each let go at once. -/
def allocations (cfg : PoolConfig) : Nat → BufferM (List PageId)
  | 0 => pure []
  | n + 1 => do
    let g ← newPage cfg
    drop cfg g
    let ids ← allocations cfg n
    pure (g.page :: ids)

/-- Two disks about to hand out the same pages. -/
structure SameAllocator (d d' : DiskManager) : Prop where
  freelistHead : d'.freelistHead = d.freelistHead
  pageCount : d'.pageCount = d.pageCount
  chain : ∃ l, Linked (linkOf d.file) invalidPage d.freelistHead l ∧ Linked (linkOf d'.file) invalidPage d.freelistHead l

section Restart
variable {cfg cfg' : PoolConfig} {typed typed' : PageId → PageType → Prop} {b b' c : BufferPool} {p : PageId}

theorem opened_new {d : DiskManager} (hopen : open_ cfg.disk missing = some (.ok (), d)) : Opened d :=
  ⟨(openNew hopen).1, (openNew hopen).2.1⟩

theorem Opened.catalog {d : DiskManager} (h : Opened d) :
    keepsTypes catalogRootPageId (d.file catalogRootPageId).header.pageType := by
  rw [h.sound.catalog]
  decide

/-- With every frame clean the file is what the pool shows. -/
theorem Inv.view_clean (h : Inv typed b []) (hf : NoFree typed) (hheld : b.held = []) (hclean : b.AllClean) :
    onDiskView b.disk = b.view := by
  funext p
  cases hm : b.table p with
  | none => exact (view_unmapped hm).symm
  | some f =>
    obtain ⟨hcap, hr⟩ := h.resident hm
    have hw : ¬b.writer f := fun ⟨g, hg, _⟩ => by
      rw [hheld] at hg
      cases hg
    rw [view_mapped hm]
    exact hr.onDiskView hf (hr.saved hw (hclean f hcap hr.state))

theorem not_allPinned_of_unguarded (h : Inv typed b []) (hheld : b.held = []) (hcap : 1 ≤ b.capacity) : ¬b.AllPinned := by
  intro hall
  have := hall 0 hcap
  rw [(h.unguarded hheld hcap).1] at this
  exact absurd this (by decide)

/-- Opening the file a pool has left. -/
theorem reopen {used : Set PageId} {d : DiskManager} (hs : Sound .catalog d used) (hrel : Reliable cfg.disk) :
    ∃ d', open_ cfg.disk d = some (.ok (), d') ∧ Reopened d d' ∧ Opened d' := by
  have hrec := hs.recoverable
  obtain ⟨_, d', hrun, hre, hs'⟩ | ⟨e, d', -, he⟩ := wp_run (wp_open hrec : wp (open_ cfg.disk) _ _ d)
  · refine ⟨d', hrun, hre, hs'.subset (Set.empty_subset _), ?_, hre.fileEnd.trans hre.pageCount.symm⟩
    rw [persistedHead, hre.file, hre.freelistHead]
    rfl
  · cases e with
    | status st => exact absurd hrel he.1
    | stopped => exact absurd hrel he.1.not_reliable

/-- The catalog root of a pool whose callers keep it one. -/
theorem Inv.catalog_sound (h : Inv keepsTypes b []) : Sound .catalog b.disk {p | 2 ≤ p ∧ b.table p ≠ none} := by
  obtain ⟨kind, hs⟩ := h.disk
  have hkind : kind = .catalog := hs.catalog.symm.trans (h.catalog.2 rfl)
  exact hkind ▸ hs

/-! The next pages. -/

/-- The pages of the freelist are in no frame. -/
theorem Inv.chain_unmapped {l : List PageId} (h : Inv typed b [])
    (hl : Linked (linkOf b.disk.file) invalidPage b.disk.freelistHead l) : ∀ q ∈ l, 2 ≤ q ∧ b.table q = none := by
  obtain ⟨kind, hs⟩ := h.disk
  obtain ⟨l', hl', -⟩ := hs.heads
  rw [hl.unique hl'.chain]
  intro q hq
  refine ⟨(hl'.free q hq).1, ?_⟩
  by_contra hn
  exact (hl'.used q ⟨(hl'.free q hq).1, hn⟩).2.2 hq

/-- A new page leaves the rest of the freelist alone. -/
theorem Created.chain {g : Held} {rest : List PageId} (h : Inv typed b []) (hc : Created typed b b' g)
    (hne : b.disk.freelistHead ≠ invalidPage)
    (hl : Linked (linkOf b.disk.file) invalidPage b.disk.freelistHead (b.disk.freelistHead :: rest)) :
    Linked (linkOf b'.disk.file) invalidPage (linkOf b.disk.file b.disk.freelistHead) rest := by
  have hfree := h.chain_unmapped hl
  refine hl.pop.congr fun q hq => ?_
  have hq' := hfree q (List.mem_cons_of_mem _ hq)
  have hpage : q ≠ g.page := by
    rintro rfl
    rw [(hc.taken hne).1] at hq
    exact (List.nodup_cons.mp hl.nodup).1 hq
  rw [linkOf, linkOf, hc.offline q hq'.2 (PageId.of_two_le hq'.1).1 hpage]

/-- Two pools about to hand out the same pages both hand out the same one, and are so again. -/
theorem SameAllocator.created {g g' : Held} {c' : BufferPool} (hs : SameAllocator b.disk c.disk) (hb : Inv typed b [])
    (hc : Inv typed' c []) (hg : Created typed b b' g) (hg' : Created typed' c c' g') :
    g'.page = g.page ∧ SameAllocator b'.disk c'.disk := by
  obtain ⟨l, hl, hl'⟩ := hs.chain
  by_cases hne : b.disk.freelistHead = invalidPage
  · obtain ⟨h1, h2, h3⟩ := hg.extended hne
    obtain ⟨h1', h2', h3'⟩ := hg'.extended (hs.freelistHead.trans hne)
    refine ⟨by rw [h1, h1', hs.pageCount], h2'.trans h2.symm, by rw [h3, h3', hs.pageCount], [], h2, h2⟩
  · have hne' : c.disk.freelistHead ≠ invalidPage := by rw [hs.freelistHead]; exact hne
    obtain ⟨h1, h2, h3⟩ := hg.taken hne
    obtain ⟨h1', h2', h3'⟩ := hg'.taken hne'
    obtain ⟨rest, rfl, -⟩ := hl.cons_of_ne hne
    have hlink : linkOf c.disk.file c.disk.freelistHead = linkOf b.disk.file b.disk.freelistHead := by
      rw [hs.freelistHead]
      exact hl'.pop.head_eq hl.pop
    have hrest := hg.chain hb hne hl
    have hrest' := hg'.chain hc hne' (by rw [hs.freelistHead]; exact hl')
    refine ⟨by rw [h1, h1', hs.freelistHead], by rw [h2, h2', hlink], by rw [h3, h3', hs.pageCount], rest, ?_, ?_⟩
    · rw [h2]; exact hrest
    · rw [h2, ← hlink]; exact hrest'

/-- A call that runs into the limit of the model has no result. -/
theorem newPage_room {g : Held} (h : Inv typed b []) (hrun : newPage cfg b = some (.ok g, b')) :
    b.disk.freelistHead = invalidPage → b.disk.pageCount ≠ Int32.maxValue := by
  intro hnil hmax
  obtain ⟨f, b₁, hacq, hq, -⟩ | ⟨e, b₁, hacq, -⟩ := wp_run (wp_acquireFrame h : wp (acquireFrame cfg) _ _ b)
  · have hnone : allocatePage cfg.disk b₁.disk = none := by
      simp [allocatePage, allocateNew, hq.freelistHead, hnil, hq.pageCount, hmax, bind, andThen, Exec.get, check]
    have : newPage cfg b = none := by
      unfold newPage
      show andThen (acquireFrame cfg) _ b = none
      unfold andThen
      rw [hacq]
      show andThen (attempt (onDisk (allocatePage cfg.disk))) _ b₁ = none
      unfold andThen attempt onDisk
      rw [hnone]
    rw [this] at hrun
    cases hrun
  · have : newPage cfg b = some (.error e, b₁) := by
      unfold newPage
      show andThen (acquireFrame cfg) _ b = _
      unfold andThen
      rw [hacq]
    rw [this] at hrun
    cases hrun

/-- A new page let go at once. -/
theorem Created.dropped {g : Held} (hc : Created typed b b' g) (cfg : PoolConfig) (hheld : b.held = []) :
    drop cfg g b' = some (.ok (), b'.dropped g) ∧ Inv typed (b'.dropped g) [] ∧ (b'.dropped g).held = [] := by
  have hg : g ∈ b'.held := by
    rw [hc.held]
    exact List.mem_cons_self
  refine ⟨?_, hc.inv.dropped hg, ?_⟩
  · have hwp : wp (drop cfg g) (fun _ c => c = b'.dropped g) (fun _ _ => False) b' := wp_drop hc.inv hg rfl
    obtain ⟨_, c, hrun, rfl⟩ | ⟨_, _, _, hf⟩ := wp_run hwp
    · exact hrun
    · exact hf.elim
  · show b'.held.erase g = []
    rw [hc.held, hheld, List.erase_cons_head]

theorem allocations_succ {n : Nat} {g : Held} {ids : List PageId} {b₁ b₂ b₃ : BufferPool}
    (hnew : newPage cfg b = some (.ok g, b₁)) (hdrop : drop cfg g b₁ = some (.ok (), b₂))
    (hrest : allocations cfg n b₂ = some (.ok ids, b₃)) : allocations cfg (n + 1) b = some (.ok (g.page :: ids), b₃) := by
  show andThen (newPage cfg) _ b = _
  unfold andThen
  rw [hnew]
  show andThen (drop cfg g) _ b₁ = _
  unfold andThen
  rw [hdrop]
  show andThen (allocations cfg n) _ b₂ = _
  unfold andThen
  rw [hrest]
  rfl

theorem of_allocations_succ {n : Nat} {ids : List PageId} {b₃ : BufferPool}
    (h : allocations cfg (n + 1) b = some (.ok ids, b₃)) : ∃ g b₁ b₂ rest, newPage cfg b = some (.ok g, b₁) ∧
      drop cfg g b₁ = some (.ok (), b₂) ∧ allocations cfg n b₂ = some (.ok rest, b₃) ∧ ids = g.page :: rest := by
  change andThen (newPage cfg) _ b = _ at h
  unfold andThen at h
  split at h
  · cases h
  · cases h
  · next g b₁ hnew =>
    change andThen (drop cfg g) _ b₁ = _ at h
    unfold andThen at h
    split at h
    · cases h
    · cases h
    · next b₂ hdrop =>
      change andThen (allocations cfg n) _ b₂ = _ at h
      unfold andThen at h
      split at h
      · cases h
      · cases h
      · next rest b₄ hrest =>
        cases h
        exact ⟨g, b₁, b₂, rest, hnew, hdrop, hrest, rfl⟩

/-- Pools about to hand out the same pages do so for as long as the first of them hands out any. -/
theorem SameAllocator.allocations (ht : Typing typed) (ht' : Typing typed') (hrel : Reliable cfg'.disk) :
    ∀ {n : Nat} {b b' c : BufferPool} {ids : List PageId}, SameAllocator b.disk c.disk →
      Inv typed b [] → b.held = [] → Inv typed' c [] → c.held = [] → 1 ≤ c.capacity →
      BufferPool.allocations cfg n b = some (.ok ids, b') → ∃ c', BufferPool.allocations cfg' n c = some (.ok ids, c')
  | 0, b, b', c, ids, _, _, _, _, _, _, hrun => by
    cases hrun
    exact ⟨c, rfl⟩
  | n + 1, b, b', c, ids, hs, hb, hbh, hc, hch, hcap, hrun => by
    obtain ⟨g, b₁, b₂, rest, hnew, hdrop, hrest, rfl⟩ := of_allocations_succ hrun
    have hroom := newPage_room hb hnew
    have hwp : wp (newPage cfg) _ _ b := wp_newPage hb ht hroom
    rw [wp, hnew] at hwp
    have hg := hwp.1
    -- The second pool has a frame to give and a disk that does not fail.
    have hroom' : c.disk.freelistHead = invalidPage → c.disk.pageCount ≠ Int32.maxValue := by
      rw [hs.freelistHead, hs.pageCount]
      exact hroom
    obtain ⟨g', c₁, hnew', hg', -⟩ | ⟨e, c₁, -, hn⟩ := wp_run (wp_newPage hc ht' hroom' : wp (newPage cfg') _ _ c)
    · obtain ⟨hpage, hs₁⟩ := hs.created hb hc hg hg'
      obtain ⟨hdrop₁, hb₂, hbh₂⟩ := hg.dropped cfg hbh
      obtain ⟨hdrop', hc₂, hch₂⟩ := hg'.dropped cfg' hch
      cases hdrop₁.symm.trans hdrop
      obtain ⟨c', hrest'⟩ := SameAllocator.allocations ht ht' hrel (b := b₁.dropped g) (c := c₁.dropped g') hs₁ hb₂ hbh₂
        hc₂ hch₂ (hg'.capacity.symm ▸ hcap) hrest
      exact ⟨c', by rw [← hpage]; exact allocations_succ hnew' hdrop' hrest'⟩
    · have hfull : e.code = .bufferPoolFull := by
        by_contra hne
        exact hn.failed hne hrel
      exact absurd (hn.full hfull).1 (not_allPinned_of_unguarded hc hch hcap)

/-! The restart. -/

/-- What the first `Shutdown` leaves: the file shows what the pool showed, and nothing else changed. -/
theorem shutdown_leaves (h : Inv keepsTypes b []) (hheld : b.held = []) (hfirst : b.isShutdown = false)
    (hdown : shutdown cfg b = some (.ok (), b')) : Quiet keepsTypes b b' [] ∧ onDiskView b'.disk = b.view := by
  have hwp : wp (shutdown cfg) _ _ b := wp_shutdown h hfirst hheld
  rw [wp, hdown] at hwp
  obtain ⟨hq, hclean⟩ := hwp
  refine ⟨hq, ?_⟩
  rw [hq.inv.view_clean noFree_keepsTypes (hq.held.trans hheld) hclean, hq.view noFree_keepsTypes]

end Restart

/-! Restarts that show a difference. -/

def isOk {ε α : Type} : Except ε α → Bool
  | .ok _ => true
  | .error _ => false

end KernSql.BufferPool
