import KernSql.Heap.TableConcurrentRun

/- Table scans (`Scan` and `TableIterator` of src/heap/table_heap.cpp).

   The iterator is a page of the chain, the read guard on it once it has been
   fetched, and a slot. `Next` moves to the slot after the one it reported, or to
   slot 0 when it has not started, and from there looks for a live slot, page after
   page. The loop over the pages is bounded by a fuel; one more than the length
   of the chain is enough.

   What is left to report is a list: the rows from the next slot on in the page the
   iterator is on, and the rows of the pages after it. `Next` takes its first row. -/
namespace KernSql
open Exec Directory ConstHeapPage

structure TableIterator where
  /-- Is the guard on `pageId` held? -/
  held : Bool := false
  initialized : Bool := false
  /-- `INVALID_PAGE` once exhausted. -/
  pageId : PageId
  slot : SlotId := 0
  tuple : List UInt8 := []

/-- A computation over the pool and one iterator. -/
abbrev TableScanM := Exec (PageStore × TableIterator) Status

def TableHeap.scan (t : TableHeap) : TableIterator := { pageId := t.firstPageId }

namespace TableIterator

def rid (it : TableIterator) : RID := ⟨it.pageId, it.slot⟩

/-- The slot loop: the first live slot among `left` slots from `slot`, with what `Get` says about it. -/
def firstLive (build : Build) (b : Body) : (left : Nat) → SlotId → Option (Option (SlotId × Except Status (List UInt8)))
  | 0, _ => some none
  | left + 1, slot => do
    let s ← slotAt b slot.toNat
    if s.isDead then firstLive build b left (slot + 1)
    else do
      let bytes ← get build b slot
      return some (slot, bytes)

section Calls
variable (env : PoolEnv) (build : Build)

/-- Fetch only on arriving at a page. A failed fetch leaves the iterator where it is. -/
def arrive : TableScanM Unit := do
  let it ← self
  if it.held then pure ()
  else do
    onPool (fetchPageRead env it.pageId)
    setSelf { it with held := true }

/-- The loop over the pages. -/
def walk : Nat → TableScanM Bool
  | 0 => lift none
  | fuel + 1 => do
    let it ← self
    if it.pageId = invalidPage then pure false
    else do
      arrive env
      onPool (asHeapPage it.pageId)
      let pg ← onPool (guarded it.pageId)
      let h := header pg.body
      -- a page with nothing live is left without walking its slot array
      let found ← (if 0 < h.liveCount then lift (firstLive build pg.body (h.slotCount - it.slot.toNat) it.slot)
        else pure none)
      let here ← self
      match found with
      | some (slot, .error e) => do
        setSelf { here with slot := slot }
        fail e
      | some (slot, .ok bytes) => do
        setSelf { here with slot := slot, tuple := bytes }
        pure true
      | none => do
        onPool (dropGuard it.pageId .read)
        setSelf { here with held := false, pageId := pg.header.nextPageId, slot := 0 }
        walk fuel

def next (fuel : Nat) : TableScanM Bool := do
  let it ← self
  if it.pageId = invalidPage then pure false
  else do
    -- `slot_` is 16 bits wide
    setSelf (if it.initialized then { it with slot := it.slot + 1 } else { it with initialized := true, slot := 0 })
    walk env build fuel

/-- `Next`, with `Rid` and `Tuple` when it answered true. -/
def nextRow (fuel : Nat) (_ : Unit) : TableScanM (Option (RID × List UInt8)) := do
  let more ← next env build fuel
  let it ← self
  pure (if more then some (it.rid, it.tuple) else none)

end Calls

/-! The rows of a page and of a chain. -/

/-- The row under slot `i`, if it is live. -/
def rowAt (p : PageId) (b : Body) (i : Nat) : Option (RID × List UInt8) :=
  (find b (slots b) i).map fun bytes => (⟨p, UInt16.ofNat i⟩, bytes)

/-- The rows of a page from slot `i` on. -/
def rowsFrom (p : PageId) (b : Body) (i : Nat) : List (RID × List UInt8) :=
  (List.range' i ((slots b).length - i)).filterMap (rowAt p b)

def rowsOn (pages : PageId → Option Page) (p : PageId) (i : Nat) : List (RID × List UInt8) :=
  match pages p with
  | none => []
  | some pg => rowsFrom p pg.body i

/-- The rows of a chain of pages, from slot `i` of the first on. -/
def rows (pages : PageId → Option Page) : List PageId → Nat → List (RID × List UInt8)
  | [], _ => []
  | p :: ps, i => rowsOn pages p i ++ ps.flatMap fun q => rowsOn pages q 0

theorem rows_zero (pages : PageId → Option Page) (ps : List PageId) :
    rows pages ps 0 = ps.flatMap fun q => rowsOn pages q 0 := by
  cases ps <;> rfl

section Rows
variable {b : Body} {es : List Slot} {lo dead : Nat} {p : PageId}

theorem rowsFrom_nil {i : Nat} (h : (slots b).length ≤ i) : rowsFrom p b i = [] := by
  unfold rowsFrom
  rw [Nat.sub_eq_zero_of_le h]
  rfl

theorem rowsFrom_cons {i : Nat} (h : i < (slots b).length) :
    rowsFrom p b i = (rowAt p b i).toList ++ rowsFrom p b (i + 1) := by
  unfold rowsFrom
  have hlen : (slots b).length - i = (slots b).length - (i + 1) + 1 := by omega
  rw [hlen, List.range'_succ, List.filterMap_cons]
  cases rowAt p b i <;> rfl

/-- The slot loop finds the first row that is left. -/
theorem firstLive_eq (build : Build) (h : Stores b es lo dead) (p : PageId) : ∀ (left : Nat) (slot : SlotId),
    slot.toNat + left = es.length →
    (firstLive build b left slot = some none ∧ rowsFrom p b slot.toNat = []) ∨
      ∃ s bytes, firstLive build b left slot = some (some (s, .ok bytes)) ∧ s.toNat < es.length ∧
        rowsFrom p b slot.toNat = (⟨p, s⟩, bytes) :: rowsFrom p b (s.toNat + 1)
  | 0, slot, hend => by
    refine .inl ⟨rfl, rowsFrom_nil ?_⟩
    rw [h.slots_eq]
    omega
  | left + 1, slot, hend => by
    have hlt : slot.toNat < es.length := by omega
    have hcount := h.length_le
    have hslot : UInt16.ofNat slot.toNat = slot := UInt16.ofNat_toNat
    rw [firstLive, h.slots.slotAt h.array_le hlt]
    rw [rowsFrom_cons (by rw [h.slots_eq]; exact hlt), rowAt, h.slots_eq, find_get hlt]
    by_cases hn : es[slot.toNat].IsNull
    · -- a dead slot is passed over
      have hsucc : (slot + 1).toNat = slot.toNat + 1 := by
        rw [UInt16.toNat_add]
        show (slot.toNat + 1) % 65536 = _
        omega
      have ih := firstLive_eq build h p left (slot + 1) (by omega)
      rw [hsucc] at ih
      simpa [hn, (isDead_iff _).mpr hn] using ih
    · have hd : Slot.isDead es[slot.toNat] = false := by
        rw [Bool.eq_false_iff]
        exact fun hd => hn ((isDead_iff _).mp hd)
      refine .inr ⟨slot, b.slice es[slot.toNat].offset es[slot.toNat].length, ?_, hlt, ?_⟩
      · simp [hd, h.get_eq, find_get hlt, hn]
      · simp [hn, hslot]

/-- A page whose `live_count` is 0 has no row. -/
theorem rowsFrom_of_liveCount (h : Stores b es lo dead) (hzero : (header b).liveCount = 0) (p : PageId) (i : Nat) :
    rowsFrom p b i = [] := by
  rw [h.header] at hzero
  have hnull : ∀ e ∈ es, e.IsNull := by
    intro e he
    have := List.countP_eq_zero.mp hzero e he
    simpa using this
  apply List.filterMap_eq_nil_iff.mpr
  intro j _
  unfold rowAt find
  rw [h.slots_eq]
  cases hj : es[j]? with
  | none => rfl
  | some e => simp [hnull e (List.mem_of_getElem? hj)]

end Rows

/-! One call of `Next`. -/

/-- Heap pages in order, each linked to the next, the last to none. -/
def Chained (pages : PageId → Option Page) : List PageId → Prop
  | [] => True
  | p :: ps => p ≠ invalidPage ∧ (∃ pg, pages p = some pg ∧ pg.header.pageType = .heap ∧
      pg.header.nextPageId = ps.headD invalidPage ∧ HeapPage.Valid pg.body) ∧ Chained pages ps

/-- An iterator on the first of the pages `ps`, in a pool with the guards `gs` besides its own. -/
structure Position (gs : List Guard) (pages : PageId → Option Page) (s : PageStore × TableIterator)
    (ps : List PageId) : Prop where
  pages_eq : s.1.pages = pages
  guards : s.1.guards = if s.2.held then ⟨s.2.pageId, .read⟩ :: gs else gs
  page : s.2.pageId = ps.headD invalidPage
  unheld : ps = [] → s.2.held = false
  chain : Chained pages ps
  free : ∀ p ∈ ps, ∀ g ∈ gs, g.page ≠ p

/-- Where the next `Next` starts to look. -/
def start (it : TableIterator) : SlotId := if it.initialized then it.slot + 1 else 0

section Next
variable {env : PoolEnv} {build : Build} {gs : List Guard} {pages : PageId → Option Page}

/-- After `arrive` the guard is held. -/
theorem wp_arrive {s : PageStore × TableIterator} {p : PageId} {ps : List PageId} (h : Position gs pages s (p :: ps)) :
    wp (arrive env)
      (fun _ s' => Position gs pages s' (p :: ps) ∧ s'.1.failures = s.1.failures ∧ s'.2 = { s.2 with held := true })
      (fun e s' => Position gs pages s' (p :: ps) ∧ Failed env e s.1 s'.1) s := by
  have hpage : s.2.pageId = p := h.page
  obtain ⟨-, ⟨pg, hpg, -⟩, -⟩ := h.chain
  unfold arrive
  rw [wp_bind, wp_self]
  by_cases hheld : s.2.held = true
  · rw [if_pos hheld, wp_pure]
    exact ⟨h, rfl, by rw [← hheld]⟩
  · rw [if_neg hheld]
    have hguards : s.1.guards = gs := by rw [h.guards, if_neg hheld]
    have hfree : ∀ g ∈ s.1.guards, g.page ≠ s.2.pageId := by
      rw [hguards, hpage]
      exact h.free p List.mem_cons_self
    have hc := s.1.not_conflicts hfree .read
    have hal : s.1.pages s.2.pageId ≠ none := by
      rw [h.pages_eq, hpage, hpg]
      exact Option.some_ne_none _
    rw [wp_bind, wp_onPool]
    apply wp_mono (wp_and (wp_fetchPage_refuses hc hal) (wp_fetchPage_guards hc))
    · intro _ s₁ hr
      rw [wp_setSelf]
      refine ⟨⟨hr.1.pages.trans h.pages_eq, ?_, h.page, fun he => (by cases he), h.chain, h.free⟩, hr.1.failures, rfl⟩
      rw [hr.1.guards, hguards]
      rfl
    · intro e s₁ hr
      obtain ⟨⟨hr, hwhy⟩, hgs⟩ := hr
      refine ⟨⟨hr.pages.trans h.pages_eq, ?_, h.page, h.unheld, h.chain, h.free⟩, hr.failures, hwhy⟩
      show s₁.guards = _
      rw [if_neg hheld, hgs, hguards]

/-- What a stretch of pages with nothing left on the first amounts to. -/
theorem rows_step {p : PageId} {ps : List PageId} {i : Nat} (h : rowsOn pages p i = []) :
    rows pages (p :: ps) i = rows pages ps 0 := by
  rw [rows, h, rows_zero, List.nil_append]

/-- The loop takes the first row from the slot it is given on. -/
theorem wp_walk : ∀ {fuel : Nat} {ps : List PageId} {s : PageStore × TableIterator}, ps.length < fuel →
    Position gs pages s ps → s.2.initialized = true →
    wp (walk env build fuel)
      (fun more s' => s'.2.initialized = true ∧ s'.1.failures = s.1.failures ∧ ∃ ps', Position gs pages s' ps' ∧
        ps'.length ≤ ps.length ∧
        (if more then some (s'.2.rid, s'.2.tuple) else none, rows pages ps' (start s'.2).toNat) =
          ((rows pages ps s.2.slot.toNat).head?, (rows pages ps s.2.slot.toNat).tail))
      (fun e s' => Failed env e s.1 s'.1 ∧ ∃ ps', Position gs pages s' ps' ∧ ps'.length ≤ ps.length) s
  | 0, _, _, hfuel, _, _ => absurd hfuel (Nat.not_lt_zero _)
  | fuel + 1, [], s, _, h, hinit => by
    rw [walk, wp_bind, wp_self, if_pos (show s.2.pageId = invalidPage from h.page), wp_pure]
    exact ⟨hinit, rfl, [], h, Nat.le_refl _, rfl⟩
  | fuel + 1, p :: ps, s, hfuel, h, hinit => by
    have hpage : s.2.pageId = p := h.page
    obtain ⟨hid, ⟨pg, hpg, htype, hnext, ⟨es, lo, dead, hst⟩⟩, hrest⟩ := h.chain
    rw [walk, wp_bind, wp_self, if_neg (by rw [hpage]; exact hid)]
    apply wp_call (wp_arrive h)
    · intro _ s₁ h₁
      obtain ⟨h₁, hf₁, hit⟩ := h₁
      have hpg₁ : s₁.1.pages s.2.pageId = some pg := by rw [h₁.pages_eq, hpage, hpg]
      rw [wp_bind, wp_onPool]
      apply wp_asHeapPage hpg₁ htype
      rw [wp_bind, wp_onPool, wp_guarded hpg₁]
      dsimp only
      have hrows : rowsOn pages p s.2.slot.toNat = rowsFrom p pg.body s.2.slot.toNat := by
        unfold rowsOn
        rw [hpg]
      -- nothing is left on this page: the loop goes on with the next one
      have hleave : rowsFrom p pg.body s.2.slot.toNat = [] →
          wp (do
              onPool (dropGuard s.2.pageId .read)
              setSelf { s₁.2 with held := false, pageId := pg.header.nextPageId, slot := 0 }
              walk env build fuel)
            (fun more s' => s'.2.initialized = true ∧ s'.1.failures = s.1.failures ∧ ∃ ps', Position gs pages s' ps' ∧
              ps'.length ≤ (p :: ps).length ∧
              (if more then some (s'.2.rid, s'.2.tuple) else none, rows pages ps' (start s'.2).toNat) =
                ((rows pages (p :: ps) s.2.slot.toNat).head?, (rows pages (p :: ps) s.2.slot.toNat).tail))
            (fun e s' => Failed env e s.1 s'.1 ∧ ∃ ps', Position gs pages s' ps' ∧
              ps'.length ≤ (p :: ps).length) s₁ := by
        intro hnone
        rw [rows_step (hrows.trans hnone), wp_bind, wp_onPool]
        unfold dropGuard
        rw [wp_modify, wp_bind, wp_setSelf]
        have hguards : s₁.1.guards.erase ⟨s.2.pageId, .read⟩ = gs := by
          rw [h₁.guards, hit, if_pos rfl, List.erase_cons_head]
        have hpos : Position gs pages ({ s₁.1 with guards := s₁.1.guards.erase ⟨s.2.pageId, .read⟩ },
            { s₁.2 with held := false, pageId := pg.header.nextPageId, slot := 0 }) ps :=
          ⟨h₁.pages_eq, hguards, hnext, fun _ => rfl, hrest, fun q hq => h.free q (List.mem_cons_of_mem _ hq)⟩
        apply wp_mono (wp_walk (Nat.lt_of_succ_lt_succ hfuel) hpos (by rw [hit]; exact hinit))
        · intro more s₂ h₂
          obtain ⟨hinit₂, hf₂, ps', hpos₂, hlen, heq⟩ := h₂
          exact ⟨hinit₂, hf₂.trans hf₁, ps', hpos₂, Nat.le_succ_of_le hlen, heq⟩
        · intro e s₂ h₂
          obtain ⟨hf₂, ps', hpos₂, hlen⟩ := h₂
          exact ⟨⟨hf₁ ▸ hf₂.failures, hf₂.why⟩, ps', hpos₂, Nat.le_succ_of_le hlen⟩
      rw [wp_bind, wp_ite]
      refine ⟨fun _ => ?_, fun hlive => ?_⟩
      · rw [wp_lift]
        by_cases hpast : es.length ≤ s.2.slot.toNat
        · have hzero : (header pg.body).slotCount - s.2.slot.toNat = 0 := by
            rw [hst.header]
            exact Nat.sub_eq_zero_of_le hpast
          refine ⟨none, by rw [hzero]; rfl, ?_⟩
          rw [wp_bind, wp_self]
          exact hleave (rowsFrom_nil (by rw [hst.slots_eq]; exact hpast))
        · have hcount : (header pg.body).slotCount = es.length := by rw [hst.header]
          have hfound := firstLive_eq build hst p ((header pg.body).slotCount - s.2.slot.toNat) s.2.slot
            (by rw [hcount]; omega)
          cases hfound with
          | inl hnone =>
            refine ⟨none, hnone.1, ?_⟩
            rw [wp_bind, wp_self]
            exact hleave hnone.2
          | inr hsome =>
            obtain ⟨slot, bytes, hfirst, hlt, hsplit⟩ := hsome
            refine ⟨_, hfirst, ?_⟩
            rw [wp_bind, wp_self]
            dsimp only
            rw [wp_bind, wp_setSelf, wp_pure]
            have hinit₁ : s₁.2.initialized = true := by rw [hit]; exact hinit
            refine ⟨hinit₁, hf₁, p :: ps, ⟨h₁.pages_eq, h₁.guards, h₁.page, h₁.unheld, h₁.chain, h₁.free⟩,
              Nat.le_refl _, ?_⟩
            have hlen := hst.length_le
            have hsucc : (slot + 1).toNat = slot.toNat + 1 := by
              rw [UInt16.toNat_add]
              show (slot.toNat + 1) % 65536 = _
              omega
            have hrid : s₁.2.pageId = p := h₁.page
            have hafter : rowsOn pages p (slot.toNat + 1) = rowsFrom p pg.body (slot.toNat + 1) := by
              unfold rowsOn
              rw [hpg]
            have hwhole : rows pages (p :: ps) s.2.slot.toNat =
                (⟨p, slot⟩, bytes) :: (rowsOn pages p (slot.toNat + 1) ++ ps.flatMap fun q => rowsOn pages q 0) := by
              rw [rows, hrows, hsplit, hafter, List.cons_append]
            rw [hwhole]
            simp [start, rid, rows, hinit₁, hsucc, hrid]
      · rw [wp_pure, wp_bind, wp_self]
        exact hleave (rowsFrom_of_liveCount hst (Nat.eq_zero_of_not_pos hlive) p _)
    · intro e s₁ h₁
      exact ⟨h₁.2, p :: ps, h₁.1, Nat.le_refl _⟩

/-- `Next` takes the first row that is left. -/
theorem wp_next {fuel : Nat} {ps : List PageId} {s : PageStore × TableIterator} (hfuel : ps.length < fuel)
    (h : Position gs pages s ps) :
    wp (next env build fuel)
      (fun more s' => s'.1.failures = s.1.failures ∧ ∃ ps', Position gs pages s' ps' ∧ ps'.length ≤ ps.length ∧
        (if more then some (s'.2.rid, s'.2.tuple) else none, rows pages ps' (start s'.2).toNat) =
          ((rows pages ps (start s.2).toNat).head?, (rows pages ps (start s.2).toNat).tail))
      (fun e s' => Failed env e s.1 s'.1 ∧ ∃ ps', Position gs pages s' ps' ∧ ps'.length ≤ ps.length) s := by
  unfold next
  rw [wp_bind, wp_self, wp_ite]
  constructor
  · intro hexhausted
    rw [wp_pure]
    cases ps with
    | nil => exact ⟨rfl, [], h, Nat.le_refl _, rfl⟩
    | cons p ps => exact absurd ((show s.2.pageId = p from h.page).symm.trans hexhausted) h.chain.1
  · intro _
    have hmoved : ∀ it : TableIterator, it = (if s.2.initialized then { s.2 with slot := s.2.slot + 1 }
        else { s.2 with initialized := true, slot := 0 }) →
        it.initialized = true ∧ it.slot = start s.2 ∧ Position gs pages (s.1, it) ps := by
      intro it hit
      unfold start
      split at hit
      · next hi => rw [hit]; exact ⟨hi, by rw [if_pos hi], h.pages_eq, h.guards, h.page, h.unheld, h.chain, h.free⟩
      · next hi => rw [hit]; exact ⟨rfl, by rw [if_neg hi], h.pages_eq, h.guards, h.page, h.unheld, h.chain, h.free⟩
    obtain ⟨hinit, hslot, hpos⟩ := hmoved _ rfl
    rw [wp_bind, wp_setSelf]
    rw [← hslot]
    apply wp_mono (wp_walk hfuel hpos hinit)
    · intro more s' h'
      exact h'.2
    · intro e s' h'
      exact h'

/-- Calls of `Next` in a row. -/
theorem simulates_pop (fuel : Nat) : Refine.Simulation (nextRow env build fuel)
    (fun rem op a rem' => (a, rem') = Refine.pop rem op) (fun _ _ => True)
    (fun s rem => ∃ ps, Position gs pages s ps ∧ ps.length < fuel ∧ rows pages ps (start s.2).toNat = rem)
    fun s => s.1.failures := by
  apply Refine.Simulation.of_wp
  intro s rem _ _ hR
  obtain ⟨ps, hpos, hfuel, hrem⟩ := hR
  subst hrem
  rw [wp_attempt]
  unfold nextRow
  apply wp_call (wp_next hfuel hpos)
  · intro more s' h'
    obtain ⟨hf, ps', hpos', hlen, heq⟩ := h'
    rw [wp_bind, wp_self, wp_pure]
    refine ⟨_, ⟨ps', hpos', Nat.lt_of_le_of_lt hlen hfuel, rfl⟩, Nat.le_of_eq hf.symm, fun _ => ?_⟩
    obtain ⟨h1, h2⟩ := Prod.mk.inj heq
    rw [Refine.pop, h1, h2]
  · intro e s' h'
    obtain ⟨hf, ps', hpos', hlen⟩ := h'
    exact ⟨_, ⟨ps', hpos', Nat.lt_of_le_of_lt hlen hfuel, rfl⟩, Nat.le_of_lt hf.failures,
      fun he => absurd he (Nat.ne_of_gt hf.failures)⟩

end Next
end TableIterator

/-! A scan of a whole table. -/

namespace TableHeap
open TableIterator
variable {env : PoolEnv} {build : Build} {fuel : Nat} {base pages : PageId → Option Page} {ps : List PageId} {M : RidMap}

theorem chained_drop (h : TableAt base pages ps M) : ∀ (n i : Nat), i + n = ps.length → Chained pages (ps.drop i)
  | 0, i, hi => by
    rw [List.drop_of_length_le (by omega)]
    trivial
  | n + 1, i, hi => by
    have hlt : i < ps.length := by omega
    obtain ⟨pg, hpg, htype, hnext, hv, -⟩ := h.page i hlt
    have ih := chained_drop h n (i + 1) (by omega)
    rw [List.drop_eq_getElem_cons hlt]
    refine ⟨fun he => h.ids (he ▸ List.getElem_mem hlt), ⟨pg, hpg, htype, ?_, hv⟩, ih⟩
    rw [hnext, List.headD_eq_head?_getD, List.head?_drop, List.getD_eq_getElem?_getD]

/-- An id on an earlier page of the chain, or in an earlier slot of the same page. -/
def Precedes (ps : List PageId) (r r' : RID) : Prop :=
  ps.idxOf r.pageId < ps.idxOf r'.pageId ∨ r.pageId = r'.pageId ∧ r.slot < r'.slot

theorem mem_rowsFrom {b : Body} (hv : HeapPage.Valid b) {p : PageId} {r : RID} {bytes : List UInt8} :
    (r, bytes) ∈ rowsFrom p b 0 ↔ r.pageId = p ∧ contents b r.slot = some bytes := by
  obtain ⟨es, lo, dead, h⟩ := hv
  have hcount := h.length_le
  unfold rowsFrom rowAt
  rw [List.mem_filterMap, h.slots_eq]
  constructor
  · intro ⟨i, hi, hrow⟩
    obtain ⟨found, hfind, heq⟩ := Option.map_eq_some_iff.mp hrow
    cases heq
    have hlt : i < es.length := by
      rw [List.mem_range'_1] at hi
      omega
    refine ⟨rfl, ?_⟩
    rw [h.contents_eq, UInt16.toNat_ofNat_of_lt' (by show i < 65536; omega), hfind]
  · intro ⟨hp, hfind⟩
    rw [h.contents_eq] at hfind
    obtain ⟨hlt, -⟩ := HeapPage.live_of_find hfind
    refine ⟨r.slot.toNat, List.mem_range'_1.mpr ⟨Nat.zero_le _, by omega⟩, ?_⟩
    rw [hfind, UInt16.ofNat_toNat, ← hp]
    rfl

theorem rowsOn_eq {p : PageId} {pg : Page} (hpg : pages p = some pg) : rowsOn pages p 0 = rowsFrom p pg.body 0 := by
  unfold rowsOn
  rw [hpg]

/-- The rows of the chain are its live rows. -/
theorem mem_rows (h : TableAt base pages ps M) {r : RID} {bytes : List UInt8} :
    (r, bytes) ∈ rows pages ps 0 ↔ Concurrent.liveRows pages ps r = some bytes := by
  rw [rows_zero, List.mem_flatMap, Concurrent.liveRows_eq h]
  constructor
  · intro ⟨p, hp, hmem⟩
    obtain ⟨i, hi, rfl⟩ := List.mem_iff_getElem.mp hp
    obtain ⟨pg, hpg, -, -, hv, hcont⟩ := h.page i hi
    rw [rowsOn_eq hpg, mem_rowsFrom hv] at hmem
    obtain ⟨hpage, hfound⟩ := hmem
    rw [← hcont, ← hpage] at hfound
    exact hfound
  · intro hbound
    have hp : r.pageId ∈ ps := by
      by_contra hoff
      rw [h.off r hoff] at hbound
      cases hbound
    obtain ⟨i, hi, hpi⟩ := List.mem_iff_getElem.mp hp
    obtain ⟨pg, hpg, -, -, hv, hcont⟩ := h.page i hi
    refine ⟨ps[i], List.getElem_mem hi, ?_⟩
    rw [rowsOn_eq hpg, mem_rowsFrom hv, ← hcont, hpi]
    exact ⟨rfl, hbound⟩

/-- Slots increase within a page. -/
theorem rowsFrom_ordered {b : Body} (hv : HeapPage.Valid b) (p : PageId) :
    (rowsFrom p b 0).Pairwise fun x y => Precedes ps x.1 y.1 := by
  obtain ⟨es, lo, dead, h⟩ := hv
  have hcount := h.length_le
  unfold rowsFrom
  rw [h.slots_eq, List.pairwise_filterMap]
  apply (List.pairwise_lt_range' (s := 0) (n := es.length - 0)).imp_of_mem
  intro i j hi hj hij x hx y hy
  obtain ⟨_, -, hx⟩ := Option.map_eq_some_iff.mp hx
  obtain ⟨_, -, hy⟩ := Option.map_eq_some_iff.mp hy
  subst hx hy
  rw [List.mem_range'_1] at hi hj
  refine .inr ⟨rfl, UInt16.lt_iff_toNat_lt.mpr ?_⟩
  rw [UInt16.toNat_ofNat_of_lt' (by show i < 65536; omega), UInt16.toNat_ofNat_of_lt' (by show j < 65536; omega)]
  exact hij

/-- The rows of a chain come page by page. -/
theorem rows_ordered (h : TableAt base pages ps M) : (rows pages ps 0).Pairwise fun x y => Precedes ps x.1 y.1 := by
  have hpage : ∀ p ∈ ps, ∀ x ∈ rowsOn pages p 0, x.1.pageId = p := by
    intro p hp x hx
    obtain ⟨i, hi, rfl⟩ := List.mem_iff_getElem.mp hp
    obtain ⟨pg, hpg, -, -, hv, -⟩ := h.page i hi
    rw [rowsOn_eq hpg] at hx
    exact ((mem_rowsFrom hv).mp hx).1
  rw [rows_zero, List.pairwise_flatMap]
  constructor
  · intro p hp
    obtain ⟨i, hi, rfl⟩ := List.mem_iff_getElem.mp hp
    obtain ⟨pg, hpg, -, -, hv, -⟩ := h.page i hi
    rw [rowsOn_eq hpg]
    exact rowsFrom_ordered hv _
  · rw [List.pairwise_iff_getElem]
    intro i j hi hj hij x hx y hy
    left
    rw [hpage _ (List.getElem_mem hi) x hx, hpage _ (List.getElem_mem hj) y hy, h.nodup.idxOf_getElem,
      h.nodup.idxOf_getElem]
    exact hij

/-- A scan that has not started stands before all rows. -/
theorem Represents.position {st : PageStore × TableHeap} (h : Represents base st ps M) :
    Position st.1.guards st.1.pages (st.1, st.2.scan) ps where
  pages_eq := rfl
  guards := rfl
  page := by rw [List.headD_eq_head?_getD, h.first]; rfl
  unheld _ := rfl
  chain := chained_drop h.table ps.length 0 (Nat.zero_add _)
  free p hp g hg he := h.apart g hg (he ▸ hp)

/-- The ids a caller passes are on pages of the table, or on no heap page and not on a page it is at work on. -/
def Sensible (st : PageStore × TableHeap) : Op → Prop
  | .delete rid => OnChain st.1.pages st.2.firstPageId rid.pageId ∨
      NoHeapPage st.1.pages rid.pageId ∧ ∀ g ∈ st.1.guards, g.page ≠ rid.pageId
  | .update rid _ => OnChain st.1.pages st.2.firstPageId rid.pageId ∨
      NoHeapPage st.1.pages rid.pageId ∧ ∀ g ∈ st.1.guards, g.page ≠ rid.pageId
  | op => Legal st op

/-- A call on no heap page leaves the table. -/
theorem Represents.off {st : PageStore × TableHeap} (h : Represents base st ps M) {rid : RID} {α : Type}
    (hno : NoHeapPage st.1.pages rid.pageId) (hfree : ∀ g ∈ st.1.guards, g.page ≠ rid.pageId) {m : HeapPage.PageM α} :
    wp (onPool (inScope do fetchPageWrite env rid.pageId; asHeapPage rid.pageId; onBody rid.pageId m))
      (fun _ _ => False) (fun _ st' => ∃ ps M, Represents base st' ps M) st := by
  rw [wp_onPool]
  apply wp_mono (wp_withPage_off hno hfree)
  · intro _ _ hf
    exact hf
  · intro e s' hr
    exact ⟨ps, M, h.steady' hr.1 (hr.2 ▸ h.table)⟩

/-- Every call leaves a table. -/
theorem Represents.perform (hlaw : env.Lawful) (hfuel : 2 ^ 32 ≤ fuel) {st : PageStore × TableHeap}
    (h : Represents base st ps M) {op : Op} (hop : Sensible st op) :
    ∃ a st', TableHeap.perform env build fuel op st = some (a, st') ∧ ∃ ps M, Represents base st' ps M := by
  have hsim : Refine.Simulation (TableHeap.perform env build fuel) Answers Legal
    (fun st M => ∃ ps, Represents base st ps M) (fun st => st.1.failures) := simulates_map hlaw hfuel
  have hlegal : Legal st op →
      ∃ a st', TableHeap.perform env build fuel op st = some (a, st') ∧ ∃ ps M, Represents base st' ps M := by
    intro hl
    obtain ⟨a, st', M', hstep, ⟨ps', h'⟩, -⟩ := hsim.step hl ⟨ps, h⟩
    exact ⟨a, st', hstep, ps', M', h'⟩
  have hoff : wp (TableHeap.perform env build fuel op) (fun _ _ => False)
      (fun _ st' => ∃ ps M, Represents base st' ps M) st →
      ∃ a st', TableHeap.perform env build fuel op st = some (a, st') ∧ ∃ ps M, Represents base st' ps M := by
    intro hwp
    cases wp_run hwp with
    | inl hok =>
      obtain ⟨_, _, _, hf⟩ := hok
      exact hf.elim
    | inr herr =>
      obtain ⟨e, st', hstep, hrep⟩ := herr
      exact ⟨.error e, st', hstep, hrep⟩
  cases op with
  | insert t => exact hlegal trivial
  | get rid => exact hlegal hop
  | reopen last => exact hlegal hop
  | delete rid =>
    cases hop with
    | inl hon => exact hlegal hon
    | inr hno =>
      apply hoff
      show wp (do delete env build rid; pure Answer.done) _ _ _
      unfold delete
      rw [wp_bind, wp_bind]
      exact wp_mono (h.off hno.1 hno.2) (fun _ _ hf => hf.elim) fun _ _ hrep => hrep
  | update rid t =>
    cases hop with
    | inl hon => exact hlegal hon
    | inr hno =>
      apply hoff
      show wp (do let r ← update env build fuel rid t; pure (Answer.rid r)) _ _ _
      unfold update
      rw [wp_bind, wp_bind]
      exact wp_mono (h.off hno.1 hno.2) (fun _ _ hf => hf.elim) fun _ _ hrep => hrep

theorem stays_table (hlaw : env.Lawful) (hfuel : 2 ^ 32 ≤ fuel) :
    Refine.Simulation (perform env build fuel) (fun (_ : Unit) _ _ _ => True) Sensible
      (fun st _ => ∃ ps M, Represents base st ps M) (fun _ => 0) where
  step hop hR := by
    obtain ⟨ps, M, h⟩ := hR
    obtain ⟨a, st', hstep, hrep⟩ := h.perform hlaw hfuel hop
    exact ⟨a, st', (), hstep, hrep, Nat.le_refl _, fun _ => trivial⟩

/-- On every table a run from `Create` leaves, `Scan` and any number of `Next`s report the live rows, each
once, in chain order and increasing slot order within a page, and then false for good. -/
theorem scan_reports_the_live_rows {s s₁ : PageStore} (hlaw : env.Lawful)
    (hlive : ∀ g ∈ s.guards, s.pages g.page ≠ none) (hfuel : 2 ^ 32 < fuel) {ops : List Op}
    (hops : ∀ t s₀, create env s = some (.ok t, s₀) → Refine.Kept (perform env build fuel) Sensible ops (s₀, t))
    {as : List (Except Status Answer)} {t : TableHeap} (hrun : createAndRun env build fuel ops s = some (.ok (as, t), s₁)) :
    ∃ ps rows, ChainOf s₁.pages t.firstPageId ps ∧
      (∀ r bytes, (r, bytes) ∈ rows ↔ Concurrent.liveRows s₁.pages ps r = some bytes) ∧
      rows.Pairwise (fun x y => Precedes ps x.1 y.1) ∧
      ∀ k, ∃ found s₂, Refine.run (nextRow env build fuel) (List.replicate k ()) (s₁, t.scan) = some (.ok found, s₂) ∧
        (s₂.1.failures = s₁.failures → found = Refine.popped rows k) := by
  have hrep : ∃ ps M, Represents s.pages (s₁, t) ps M := by
    unfold createAndRun at hrun
    cases hc : create env s with
    | none => rw [hc] at hrun; cases hrun
    | some r =>
      obtain ⟨r, s₀⟩ := r
      rw [hc] at hrun
      cases r with
      | error e => cases hrun
      | ok t₀ =>
        obtain ⟨hnew, -⟩ := wp_ok (wp_create hlaw hlive) hc
        obtain ⟨as', st', _, hrun', hR, -⟩ :=
          (stays_table hlaw (Nat.le_of_lt hfuel)).run (m := ()) (hops t₀ s₀ hc) ⟨_, _, hnew⟩
        dsimp only at hrun
        rw [hrun'] at hrun
        cases hrun
        exact hR
  obtain ⟨ps, M, h⟩ := hrep
  refine ⟨ps, rows s₁.pages ps 0, h.chainOf, fun r bytes => mem_rows h.table, rows_ordered h.table, fun k => ?_⟩
  obtain ⟨found, s₂, rem, hnexts, -, -, hallowed⟩ := (simulates_pop fuel).run
    (.of_forall (fun _ _ _ => trivial : ∀ u ∈ List.replicate k (), ∀ _, True))
    ⟨ps, h.position, Nat.lt_of_le_of_lt h.table.length_le hfuel, rfl⟩
  refine ⟨found, s₂, hnexts, fun hf => ?_⟩
  have hfound := congrArg Prod.fst (hallowed hf).compute_eq
  rw [Refine.compute_pop] at hfound
  exact hfound

/-- Deletes only on the first page. -/
def OnFirst (st : PageStore × TableHeap) : Op → Prop
  | .insert _ => True
  | .delete rid => rid.pageId = st.2.firstPageId
  | _ => False

instance (st : PageStore × TableHeap) : ∀ op : Op, Decidable (OnFirst st op)
  | .insert _ => isTrue trivial
  | .delete rid => inferInstanceAs (Decidable (rid.pageId = st.2.firstPageId))
  | .get _ => isFalse id
  | .update _ _ => isFalse id
  | .reopen _ => isFalse id

theorem OnFirst.sensible {st : PageStore × TableHeap} {op : Op} (h : OnFirst st op) : Sensible st op := by
  cases op with
  | insert t => trivial
  | delete rid =>
    have hfirst : rid.pageId = st.2.firstPageId := h
    exact .inl (hfirst ▸ .first)
  | get rid => exact h.elim
  | update rid t => exact h.elim
  | reopen last => exact h.elim

/-- Three rows of 2000 bytes on two pages; the first page is emptied before the scan. -/
def drained : List Op :=
  [.insert (List.replicate 2000 1), .insert (List.replicate 2000 2), .insert (List.replicate 2000 3),
    .delete ⟨2, 0⟩, .delete ⟨2, 1⟩]

/-- Every call of `drained` is on the first page, from where `Create` ends. -/
def drainedOnFirst : Except Status TableHeap × PageStore → Bool
  | (.ok t, s₀) => Refine.keeps (perform PoolEnv.countUp ⟨false, Bytes.Region.zero⟩ (2 ^ 32 + 1)) OnFirst drained (s₀, t)
  | _ => true

theorem scan_reports_the_live_rows_drained : ∃ as t s₁,
    createAndRun PoolEnv.countUp ⟨false, Bytes.Region.zero⟩ (2 ^ 32 + 1) drained PageStore.empty =
      some (.ok (as, t), s₁) ∧
    ∃ ps rows, ChainOf s₁.pages t.firstPageId ps ∧
      (∀ r bytes, (r, bytes) ∈ rows ↔ Concurrent.liveRows s₁.pages ps r = some bytes) ∧
      rows.Pairwise (fun x y => Precedes ps x.1 y.1) ∧
      ∀ k, ∃ found s₂, Refine.run (nextRow PoolEnv.countUp ⟨false, Bytes.Region.zero⟩ (2 ^ 32 + 1))
          (List.replicate k ()) (s₁, t.scan) = some (.ok found, s₂) ∧
        (s₂.1.failures = s₁.failures → found = Refine.popped rows k) := by
  have hok : (createAndRun PoolEnv.countUp ⟨false, Bytes.Region.zero⟩ (2 ^ 32 + 1) drained PageStore.empty).any
      (fun r => r.1.isOk) = true := by
    decide +kernel
  have hkept : (create PoolEnv.countUp PageStore.empty).all drainedOnFirst = true := by decide +kernel
  cases hrun : createAndRun PoolEnv.countUp ⟨false, Bytes.Region.zero⟩ (2 ^ 32 + 1) drained PageStore.empty with
  | none => rw [hrun] at hok; cases hok
  | some r =>
    obtain ⟨r, s₁⟩ := r
    cases r with
    | error e => rw [hrun] at hok; cases hok
    | ok found =>
      refine ⟨found.1, found.2, s₁, rfl, ?_⟩
      refine scan_reports_the_live_rows PoolEnv.countUp_lawful (by simp [PageStore.empty]) (Nat.lt_succ_self _) ?_ hrun
      intro t s₀ hcreate
      rw [hcreate] at hkept
      simp only [Option.all_some, drainedOnFirst] at hkept
      exact .imp (fun _ _ => OnFirst.sensible) (.of_keeps hkept)

end TableHeap
end KernSql
