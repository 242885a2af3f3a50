import KernSql.Buffer.PoolCalls

/- The pool refines the page store.

   A client that keeps to `guardProtocol` sees of the pool what it would see of a
   page store under some environment. The environment is made from a script, one
   entry for each call that the pool grants or refuses; it is lawful whatever the
   script. How much it may refuse is the `Mode`: anything if the disk may fail, only
   with every frame pinned if it does not, and nothing if, besides, the client
   takes no more guards than there are frames. -/
namespace KernSql
open Exec

/-- What becomes of one call: granted, for `NewPage` with this id, or refused, for `DeletePage` leaving this of the
page. -/
inductive Verdict where
  | granted (p : PageId)
  | refused (e : Status) (left : Option Page)

instance : Inhabited Verdict := ⟨.granted 0⟩

/-- How a pool may refuse pages that exist, and new ones. -/
inductive Mode where
  /-- At any time. -/
  | faulty
  /-- With `BufferPoolFull`, when `n` pages have guards on them. -/
  | full (n : Nat)
  /-- Never. -/
  | roomy

/-- The pages with guards on them: as many frames are pinned. -/
def PageStore.pinnedPages (s : PageStore) : Nat := (s.guards.map Guard.page).dedup.length

def Mode.may : Mode → PageStore → Status → Bool
  | .faulty, _, _ => true
  | .full n, s, e => n ≤ s.pinnedPages ∧ e.code = .bufferPoolFull
  | .roomy, _, _ => false

namespace PoolEnv

/-- The environment a script makes. An entry that the mode or the law does not allow is ignored, and `NewPage` then
answers `spare`. -/
def scripted (mode : Mode) (spare : Status) (script : Nat → Verdict) : PoolEnv where
  fetchFails s _ := match script s.calls with
    | .refused e _ => if mode.may s e then some e else none
    | .granted _ => none
  absent s _ := match script s.calls with
    | .refused e _ => e
    | .granted _ => spare
  newFails s := match script s.calls with
    | .refused e _ => if mode.may s e then some e else some spare
    | .granted p => if (s.pages p).isNone ∧ catalogRootPageId < p then none else some spare
  fresh s := match script s.calls with
    | .refused _ _ => 0
    | .granted p => p
  deleteFails s p := match script s.calls, mode with
    | .refused e left, .faulty => some (e, left)
    | .refused e _, _ => if s.pages p = none then some (e, none) else none
    | .granted _, _ => none

variable {mode : Mode} {spare e : Status} {script : Nat → Verdict}

theorem scripted_lawful : (scripted mode spare script).Lawful := by
  intro s h
  unfold scripted at h ⊢
  dsimp only at h ⊢
  cases hs : script s.calls with
  | refused e left =>
    rw [hs] at h
    dsimp only at h
    split at h <;> cases h
  | granted p =>
    rw [hs] at h
    dsimp only at h ⊢
    split at h
    · next hp => exact ⟨Option.isNone_iff_eq_none.mp hp.1, hp.2⟩
    · cases h

/-- What it refuses with, and when. -/
theorem scripted_refusal {s : PageStore}
    (h : (∃ p, (scripted mode spare script).fetchFails s p = some e) ∨ (scripted mode spare script).newFails s = some e) :
    mode.may s e = true ∨ e = spare := by
  unfold scripted at h
  dsimp only at h
  rcases h with ⟨p, h⟩ | h
  · cases hs : script s.calls with
    | refused e' left =>
      rw [hs] at h
      dsimp only at h
      split at h
      · next hmay =>
        cases h
        exact .inl hmay
      · cases h
    | granted p =>
      rw [hs] at h
      cases h
  · cases hs : script s.calls with
    | refused e' left =>
      rw [hs] at h
      dsimp only at h
      split at h
      · next hmay =>
        cases h
        exact .inl hmay
      · cases h
        exact .inr rfl
    | granted p =>
      rw [hs] at h
      dsimp only at h
      split at h
      · cases h
      · cases h
        exact .inr rfl

theorem scripted_refuses (h : (scripted mode spare script).Refuses e) : (∃ s, mode.may s e = true) ∨ e = spare := by
  rcases h with ⟨s, p, h⟩ | ⟨s, h⟩
  · exact (scripted_refusal (.inl ⟨p, h⟩)).imp_left fun hm => ⟨s, hm⟩
  · exact (scripted_refusal (.inr h)).imp_left fun hm => ⟨s, hm⟩

theorem scripted_refusesUnder {k : Nat} (h : (scripted mode spare script).RefusesUnder k e) :
    (∃ s, mode.may s e = true ∧ s.guards.length < k) ∨ e = spare := by
  rcases h with ⟨s, p, h, -, hlt⟩ | ⟨s, h, hlt⟩
  · exact (scripted_refusal (.inl ⟨p, h⟩)).imp_left fun hm => ⟨s, hm, hlt⟩
  · exact (scripted_refusal (.inr h)).imp_left fun hm => ⟨s, hm, hlt⟩

end PoolEnv

theorem PageStore.pinnedPages_le (s : PageStore) : s.pinnedPages ≤ s.guards.length := by
  have := (List.dedup_sublist (s.guards.map Guard.page)).length_le
  rwa [List.length_map] at this

/-- With fewer guards than frames a pool in this mode refuses with nothing but `spare`. -/
theorem Mode.full_room {n : Nat} {spare e : Status} {script : Nat → Verdict}
    (h : (PoolEnv.scripted (.full n) spare script).RefusesUnder n e) : e = spare := by
  rcases PoolEnv.scripted_refusesUnder h with ⟨s, hm, hlt⟩ | rfl
  · have hle := s.pinnedPages_le
    have := (of_decide_eq_true hm).1
    omega
  · rfl

theorem Mode.full_code {n k : Nat} {spare e : Status} {script : Nat → Verdict} (hspare : spare.code = .bufferPoolFull)
    (h : (PoolEnv.scripted (.full n) spare script).RefusesUnder k e) : e.code = .bufferPoolFull := by
  rcases PoolEnv.scripted_refusesUnder h with ⟨s, hm, -⟩ | rfl
  · exact (of_decide_eq_true hm).2
  · exact hspare

theorem Mode.roomy_refuses {spare e : Status} {script : Nat → Verdict}
    (h : (PoolEnv.scripted .roomy spare script).Refuses e) : e = spare := by
  rcases PoolEnv.scripted_refuses h with ⟨s, hm⟩ | rfl
  · cases hm
  · rfl

theorem Mode.roomy_fetches {spare e : Status} {script : Nat → Verdict} (s : PageStore) (p : PageId) :
    (PoolEnv.scripted .roomy spare script).fetchFails s p ≠ some e := by
  unfold PoolEnv.scripted
  dsimp only
  split
  · exact fun h => by cases h
  · exact fun h => by cases h

/-- A store under a script reads one entry a call. -/
theorem PageStore.scripted (mode : Mode) (spare : Status) :
    Prog.Scripted (fun f => PageStore.answer (.scripted mode spare f)) PageStore.calls where
  reads {f f' c s} heq := by
    cases c with
    | fetch latch p => simp only [PageStore.answer, fetchPage, PoolEnv.scripted, heq]
    | new => simp only [PageStore.answer, newPage, PoolEnv.scripted, heq]
    | delete p => simp only [PageStore.answer, deletePage, PoolEnv.scripted, heq]
    | _ => rfl
  ticks {f c s s' r} hr := by
    cases c with
    | fetch latch p =>
      refine .inl ?_
      simp only [PageStore.answer, fetchPage] at hr
      split at hr
      · cases hr
      · split at hr
        · cases hr
          exact Nat.lt_succ_self _
        · split at hr <;> cases hr <;> exact Nat.lt_succ_self _
    | new =>
      refine .inl ?_
      simp only [PageStore.answer, newPage] at hr
      split at hr <;> cases hr <;> exact Nat.lt_succ_self _
    | delete p =>
      refine .inl ?_
      simp only [PageStore.answer, deletePage] at hr
      split at hr
      · cases hr
        exact Nat.lt_succ_self _
      · split at hr
        · cases hr
          exact Nat.lt_succ_self _
        · split at hr <;> cases hr <;> exact Nat.lt_succ_self _
    | look p =>
      obtain ⟨pg, -, he⟩ := Option.map_eq_some_iff.mp hr
      cases he
      exact .inr ⟨rfl, fun _ => rfl⟩
    | edit p e =>
      obtain ⟨pg, -, he⟩ := Option.map_eq_some_iff.mp hr
      cases he
      exact .inr ⟨rfl, fun _ => rfl⟩
    | drop p latch =>
      cases hr
      exact .inr ⟨rfl, fun _ => rfl⟩
    | enter =>
      cases hr
      exact .inr ⟨rfl, fun _ => rfl⟩
    | leave saved =>
      cases hr
      exact .inr ⟨rfl, fun _ => rfl⟩

/-! The pool behind the store. -/

/-- What the layers above see of a pool of `n` frames whose callers keep their promises about page types. -/
structure Mirrors (n : Nat) (s : PageStore) (b : BufferPool) : Prop where
  inv : b.Inv BufferPool.keepsTypes []
  pages : b.view = s.pages
  guards : b.held.map Held.guard = s.guards
  capacity : b.capacity = n

namespace BufferPool
open DiskManager

/-- Calls the pool's contract leaves out: a new page when no id is left, and, in a debug build, a fetch of an id
that it asserts away. -/
def Outside (cfg : PoolConfig) (b : BufferPool) : PoolCall → Prop
  | .new => b.disk.freelistHead = invalidPage ∧ b.disk.pageCount = Int32.maxValue
  | .fetch _ p => ¬Askable cfg p
  | _ => False

instance {cfg : PoolConfig} {b : BufferPool} {c : PoolCall} : Decidable (Outside cfg b c) :=
  match c with
  | .new => inferInstanceAs (Decidable (_ ∧ _))
  | .fetch _ p => inferInstanceAs (Decidable (¬(cfg.debug = true → -1 ≤ p)))
  | .delete _ => isFalse id
  | .look _ => isFalse id
  | .edit _ _ => isFalse id
  | .drop _ _ => isFalse id
  | .enter => isFalse id
  | .leave _ => isFalse id

/-- No guard is alive and no frame is pinned. -/
def AtRest (b : BufferPool) : Prop := b.held = [] ∧ ∀ f < b.capacity, (b.frames f).pinCount = 0

theorem Inv.atRest {typed : PageId → PageType → Prop} {b : BufferPool} (h : b.Inv typed []) (hheld : b.held = []) :
    b.AtRest :=
  ⟨hheld, fun _ hf => (h.unguarded hheld hf).1⟩

end BufferPool

namespace Mirrors
open BufferPool DiskManager
variable {cfg : PoolConfig} {n : Nat} {s : PageStore} {b b' : BufferPool} {p : PageId} {latch : Latch}

theorem guard_mem (h : Mirrors n s b) {g : Held} (hg : g ∈ b.held) : g.guard ∈ s.guards := by
  rw [← h.guards]
  exact List.mem_map_of_mem hg

theorem mem_guards (h : Mirrors n s b) {g : Guard} (hg : g ∈ s.guards) : ∃ g' ∈ b.held, g'.guard = g := by
  rw [← h.guards] at hg
  exact List.mem_map.mp hg

/-- Pages with guards and pinned frames are as many. -/
theorem card_pinned (h : Mirrors n s b) : (b.held.map Held.frame).toFinset.card = s.pinnedPages := by
  have hframe : ∀ g ∈ b.held, (b.table g.page).getD 0 = g.frame := by
    intro g hg
    rw [h.inv.held g hg]
    rfl
  have himage : (b.held.map Held.frame).toFinset = (b.held.map Held.page).toFinset.image fun p => (b.table p).getD 0 := by
    ext f
    simp only [List.mem_toFinset, List.mem_map, Finset.mem_image, exists_exists_and_eq_and]
    constructor
    · intro ⟨g, hg, hf⟩
      exact ⟨g, hg, (hframe g hg).trans hf⟩
    · intro ⟨g, hg, hf⟩
      exact ⟨g, hg, (hframe g hg).symm.trans hf⟩
  have hinj : Set.InjOn (fun p => (b.table p).getD 0) (b.held.map Held.page).toFinset := by
    intro p hp q hq heq
    simp only [List.coe_toFinset, Set.mem_ofPred_eq, List.mem_map] at hp hq
    obtain ⟨g, hg, rfl⟩ := hp
    obtain ⟨g', hg', rfl⟩ := hq
    simp only [hframe g hg, hframe g' hg'] at heq
    exact h.inv.table_unique (h.inv.held g hg) (heq ▸ h.inv.held g' hg')
  rw [himage, Finset.card_image_of_injOn hinj, List.card_toFinset, PageStore.pinnedPages, ← h.guards, List.map_map]
  rfl

/-- Every frame is pinned exactly if that many pages have guards on them. -/
theorem allPinned (h : Mirrors n s b) : b.AllPinned ↔ b.capacity ≤ s.pinnedPages := by
  have hpin : ∀ f < b.capacity, 0 < (b.frames f).pinCount ↔ f ∈ (b.held.map Held.frame).toFinset := by
    intro f hf
    rw [h.inv.pins hf, Int.natCast_pos, guardsOn, List.countP_pos_iff]
    simp
  have hsub : (b.held.map Held.frame).toFinset ⊆ Finset.range b.capacity := by
    intro f hf
    simp only [List.mem_toFinset, List.mem_map] at hf
    obtain ⟨g, hg, rfl⟩ := hf
    exact Finset.mem_range.mpr (h.inv.resident (h.inv.held g hg)).1
  rw [← h.card_pinned]
  constructor
  · intro hall
    have hle := Finset.card_le_card fun f hf => (hpin f (Finset.mem_range.mp hf)).mp (hall f (Finset.mem_range.mp hf))
    rwa [Finset.card_range] at hle
  · intro hcap f hf
    have heq := Finset.eq_of_subset_of_card_le hsub (by rwa [Finset.card_range])
    rw [hpin f hf, heq]
    exact Finset.mem_range.mpr hf

theorem pinned_iff (h : Mirrors n s b) : s.pinned p = true ↔ ∃ g ∈ b.held, g.page = p := by
  rw [PageStore.pinned, ← h.guards, List.any_map, List.any_eq_true]
  constructor
  · rintro ⟨g, hg, hp⟩
    exact ⟨g, hg, of_decide_eq_true hp⟩
  · rintro ⟨g, hg, hp⟩
    exact ⟨g, hg, decide_eq_true hp⟩

theorem fetchable (h : Mirrors n s b) (hfree : s.conflicts latch p = false) : b.Fetchable latch p := by
  refine h.inv.fetchable fun g hg hp => ?_
  simp only [PageStore.conflicts, List.any_eq_false, decide_eq_true_eq, not_and, not_or] at hfree
  obtain ⟨h1, h2⟩ := hfree g.guard (h.guard_mem hg) hp
  constructor
  · cases latch with
    | read => rfl
    | write => exact absurd rfl h1
  · show g.guard.latch = .read
    cases hl : g.guard.latch with
    | read => rfl
    | write => exact absurd hl h2

/-- The store and the pool wait for the same latches. -/
theorem conflicts_iff (h : Mirrors n s b) : s.conflicts latch p = false ↔ b.Fetchable latch p := by
  refine ⟨h.fetchable, fun hf => ?_⟩
  simp only [PageStore.conflicts, List.any_eq_false, decide_eq_true_eq, not_and]
  intro g hg hp hconf
  obtain ⟨g', hg', rfl⟩ := h.mem_guards hg
  have hblock := hf g'.frame (hp ▸ h.inv.held g' hg')
  simp only [blocks, List.any_eq_false, decide_eq_true_eq, not_and] at hblock
  exact hblock g' hg' rfl hconf

theorem held_inj (h : Mirrors n s b) {g g' : Held} (hg : g ∈ b.held) (hg' : g' ∈ b.held) (he : g.guard = g'.guard) :
    g = g' := by
  have hpage : g.page = g'.page := congrArg Guard.page he
  have hlatch : g.latch = g'.latch := congrArg Guard.latch he
  have hframe : g.frame = g'.frame := Option.some.inj ((h.inv.held g hg).symm.trans (hpage ▸ h.inv.held g' hg'))
  cases g
  cases g'
  cases hpage
  cases hlatch
  cases hframe
  rfl

/-- The mode describes this pool and this client. -/
def Fits (cfg : PoolConfig) (n : Nat) (limit : Option Nat) : Mode → Prop
  | .faulty => True
  | .full m => m = n ∧ Reliable cfg.disk
  | .roomy => Reliable cfg.disk ∧ ∃ k ∈ limit, k ≤ n

variable {mode : Mode} {limit : Option Nat} {spare e : Status}

/-- A pool with every frame pinned may refuse. -/
theorem may_full (h : Mirrors n s b) (hfit : Fits cfg n limit mode) (hk : ∀ k ∈ limit, s.guards.length < k)
    (hcode : e.code = .bufferPoolFull) (hall : b.AllPinned) : mode.may s e = true := by
  have hpin := h.allPinned.mp hall
  rw [h.capacity] at hpin
  cases mode with
  | faulty => rfl
  | full m =>
    obtain ⟨rfl, -⟩ := hfit
    exact decide_eq_true ⟨hpin, hcode⟩
  | roomy =>
    obtain ⟨-, k, hmem, hkn⟩ := hfit
    have hlt := hk k hmem
    have hle := s.pinnedPages_le
    omega

theorem may_refuse (h : Mirrors n s b) (hfit : Fits cfg n limit mode) (hk : ∀ k ∈ limit, s.guards.length < k)
    (hfull : Reliable cfg.disk → e.code = .bufferPoolFull ∧ b.AllPinned) : mode.may s e = true := by
  cases mode with
  | faulty => rfl
  | full m =>
    obtain ⟨hcode, hall⟩ := hfull hfit.2
    exact h.may_full hfit hk hcode hall
  | roomy =>
    obtain ⟨hcode, hall⟩ := hfull hfit.1
    exact h.may_full hfit hk hcode hall

theorem fetch (h : Mirrors n s b) (hfit : Fits cfg n limit mode) (hk : ∀ k ∈ limit, s.guards.length < k)
    (hask : Askable cfg p) {r : Except Status Held} (hrun : BufferPool.fetchPage cfg latch p b = some (r, b')) :
    ∃ x, ∀ f, f s.calls = x → ∃ s', KernSql.fetchPage (.scripted mode spare f) latch p s = some (r.map fun _ => (), s') ∧
      Mirrors n s' b' ∧ s'.guards = (guardProtocol limit).next s.guards (.fetch latch p) (r.map fun _ => ()) := by
  have hfetch := fetchable_of_returns h.inv (wp_ends hrun)
  have hfree := h.conflicts_iff.mpr hfetch
  have hspec : wp (BufferPool.fetchPage cfg latch p) _ _ b := BufferPool.wp_fetchPage h.inv typing_keepsTypes hask hfetch
  cases r with
  | ok g =>
    obtain ⟨hf, rfl, rfl, -⟩ := wp_ok hspec hrun
    have hview := hf.view noFree_keepsTypes
    have hpage : s.pages g.page = some (b'.frames g.frame).data := by
      rw [← h.pages, ← hview]
      exact hf.inv.shown (by rw [hf.held]; exact List.mem_cons_self)
    refine ⟨.granted 0, fun f hf' => ⟨{ s with calls := s.calls + 1, guards := ⟨g.page, g.latch⟩ :: s.guards }, ?_, ?_, rfl⟩⟩
    · unfold KernSql.fetchPage PoolEnv.scripted
      simp only [hfree, hf', hpage, Bool.false_eq_true, if_false]
      rfl
    · refine ⟨hf.inv, hview.trans h.pages, ?_, hf.capacity.trans h.capacity⟩
      rw [hf.held, List.map_cons, h.guards]
      rfl
  | error e =>
    have hn := wp_error hspec hrun
    refine ⟨.refused e none, fun f hf' =>
      ⟨{ s with calls := s.calls + 1, failures := s.failures + 1 }, ?_, ?_, rfl⟩⟩
    · unfold KernSql.fetchPage PoolEnv.scripted
      simp only [hfree, hf', Bool.false_eq_true, if_false]
      by_cases hmay : mode.may s e = true
      · rw [if_pos hmay]
        rfl
      · -- a page that exists is refused only as the mode allows
        have habsent : s.pages p = none := by
          by_contra hp
          refine hmay (h.may_refuse hfit hk fun hrel => ?_)
          have hcode : e.code = .bufferPoolFull := by
            by_contra hne
            exact hp (h.pages ▸ hn.absent hrel noFree_keepsTypes hne)
          exact ⟨hcode, (hn.full hcode).2.1⟩
        rw [if_neg hmay, habsent]
        rfl
    · exact ⟨hn.quiet.inv, (hn.quiet.view noFree_keepsTypes).trans h.pages, hn.quiet.held ▸ h.guards,
        hn.quiet.capacity.trans h.capacity⟩

/-- The pool and the store go wrong on the same fetches. -/
theorem fetch_stuck (h : Mirrors n s b) (hask : Askable cfg p) (hrun : BufferPool.fetchPage cfg latch p b = none)
    (env : PoolEnv) : KernSql.fetchPage env latch p s = none := by
  by_cases hfree : s.conflicts latch p = false
  · have hspec : wp (BufferPool.fetchPage cfg latch p) _ _ b :=
      BufferPool.wp_fetchPage h.inv typing_keepsTypes hask (h.conflicts_iff.mp hfree)
    unfold wp at hspec
    rw [hrun] at hspec
    exact hspec.elim
  · unfold KernSql.fetchPage
    rw [if_pos (Bool.eq_true_of_not_eq_false hfree)]

theorem new (h : Mirrors n s b) (hfit : Fits cfg n limit mode) (hk : ∀ k ∈ limit, s.guards.length < k)
    (hroom : ¬Outside cfg b .new) {r : Except Status Held} (hrun : BufferPool.newPage cfg b = some (r, b')) :
    (guardProtocol limit).answers s.guards .new (r.map Held.page) ∧
    ∃ x, ∀ f, f s.calls = x → ∃ s', KernSql.newPage (.scripted mode spare f) s = some (r.map Held.page, s') ∧
      Mirrors n s' b' ∧ s'.guards = (guardProtocol limit).next s.guards .new (r.map Held.page) := by
  have hspec : wp (BufferPool.newPage cfg) _ _ b :=
    BufferPool.wp_newPage h.inv typing_keepsTypes fun hnil hmax => hroom ⟨hnil, hmax⟩
  cases r with
  | ok g =>
    obtain ⟨hc, -⟩ := wp_ok hspec hrun
    have hnone : s.pages g.page = none := h.pages ▸ hc.fresh noFree_keepsTypes
    have htwo : catalogRootPageId < g.page := PageId.lt_of_lt_of_le (by decide) hc.two_le
    refine ⟨htwo, .granted g.page, fun f hf => ⟨{ s.setPage g.page (some (blankPage g.page)) with
      calls := s.calls + 1, guards := ⟨g.page, .write⟩ :: s.guards }, ?_, ?_, rfl⟩⟩
    · unfold KernSql.newPage PoolEnv.scripted
      simp only [hf, hnone, Option.isNone_none, htwo, and_self, if_true]
      rfl
    · refine ⟨hc.inv, ?_, ?_, hc.capacity.trans h.capacity⟩
      · rw [hc.view noFree_keepsTypes, h.pages]
        rfl
      · rw [hc.held, List.map_cons, h.guards, Held.guard, hc.latch]
  | error e =>
    have hn := wp_error hspec hrun
    refine ⟨trivial, .refused e none, fun f hf =>
      ⟨{ s with calls := s.calls + 1, failures := s.failures + 1 }, ?_, ?_, rfl⟩⟩
    · have hmay : mode.may s e = true := h.may_refuse hfit hk fun hrel => by
        have hcode : e.code = .bufferPoolFull := by
          by_contra hne
          exact hn.failed hne hrel
        exact ⟨hcode, (hn.full hcode).1⟩
      unfold KernSql.newPage PoolEnv.scripted
      simp only [hf, hmay, if_true]
      rfl
    · exact ⟨hn.inv, (hn.view noFree_keepsTypes).trans h.pages, hn.held ▸ h.guards, hn.capacity.trans h.capacity⟩

/-- A reserved page is refused with the same words by both. -/
theorem delete_reserved (hp : p = metaPageId ∨ p = catalogRootPageId) {r : Except Status Unit}
    (hrun : BufferPool.deletePage cfg p b = some (r, b')) (env : PoolEnv) :
    b' = b ∧ KernSql.deletePage env p s = some (r, { s with calls := s.calls + 1, leaks := s.leaks + 1 }) := by
  unfold BufferPool.deletePage at hrun
  unfold KernSql.deletePage
  rw [if_pos hp] at hrun ⊢
  cases hrun
  exact ⟨rfl, rfl⟩

/-- So is a page with guards on it: each is a pin of its frame. -/
theorem delete_pinned (h : Mirrors n s b) (hp : ¬(p = metaPageId ∨ p = catalogRootPageId)) (hpin : s.pinned p = true)
    {r : Except Status Unit} (hrun : BufferPool.deletePage cfg p b = some (r, b')) (env : PoolEnv) :
    b' = b ∧ KernSql.deletePage env p s = some (r, { s with calls := s.calls + 1, leaks := s.leaks + 1 }) := by
  obtain ⟨g, hg, rfl⟩ := h.pinned_iff.mp hpin
  have hm := h.inv.held g hg
  obtain ⟨hcap, hr⟩ := h.inv.resident hm
  have hcount : s.guards.countP (fun g' => g'.page = g.page) = b.guardsOn g.frame := by
    rw [← h.guards, List.countP_map, guardsOn]
    refine List.countP_congr fun g' hg' => ?_
    simp only [Function.comp, Held.guard, decide_eq_true_eq]
    exact decide_eq_true_iff.trans (h.inv.guard_page hm hg').symm
  have hpos : (b.frames g.frame).pinCount ≠ 0 := by
    rw [hr.pinCount]
    have : 0 < b.guardsOn g.frame := List.countP_pos_iff.mpr ⟨g, hg, by simp⟩
    omega
  have hpool : BufferPool.deletePage cfg g.page b = some (.error ⟨.invalidArgument,
      s!"page {g.page.toInt} is pinned ({(b.frames g.frame).pinCount} holders) and cannot be deleted"⟩, b) := by
    unfold BufferPool.deletePage
    rw [if_neg hp]
    have hframe : frameAt cfg g.frame b = some (.ok (b.frames g.frame), b) := by
      unfold frameAt asserts
      rw [bind_of_ok (rfl : (get : BufferM BufferPool) b = some (.ok b, b)), bind_of_ok (check_of_pos fun _ => hcap)]
      rfl
    rw [bind_of_ok (rfl : (get : BufferM BufferPool) b = some (.ok b, b)), hm]
    dsimp only
    rw [bind_of_ok hframe, if_pos hpos]
    rfl
  rw [hpool] at hrun
  cases hrun
  refine ⟨rfl, ?_⟩
  unfold KernSql.deletePage
  rw [if_neg hp, if_pos hpin, hcount, hr.pinCount]
  rfl

theorem delete (h : Mirrors n s b) (hfit : Fits cfg n limit mode) {r : Except Status Unit}
    (hrun : BufferPool.deletePage cfg p b = some (r, b')) :
    ∃ x, ∀ f, f s.calls = x → ∃ s', KernSql.deletePage (.scripted mode spare f) p s = some (r, s') ∧
      Mirrors n s' b' ∧ s'.guards = s.guards := by
  by_cases hp : p = metaPageId ∨ p = catalogRootPageId
  · refine ⟨.granted 0, fun f _ => ?_⟩
    obtain ⟨rfl, hstore⟩ := delete_reserved (s := s) hp hrun (.scripted mode spare f)
    exact ⟨_, hstore, ⟨h.inv, h.pages, h.guards, h.capacity⟩, rfl⟩
  by_cases hpin : s.pinned p = true
  · refine ⟨.granted 0, fun f _ => ?_⟩
    obtain ⟨rfl, hstore⟩ := h.delete_pinned hp hpin hrun (.scripted mode spare f)
    exact ⟨_, hstore, ⟨h.inv, h.pages, h.guards, h.capacity⟩, rfl⟩
  have hspec : wp (BufferPool.deletePage cfg p) _ _ b := BufferPool.wp_deletePage h.inv
  cases r with
  | ok _ =>
    have hd := wp_ok hspec hrun
    refine ⟨.granted 0, fun f hf => ⟨{ s.setPage p none with calls := s.calls + 1 }, ?_, ⟨hd.inv, ?_, ?_, ?_⟩, rfl⟩⟩
    · unfold KernSql.deletePage PoolEnv.scripted
      simp only [if_neg hp, if_neg hpin, hf]
    · rw [hd.view noFree_keepsTypes, h.pages]
      rfl
    · rw [hd.held]
      exact h.guards
    · exact hd.capacity.trans h.capacity
  | error e =>
    have hn := wp_error hspec hrun
    -- without disk errors only a page that is not there is refused, and nothing happened
    have hgone : Reliable cfg.disk → s.pages p = none ∧ b' = b := by
      intro hrel
      have hnot : ¬b.Deletable p := fun hd => hn.failed hd hrel
      refine ⟨?_, hn.refused hnot⟩
      by_contra hpage
      have hin := h.inv.shown_inside (h.pages ▸ hpage)
      obtain ⟨hmeta, h0⟩ := one_le_iff.mp hin.1
      have h2 := PageId.two_le h0 hmeta fun hc => hp (.inr hc)
      obtain ⟨g, hg, rfl⟩ := h.inv.not_deletable hnot (h.pages ▸ hpage) h2
      exact hpin (h.pinned_iff.mpr ⟨g, hg, rfl⟩)
    have hview : b'.view = Function.update s.pages p (b'.view p) := by
      funext q
      by_cases hq : q = p
      · rw [hq, Function.update_self]
      · rw [Function.update_of_ne hq, hn.others q hq, h.pages]
    refine ⟨.refused e (b'.view p), fun f hf => ⟨{ s.setPage p (b'.view p) with
      calls := s.calls + 1, leaks := s.leaks + 1 }, ?_, ⟨hn.inv, hview, ?_, hn.capacity.trans h.capacity⟩, rfl⟩⟩
    · unfold KernSql.deletePage PoolEnv.scripted
      simp only [if_neg hp, if_neg hpin, hf]
      cases mode with
      | faulty => rfl
      | full m =>
        obtain ⟨hnone, rfl⟩ := hgone hfit.2
        rw [h.pages, hnone]
        rfl
      | roomy =>
        obtain ⟨hnone, rfl⟩ := hgone hfit.1
        rw [h.pages, hnone]
        rfl
    · rw [hn.held]
      exact h.guards

/-! Through a guard. -/

theorem look (h : Mirrors n s b) (cfg : PoolConfig) (hg : ⟨p, latch⟩ ∈ s.guards) :
    ∃ pg, answer cfg (.look p) b = some (pg, b) ∧ s.pages p = some pg := by
  obtain ⟨g', hg', he⟩ := h.mem_guards hg
  have hpage : g'.page = p := congrArg Guard.page he
  cases hfind : b.held.find? fun g => g.page = p with
  | none => exact absurd (decide_eq_true hpage) (List.find?_eq_none.mp hfind g' hg')
  | some g =>
    have hp : g.page = p := by simpa using List.find?_some hfind
    refine ⟨(b.frames g.frame).data, ?_, ?_⟩
    · show (b.held.find? _).bind _ = _
      rw [hfind]
      rfl
    · rw [← h.pages, ← hp]
      exact h.inv.shown (List.mem_of_find?_eq_some hfind)

/-- The guard a client means by a page and a latch. -/
theorem find_guard (h : Mirrors n s b) {g : Guard} (hg : g ∈ s.guards) :
    ∃ g' ∈ b.held, b.held.find? (fun x => x.guard = g) = some g' ∧ g'.guard = g := by
  obtain ⟨g', hg', he⟩ := h.mem_guards hg
  cases hfind : b.held.find? fun x => x.guard = g with
  | none => exact absurd (decide_eq_true he) (List.find?_eq_none.mp hfind g' hg')
  | some x => exact ⟨x, List.mem_of_find?_eq_some hfind, rfl, by simpa using List.find?_some hfind⟩

theorem edit (h : Mirrors n s b) (cfg : PoolConfig) {e : Edit} (hg : ⟨p, .write⟩ ∈ s.guards)
    (he : Edit.Allowed keepsTypes p e) :
    ∃ pg b', answer cfg (.edit p e) b = some ((), b') ∧ s.pages p = some pg ∧
      Mirrors n (s.setPage p (some (e.apply pg))) b' := by
  obtain ⟨g, hmem, hfind, hgd⟩ := h.find_guard hg
  have hp : g.page = p := congrArg Guard.page hgd
  have hlatch : g.latch = .write := congrArg Guard.latch hgd
  subst hp
  have hpage : s.pages g.page = some (b.frames g.frame).data := by
    rw [← h.pages]
    exact h.inv.shown hmem
  refine ⟨_, b.edited g e, ?_, hpage, h.inv.edited hmem hlatch he, ?_, h.guards, h.capacity⟩
  · show (b.held.find? _).bind _ = _
    rw [hfind]
    rfl
  · rw [view_edited h.inv hmem, h.pages, hpage]
    rfl

theorem map_erase (h : Mirrors n s b) {g : Held} (hg : g ∈ b.held) :
    (b.held.erase g).map Held.guard = s.guards.erase g.guard := by
  rw [← h.guards]
  have hinj : ∀ l : List Held, (∀ x ∈ l, x.guard = g.guard → x = g) →
      (l.erase g).map Held.guard = (l.map Held.guard).erase g.guard := by
    intro l
    induction l with
    | nil => intro _; rfl
    | cons x l ih =>
      intro hl
      by_cases hx : x = g
      · rw [hx, List.erase_cons_head, List.map_cons, List.erase_cons_head]
      · have hxg : x.guard ≠ g.guard := fun he => hx (hl x List.mem_cons_self he)
        rw [List.erase_cons_tail (by simpa using hx), List.map_cons, List.map_cons, List.erase_cons_tail (by simpa using hxg),
          ih fun y hy => hl y (List.mem_cons_of_mem _ hy)]
  exact hinj b.held fun x hx he => h.held_inj hx hg he

theorem drop_held (h : Mirrors n s b) (cfg : PoolConfig) {g : Held} (hg : g ∈ b.held) :
    settle (BufferPool.drop cfg g b) = some ((), b.dropped g) ∧
      Mirrors n { s with guards := s.guards.erase g.guard } (b.dropped g) := by
  have hspec : wp (BufferPool.drop cfg g) (fun _ b' => b' = b.dropped g) (fun _ _ => False) b := wp_drop h.inv hg rfl
  refine ⟨?_, h.inv.dropped hg, view_dropped.trans h.pages, h.map_erase hg, h.capacity⟩
  obtain ⟨_, b', hrun, rfl⟩ | ⟨_, _, _, hf⟩ := wp_run hspec
  · rw [hrun]
    rfl
  · exact hf.elim

theorem drop (h : Mirrors n s b) (cfg : PoolConfig) (hg : ⟨p, latch⟩ ∈ s.guards) :
    ∃ b', answer cfg (.drop p latch) b = some ((), b') ∧
      Mirrors n { s with guards := s.guards.erase ⟨p, latch⟩ } b' := by
  obtain ⟨g, hmem, hfind, hgd⟩ := h.find_guard hg
  obtain ⟨hrun, hm⟩ := h.drop_held cfg hmem
  refine ⟨b.dropped g, ?_, hgd ▸ hm⟩
  show (b.held.find? _).bind _ = _
  rw [hfind]
  exact hrun

/-- The destructors at the end of a scope. -/
theorem dropNewest (cfg : PoolConfig) : ∀ (taken : List Guard) {saved : List Guard} {s : PageStore} {b : BufferPool},
    Mirrors n s b → s.guards = taken ++ saved →
    ∃ b', BufferPool.dropNewest cfg taken.length b = some b' ∧ Mirrors n { s with guards := saved } b'
  | [], saved, s, b, h, hg => ⟨b, rfl, h.inv, h.pages, h.guards.trans hg, h.capacity⟩
  | g :: taken, saved, s, b, h, hg => by
    have hheld := h.guards.trans hg
    cases hb : b.held with
    | nil =>
      rw [hb] at hheld
      cases hheld
    | cons x rest =>
      rw [hb, List.map_cons, List.cons_append] at hheld
      obtain ⟨hx, -⟩ := List.cons.inj hheld
      have hmem : x ∈ b.held := by
        rw [hb]
        exact List.mem_cons_self
      obtain ⟨hrun, hm⟩ := h.drop_held cfg hmem
      have hrest : s.guards.erase x.guard = taken ++ saved := by
        rw [hg, hx, List.cons_append, List.erase_cons_head]
      obtain ⟨b', hb', hm'⟩ := dropNewest cfg taken hm hrest
      refine ⟨b', ?_, hm'⟩
      rw [List.length_cons, BufferPool.dropNewest, hb]
      dsimp only
      rw [hrun]
      exact hb'

theorem leave (h : Mirrors n s b) (cfg : PoolConfig) {saved : List Guard} (hsuf : saved <:+ s.guards) :
    ∃ b', answer cfg (.leave saved) b = some ((), b') ∧ Mirrors n { s with guards := saved } b' := by
  obtain ⟨taken, hg⟩ := hsuf
  obtain ⟨b', hrun, hm⟩ := dropNewest cfg taken h hg.symm
  refine ⟨b', ?_, hm⟩
  have hlen : b.held.length - saved.length = taken.length := by
    have := congrArg List.length (h.guards.trans hg.symm)
    rw [List.length_map, List.length_append] at this
    omega
  show (BufferPool.dropNewest cfg _ b).map _ = _
  rw [hlen, hrun]
  rfl

/-- The pool answers a client that keeps to the protocol as a store under some script does. -/
theorem simulates (hfit : Fits cfg n limit mode) (spare : Status) :
    Prog.Simulates (fun f => PageStore.answer (.scripted mode spare f)) PageStore.calls (answer cfg)
      (guardProtocol limit) PageStore.guards (Mirrors n) (Outside cfg) where
  scripted := PageStore.scripted mode spare
  step {s b b' c r} h hlegal hgood hrun := by
    cases c with
    | fetch latch p =>
      obtain ⟨⟨r₁, b₁⟩, hx, he⟩ := Option.map_eq_some_iff.mp hrun
      cases he
      exact ⟨trivial, h.fetch hfit hlegal (not_not.mp hgood) hx⟩
    | new =>
      obtain ⟨⟨r₁, b₁⟩, hx, he⟩ := Option.map_eq_some_iff.mp hrun
      cases he
      exact h.new hfit hlegal hgood hx
    | delete p => exact ⟨trivial, h.delete hfit hrun⟩
    | look p =>
      obtain ⟨latch, hg⟩ := hlegal
      obtain ⟨pg, hx, hpage⟩ := h.look cfg hg
      cases hx.symm.trans hrun
      refine ⟨trivial, default, fun f _ => ⟨s, ?_, h, rfl⟩⟩
      show (s.pages p).map _ = _
      rw [hpage]
      rfl
    | edit p e =>
      obtain ⟨pg, b₁, hx, hpage, hm⟩ := h.edit cfg hlegal.1 hlegal.2
      cases hx.symm.trans hrun
      refine ⟨trivial, default, fun f _ => ⟨_, ?_, hm, rfl⟩⟩
      show (s.pages p).map _ = _
      rw [hpage]
      rfl
    | drop p latch =>
      obtain ⟨b₁, hx, hm⟩ := h.drop cfg hlegal
      cases hx.symm.trans hrun
      exact ⟨trivial, default, fun f _ => ⟨_, rfl, hm, rfl⟩⟩
    | enter =>
      cases hrun
      exact ⟨h.guards, default, fun f _ => ⟨s, by rw [h.guards]; rfl, h, rfl⟩⟩
    | leave saved =>
      obtain ⟨b₁, hx, hm⟩ := h.leave cfg hlegal
      cases hx.symm.trans hrun
      exact ⟨trivial, default, fun f _ => ⟨_, rfl, hm, rfl⟩⟩
  stuck {s b c} h hlegal hgood hrun f := by
    cases c with
    | fetch latch p => exact h.fetch_stuck (not_not.mp hgood) (Option.map_eq_none_iff.mp hrun) _
    | new =>
      have hspec : wp (BufferPool.newPage cfg) _ _ b :=
        BufferPool.wp_newPage h.inv typing_keepsTypes fun hnil hmax => hgood ⟨hnil, hmax⟩
      unfold wp at hspec
      rw [Option.map_eq_none_iff.mp hrun] at hspec
      exact hspec.elim
    | delete p =>
      have hspec : wp (BufferPool.deletePage cfg p) _ _ b := BufferPool.wp_deletePage h.inv
      have hnone : BufferPool.deletePage cfg p b = none := hrun
      unfold wp at hspec
      rw [hnone] at hspec
      exact hspec.elim
    | look p =>
      obtain ⟨latch, hg⟩ := hlegal
      obtain ⟨pg, hx, -⟩ := h.look cfg hg
      cases hx.symm.trans hrun
    | edit p e =>
      obtain ⟨pg, b₁, hx, -⟩ := h.edit cfg hlegal.1 hlegal.2
      cases hx.symm.trans hrun
    | drop p latch =>
      obtain ⟨b₁, hx, -⟩ := h.drop cfg hlegal
      cases hx.symm.trans hrun
    | enter => cases hrun
    | leave saved =>
      obtain ⟨b₁, hx, -⟩ := h.leave cfg hlegal
      cases hx.symm.trans hrun

theorem atRest (h : Mirrors n s b) (hg : s.guards = []) : b.AtRest :=
  h.inv.atRest (List.map_eq_nil_iff.mp (h.guards.trans hg))

/-- Whatever the disk does and whatever the pages hold, a client that keeps its guards leaves the pool at rest. -/
theorem run_atRest {α : Type} {m : PoolProg α} {r : Except Status α} (h : Mirrors n s b) (hg : s.guards = [])
    (hkeep : Pool.KeepsGuards limit m s.guards) (hav : m.Avoids (answer cfg) (Outside cfg) b)
    (hrun : m.run (answer cfg) b = some (r, b')) : Inv keepsTypes b' [] ∧ b'.AtRest := by
  have hfit : Fits cfg n limit .faulty := trivial
  obtain ⟨script, hsome, -⟩ := (simulates hfit ⟨.ioError, ""⟩).run m h hkeep hav
  obtain ⟨s', hs', h'⟩ := hsome r b' hrun
  exact ⟨h'.inv, h'.atRest ((PageStore.guards_of_keeps PoolEnv.scripted_lawful hkeep hs').trans hg)⟩

/-- A client on a disk that does not fail. If over every store it is refused only with fewer guards than the pool has
frames, the pool refuses it nothing. -/
theorem wp_reliable {α : Type} {m : PoolProg α} {A : α → PageStore → Prop} {B : Status → PageStore → Prop}
    (hrel : Reliable cfg.disk) (h : Mirrors n s b) (hkeep : Pool.KeepsGuards none m s.guards)
    (hav : m.Avoids (answer cfg) (Outside cfg) b)
    (hspec : ∀ env : PoolEnv, env.Lawful →
      wp (m.run (PageStore.answer env)) A (fun e s' => B e s' ∨ env.RefusesUnder n e) s) :
    wp (m.run (answer cfg)) (fun a b' => ∃ s', Mirrors n s' b' ∧ A a s' ∧ s'.guards = s.guards)
      (fun e b' => ∃ s', Mirrors n s' b' ∧ B e s' ∧ s'.guards = s.guards) b := by
  have hfit : Fits cfg n none (.full n) := ⟨rfl, hrel⟩
  have hrun (spare : Status) := (simulates hfit spare).wp h hkeep hav
    fun script => PageStore.wp_keeps PoolEnv.scripted_lawful hkeep (hspec _ PoolEnv.scripted_lawful)
  -- a refusal would have to be the spare status of the environment, whichever that is
  rcases wp_run (hrun ⟨.bufferPoolFull, "one"⟩) with ⟨a, b', hone, _, s', hm, hA⟩ | ⟨e, b', hone, _, s₁, hm₁, hB₁, hg₁⟩
  · exact wp_of_ok hone ⟨s', hm, hA⟩
  · obtain ⟨_, s₂, hm₂, hB₂, hg₂⟩ := wp_error (hrun ⟨.bufferPoolFull, "two"⟩) hone
    refine wp_of_error hone ?_
    rcases hB₁ with hB | hone'
    · exact ⟨s₁, hm₁, hB, hg₁⟩
    · rcases hB₂ with hB | htwo
      · exact ⟨s₂, hm₂, hB, hg₂⟩
      · exact absurd ((Mode.full_room hone').symm.trans (Mode.full_room htwo)) (by decide)

end Mirrors
end KernSql
