import KernSql.Heap.TableHeap

/- What a table stores, and what each operation does to it.

   `TableAt base pages ps M` says that the pages `ps`, in this order, are a chain of
   heap pages in order, that `M` is the map from record ids to bytes they hold, and
   that every other page is as in `base`, the pool before the table was made. An
   operation on one page changes `M` at one id (`TableAt.setBody`), an extension
   adds a page (`TableAt.extend`). The specifications cover failing pool calls: an
   operation that fails leaves `M` as it was. -/
namespace KernSql
open Bytes Directory Exec ConstHeapPage

abbrev RidMap := RID → Option (List UInt8)

structure TableAt (base pages : PageId → Option Page) (ps : List PageId) (M : RidMap) : Prop where
  nodup : ps.Nodup
  ids : invalidPage ∉ ps
  page : ∀ i (h : i < ps.length), ∃ pg, pages ps[i] = some pg ∧ pg.header.pageType = .heap ∧
    pg.header.nextPageId = ps.getD (i + 1) invalidPage ∧ HeapPage.Valid pg.body ∧ ∀ k, M ⟨ps[i], k⟩ = contents pg.body k
  off : ∀ r : RID, r.pageId ∉ ps → M r = none
  others : ∀ p, p ∉ ps → pages p = base p

namespace TableAt
variable {base pages : PageId → Option Page} {ps : List PageId} {M M' : RidMap}

/-- One page with another body. -/
theorem setBody (h : TableAt base pages ps M) {i : Nat} (hi : i < ps.length) {pg : Page} (hpg : pages ps[i] = some pg)
    {b : Body} (hv : HeapPage.Valid b) (hM : ∀ k, M' ⟨ps[i], k⟩ = contents b k)
    (hother : ∀ r : RID, r.pageId ≠ ps[i] → M' r = M r) :
    TableAt base (Function.update pages ps[i] (some { pg with body := b })) ps M' where
  nodup := h.nodup
  ids := h.ids
  page j hj := by
    obtain ⟨pg', hpg', htype, hnext, hvalid, hcont⟩ := h.page j hj
    by_cases hij : ps[j] = ps[i]
    · rw [hij, Function.update_self]
      have hpgs : pg' = pg := Option.some.inj (by rw [← hpg', ← hpg, hij])
      subst hpgs
      exact ⟨_, rfl, htype, hnext, hv, hM⟩
    · rw [Function.update_of_ne hij]
      exact ⟨pg', hpg', htype, hnext, hvalid, fun k => (hother ⟨ps[j], k⟩ hij).trans (hcont k)⟩
  off r hr := by
    rw [hother r fun he => hr (he ▸ List.getElem_mem hi)]
    exact h.off r hr
  others p hp := by
    rw [Function.update_of_ne fun he : p = ps[i] => hp (he ▸ List.getElem_mem hi)]
    exact h.others p hp

/-- One binding of one page changed. -/
theorem setBody_update (h : TableAt base pages ps M) {i : Nat} (hi : i < ps.length) {pg : Page}
    (hpg : pages ps[i] = some pg) {b : Body} (hv : HeapPage.Valid b) {k : SlotId} {v : Option (List UInt8)}
    (hb : contents b = Function.update (contents pg.body) k v) :
    TableAt base (Function.update pages ps[i] (some { pg with body := b })) ps (Function.update M ⟨ps[i], k⟩ v) := by
  obtain ⟨pg', hpg', -, -, -, hcont⟩ := h.page i hi
  have hpgs : pg' = pg := Option.some.inj (by rw [← hpg', ← hpg])
  subst hpgs
  apply h.setBody hi hpg hv
  · intro k'
    rw [hb]
    by_cases hk : k' = k
    · rw [hk, Function.update_self, Function.update_self]
    · rw [Function.update_of_ne hk, Function.update_of_ne (fun he => hk (congrArg RID.slot he)), hcont]
  · intro r hr
    exact Function.update_of_ne (fun he => hr (congrArg RID.pageId he)) _ _

/-- No binding of the page changed. -/
theorem setBody_same (h : TableAt base pages ps M) {i : Nat} (hi : i < ps.length) {pg : Page}
    (hpg : pages ps[i] = some pg) {b : Body} (hv : HeapPage.Valid b) (hb : contents b = contents pg.body) :
    TableAt base (Function.update pages ps[i] (some { pg with body := b })) ps M := by
  obtain ⟨pg', hpg', -, -, -, hcont⟩ := h.page i hi
  have hpgs : pg' = pg := Option.some.inj (by rw [← hpg', ← hpg])
  subst hpgs
  exact h.setBody hi hpg hv (fun k => by rw [hb, hcont]) (fun _ _ => rfl)

theorem next_valid (h : TableAt base pages ps M) {i : Nat} (hi : i + 1 < ps.length) :
    ps.getD (i + 1) invalidPage = ps[i + 1] ∧ ps[i + 1] ≠ invalidPage :=
  ⟨List.getD_eq_getElem _ _ hi, fun he => h.ids (he ▸ List.getElem_mem hi)⟩

/-- The last page is the one without a link. -/
theorem next_invalid_iff (h : TableAt base pages ps M) {i : Nat} (hi : i < ps.length) :
    ps.getD (i + 1) invalidPage = invalidPage ↔ i + 1 = ps.length := by
  by_cases hl : i + 1 < ps.length
  · obtain ⟨he, hne⟩ := h.next_valid hl
    rw [he]
    exact iff_of_false hne (by omega)
  · rw [List.getD_eq_default _ _ (by omega)]
    exact iff_of_true rfl (by omega)

/-- A page is linked to the last one. -/
theorem extend (h : TableAt base pages ps M) {i : Nat} (hi : i + 1 = ps.length) {pg : Page}
    (hpg : pages ps[i] = some pg) {p : PageId} (hp : p ∉ ps) (hid : p ≠ invalidPage) {new : Page} (htype : new.header.pageType = .heap) (hnext : new.header.nextPageId = invalidPage)
    (hv : HeapPage.Valid new.body) (hM : ∀ k, M' ⟨p, k⟩ = contents new.body k)
    (hother : ∀ r : RID, r.pageId ≠ p → M' r = M r) :
    TableAt base (Function.update (Function.update pages p (some new)) ps[i]
      (some { pg with header := { pg.header with nextPageId := p } })) (ps ++ [p]) M' where
  nodup := by
    rw [List.nodup_append]
    refine ⟨h.nodup, List.nodup_singleton p, fun a ha b hb => ?_⟩
    rw [List.mem_singleton.mp hb]
    exact fun he => hp (he ▸ ha)
  ids := by
    intro hmem
    cases List.mem_append.mp hmem with
    | inl hold => exact h.ids hold
    | inr hnew => exact hid (List.mem_singleton.mp hnew).symm
  page j hj := by
    rw [List.length_append, List.length_singleton] at hj
    by_cases hlast : j = ps.length
    · -- the new page
      subst hlast
      have hne : p ≠ ps[i] := fun he => hp (he ▸ List.getElem_mem _)
      refine ⟨new, ?_, htype, ?_, hv, ?_⟩
      · simp only [List.getElem_concat_length, Function.update_of_ne hne, Function.update_self]
      · rw [hnext, List.getD_eq_default _ _ (by simp)]
      · simpa using hM
    · have hj' : j < ps.length := by omega
      obtain ⟨pg', hpg', htype', hnext', hvalid, hcont⟩ := h.page j hj'
      have hkeep : ∀ k, M' ⟨ps[j], k⟩ = contents pg'.body k := by
        intro k
        rw [hother _ (fun he => hp (he ▸ List.getElem_mem hj')), hcont]
      rw [List.getElem_append_left hj']
      by_cases hij : j = i
      · -- the page that was last
        subst hij
        have hpgs : pg' = pg := Option.some.inj (by rw [← hpg', ← hpg])
        subst hpgs
        rw [Function.update_self]
        refine ⟨_, rfl, htype', ?_, hvalid, hkeep⟩
        rw [hi]
        simp
      · have hne : ps[j] ≠ ps[i] := fun he => hij ((h.nodup.getElem_inj_iff).mp he)
        have hnep : ps[j] ≠ p := fun he => hp (he ▸ List.getElem_mem hj')
        rw [Function.update_of_ne hne, Function.update_of_ne hnep]
        refine ⟨pg', hpg', htype', ?_, hvalid, hkeep⟩
        rw [hnext', List.getD_eq_getElem _ _ (by omega), List.getD_eq_getElem _ _ (by simp; omega),
          List.getElem_append_left (by omega)]
  off r hr := by
    simp only [List.mem_append, List.mem_singleton, not_or] at hr
    rw [hother r hr.2]
    exact h.off r hr.1
  others q hq := by
    simp only [List.mem_append, List.mem_singleton, not_or] at hq
    rw [Function.update_of_ne fun he : q = ps[i] => hq.1 (he ▸ List.getElem_mem _), Function.update_of_ne hq.2]
    exact h.others q hq.1

/-- Page ids are 32 bits wide and no page occurs twice. -/
theorem length_le (h : TableAt base pages ps M) : ps.length ≤ 2 ^ 32 := by
  have hinj : Function.Injective fun p : PageId => p.toBitVec.toFin := by
    intro p q hpq
    exact Int32.toBitVec_inj.mp (BitVec.toFin_inj.mp hpq)
  have hcard := (h.nodup.map hinj).length_le_card
  simpa using hcard

end TableAt

/-! Working on one page. -/

section Page
variable {env : PoolEnv} {build : Build} {s : PageStore} {α : Type}

theorem wp_asHeapPage {p : PageId} {pg : Page} (hpg : s.pages p = some pg) (htype : pg.header.pageType = .heap)
    {Q : Unit → PageStore → Prop} {E : Status → PageStore → Prop} (hQ : Q () s) : wp (asHeapPage p) Q E s := by
  unfold asHeapPage
  rw [wp_bind, wp_guarded hpg, if_neg (not_not.mpr htype)]
  exact hQ

theorem wp_onBody {p : PageId} {pg : Page} (hpg : s.pages p = some pg) {m : HeapPage.PageM α}
    {Q : α → PageStore → Prop} {E : Status → PageStore → Prop}
    (hm : wp m (fun a b => Q a (s.setPage p (some { pg with body := b })))
      (fun e b => E e (s.setPage p (some { pg with body := b }))) pg.body) : wp (onBody p m) Q E s := by
  unfold wp onBody
  unfold wp at hm
  rw [hpg]
  dsimp only
  rcases hrun : m pg.body with _ | ⟨_ | _, _⟩
  · rw [hrun] at hm; exact hm
  · rw [hrun] at hm; exact hm
  · rw [hrun] at hm; exact hm

/-- The states a page operation that changed only the body of `p` may leave, guards dropped. -/
structure BodyOnly (s : PageStore) (p : PageId) (pg : Page) (b : Body) (s' : PageStore) : Prop where
  pages : s'.pages = Function.update s.pages p (some { pg with body := b })
  guards : s'.guards = s.guards
  failures : s'.failures = s.failures
  leaks : s'.leaks = s.leaks

/-- A page of the table under its own guard: fetched, checked and worked on. -/
theorem wp_withPage {latch : Latch} {p : PageId} {pg : Page} (hpg : s.pages p = some pg)
    (htype : pg.header.pageType = .heap) (hfree : ∀ g ∈ s.guards, g.page ≠ p) {m : HeapPage.PageM α}
    {Q : α → PageStore → Prop} {E : Status → PageStore → Prop}
    (hm : wp m (fun a b => ∀ s', BodyOnly s p pg b s' → Q a s') (fun e b => ∀ s', BodyOnly s p pg b s' → E e s') pg.body)
    (hE : ∀ e s', Refused s s' → s'.guards = s.guards → env.Refuses e → E e s') :
    wp (inScope do fetchPage env latch p; asHeapPage p; onBody p m) Q E s := by
  rw [wp_inScope]
  apply wp_call (wp_fetchPage_refuses (s.not_conflicts hfree latch) (by rw [hpg]; exact Option.some_ne_none _))
  · intro _ s₁ hr
    have hpg₁ : s₁.pages p = some pg := by rw [hr.pages, hpg]
    rw [wp_bind]
    apply wp_asHeapPage hpg₁ htype
    apply wp_onBody hpg₁
    have hbody : ∀ b, BodyOnly s p pg b { s₁.setPage p (some { pg with body := b }) with guards := s.guards } :=
      fun b => ⟨by simp only [PageStore.setPage, hr.pages], rfl, hr.failures, hr.leaks⟩
    apply wp_mono hm
    · intro a b hQ
      exact hQ _ (hbody b)
    · intro e b hQ
      exact hQ _ (hbody b)
  · intro e s₁ hr
    obtain ⟨hr, hwhy⟩ := hr
    exact hE e _ ⟨hr.pages, hr.failures, hr.leaks⟩ rfl hwhy

end Page

/-! `TryInsertOnPage`. -/

theorem contents_compacted {b b' : Body} {es es' : List Slot} {lo dead lo' dead' : Nat} (h : Stores b es lo dead)
    (h' : Stores b' es' lo' dead') (hsame : ∀ j, find b' es' j = find b es j) : contents b' = contents b := by
  funext k
  rw [h.contents_eq, h'.contents_eq, hsame]

/-- The insert at the end of `TryInsertOnPage`, whether or not the page was compacted. -/
theorem wp_tryInsert_tail {build : Build} {b : Body} (hv : HeapPage.Valid b) {t : List UInt8} (ht : t ≠ [])
    (hlen : t.length ≤ maxTupleSize) :
    wp (do
        match ← attempt (HeapPage.insert build t) with
        | .ok slot => pure (some slot)
        | .error e => if e.code = .pageFull then pure none else fail e)
      (fun r b' => HeapPage.Valid b' ∧
        ((∃ k, r = some k ∧ contents b k = none ∧ contents b' = Function.update (contents b) k (some t)) ∨
          r = none ∧ contents b' = contents b)) (fun _ _ => False) b := by
  obtain ⟨es, lo, dead, h⟩ := hv
  rw [wp_bind, wp_attempt]
  apply wp_mono (HeapPage.wp_insert h t)
  · intro k b' hk
    exact ⟨hk.1, .inl ⟨k, rfl, hk.2.1, hk.2.2.1⟩⟩
  · intro e b' he
    obtain ⟨rfl, hcode⟩ := he
    cases hcode with
    | inl hbad => exact (hbad.2.elim ht (Nat.not_lt.mpr hlen)).elim
    | inr hfull =>
      dsimp only
      rw [if_pos hfull.1]
      exact ⟨⟨_, _, _, h⟩, .inr ⟨rfl, rfl⟩⟩

/-- A page either takes the tuple or keeps its contents; `kPageFull` does not come out. -/
theorem wp_tryInsertOnPage {build : Build} {b : Body} (hv : HeapPage.Valid b) {t : List UInt8} (ht : t ≠ [])
    (hlen : t.length ≤ maxTupleSize) (threshold : Nat) :
    wp (tryInsertOnPage build t threshold) (fun r b' => HeapPage.Valid b' ∧
        ((∃ k, r = some k ∧ contents b k = none ∧ contents b' = Function.update (contents b) k (some t)) ∨
          r = none ∧ contents b' = contents b)) (fun _ _ => False) b := by
  obtain ⟨es, lo, dead, h⟩ := hv
  have hfree := h.contiguous_eq build
  have hnone : HeapPage.Valid b ∧ ((∃ k, (none : Option SlotId) = some k ∧ contents b k = none ∧
      contents b = Function.update (contents b) k (some t)) ∨ (none : Option SlotId) = none ∧ contents b = contents b) :=
    ⟨⟨_, _, _, h⟩, .inr ⟨rfl, rfl⟩⟩
  unfold tryInsertOnPage
  dsimp only
  rw [wp_bind, wp_get, wp_bind, wp_lift]
  refine ⟨_, hfree, ?_⟩
  rw [wp_bind, wp_ite]
  constructor
  · intro _
    rw [wp_bind, wp_lift]
    refine ⟨_, by unfold reclaimable; rw [hfree]; rfl, ?_⟩
    rw [wp_ite]
    refine ⟨fun _ => hnone, fun _ => ?_⟩
    rw [wp_ite]
    refine ⟨fun _ => hnone, fun _ => ?_⟩
    apply wp_call (HeapPage.wp_compact h)
    · intro _ b₁ hc
      obtain ⟨es', hst, -, hsame⟩ := hc
      rw [wp_pure, ← contents_compacted h hst hsame]
      exact wp_tryInsert_tail ⟨_, _, _, hst⟩ ht hlen
    · intro _ _ hf
      exact hf.elim
  · intro _
    exact wp_tryInsert_tail ⟨_, _, _, h⟩ ht hlen

/-- No guard is left behind, no page freed, and failures are only added. -/
structure Steady (s s' : PageStore) : Prop where
  guards : s'.guards = s.guards
  alive : ∀ p, s.pages p ≠ none → s'.pages p ≠ none
  failures : s.failures ≤ s'.failures
  leaks : s'.leaks = s.leaks

namespace Steady
variable {s s' s'' : PageStore}

theorem refl (s : PageStore) : Steady s s := ⟨rfl, fun _ h => h, Nat.le_refl _, rfl⟩

theorem trans (h : Steady s s') (h' : Steady s' s'') : Steady s s'' :=
  ⟨h'.guards.trans h.guards, fun p hp => h'.alive p (h.alive p hp), h.failures.trans h'.failures,
    h'.leaks.trans h.leaks⟩

theorem of_refused (h : Refused s s') (hg : s'.guards = s.guards) : Steady s s' :=
  ⟨hg, fun p hp => by rw [h.pages]; exact hp, Nat.le_of_lt h.failures, h.leaks⟩

end Steady

/-- The pool failed on the way, with the error that came out. -/
structure Failed (env : PoolEnv) (e : Status) (s s' : PageStore) : Prop where
  failures : s.failures < s'.failures
  why : env.Refuses e

theorem Failed.after {env : PoolEnv} {e : Status} {s s' s'' : PageStore} (h : Failed env e s' s'') (hs : Steady s s') :
    Failed env e s s'' := ⟨Nat.lt_of_le_of_lt hs.failures h.failures, h.why⟩

theorem BodyOnly.steady {s s' : PageStore} {p : PageId} {pg : Page} {b : Body} (h : BodyOnly s p pg b s') :
    Steady s s' where
  guards := h.guards
  alive q hq := by
    rw [h.pages]
    by_cases hqp : q = p
    · rw [hqp, Function.update_self]; exact Option.some_ne_none _
    · rw [Function.update_of_ne hqp]; exact hq
  failures := Nat.le_of_eq h.failures.symm
  leaks := h.leaks

namespace TableHeap
variable {env : PoolEnv} {build : Build} {base : PageId → Option Page} {ps : List PageId} {M : RidMap}
  {t : List UInt8}

/-- The table object and the pages it leads to. -/
structure Represents (base : PageId → Option Page) (st : PageStore × TableHeap) (ps : List PageId) (M : RidMap) : Prop where
  table : TableAt base st.1.pages ps M
  first : ps.head? = some st.2.firstPageId
  last : st.2.lastPageId ∈ ps
  hint : st.2.insertHint ∈ ps
  /-- Nobody holds a guard on the table's pages. -/
  apart : ∀ g ∈ st.1.guards, g.page ∉ ps
  live : ∀ g ∈ st.1.guards, st.1.pages g.page ≠ none

namespace Represents
variable {st : PageStore × TableHeap}

theorem first_get (h : Represents base st ps M) : ∃ h0 : 0 < ps.length, ps[0] = st.2.firstPageId := by
  have hf := h.first
  cases ps with
  | nil => cases hf
  | cons p rest => exact ⟨by simp, Option.some.inj hf⟩

/-- The same pages in a later state of the pool, with the cursor moved along the chain. -/
theorem steady (h : Represents base st ps M) {s' : PageStore} {M' : RidMap} (hs : Steady st.1 s')
    (ht : TableAt base s'.pages ps M') {hint : PageId} (hh : hint ∈ ps) :
    Represents base (s', { st.2 with insertHint := hint }) ps M' where
  table := ht
  first := h.first
  last := h.last
  hint := hh
  apart := by rw [hs.guards]; exact h.apart
  live := by rw [hs.guards]; exact fun g hg => hs.alive _ (h.live g hg)

/-- The same with the cursor where it is. -/
theorem steady' (h : Represents base st ps M) {s' : PageStore} {M' : RidMap} (hs : Steady st.1 s')
    (ht : TableAt base s'.pages ps M') : Represents base (s', st.2) ps M' := h.steady hs ht h.hint

end Represents

/-! Probing. -/

theorem wp_probe {s : PageStore} (h : TableAt base s.pages ps M) (hapart : ∀ g ∈ s.guards, g.page ∉ ps) (ht : t ≠ [])
    (hlen : t.length ≤ maxTupleSize) {i : Nat} (hi : i < ps.length) :
    wp (probe env build ps[i] t)
      (fun r s' => Steady s s' ∧
        ((∃ e, r = .unusable e ∧ s'.pages = s.pages ∧ Failed env e s s') ∨
          (∃ k, r = .landed k ∧ M ⟨ps[i], k⟩ = none ∧ TableAt base s'.pages ps (Function.update M ⟨ps[i], k⟩ (some t))) ∨
          (r = .full (ps.getD (i + 1) invalidPage) ∧ TableAt base s'.pages ps M)))
      (fun _ _ => False) s := by
  obtain ⟨pg, hpg, htype, hnext, hv, hcont⟩ := h.page i hi
  have hfree : ∀ g ∈ s.guards, g.page ≠ ps[i] := fun g hg he => hapart g hg (he ▸ List.getElem_mem hi)
  unfold probe
  rw [wp_inScope, wp_bind, wp_attempt]
  apply wp_mono (wp_fetchPage_refuses (s.not_conflicts hfree .write) (by rw [hpg]; exact Option.some_ne_none _))
  · intro _ s₁ hr
    have hpg₁ : s₁.pages ps[i] = some pg := by rw [hr.pages, hpg]
    have hbody : ∀ b, BodyOnly s ps[i] pg b { s₁.setPage ps[i] (some { pg with body := b }) with guards := s.guards } :=
      fun b => ⟨by simp only [PageStore.setPage, hr.pages], rfl, hr.failures, hr.leaks⟩
    rw [wp_bind, wp_attempt]
    apply wp_asHeapPage hpg₁ htype
    rw [wp_bind]
    apply wp_onBody hpg₁
    apply wp_mono (wp_tryInsertOnPage hv ht hlen compactThreshold)
    · intro r b hb
      obtain ⟨hvb, hcase⟩ := hb
      cases hcase with
      | inl hlanded =>
        obtain ⟨k, rfl, hnone, hbound⟩ := hlanded
        refine ⟨(hbody b).steady, .inr (.inl ⟨k, rfl, by rw [hcont, hnone], ?_⟩)⟩
        rw [(hbody b).pages]
        exact h.setBody_update hi hpg hvb hbound
      | inr hfull =>
        obtain ⟨rfl, hsame⟩ := hfull
        dsimp only
        rw [wp_bind, wp_guarded (PageStore.setPage_same s₁ _ _)]
        refine ⟨(hbody b).steady, .inr (.inr ⟨by rw [hnext], ?_⟩)⟩
        rw [(hbody b).pages]
        exact h.setBody_same hi hpg hvb hsame
    · intro _ _ hf
      exact hf
  · intro e s₁ hr
    obtain ⟨hr, hwhy⟩ := hr
    have hr' : Refused s { s₁ with guards := s.guards } := ⟨hr.pages, hr.failures, hr.leaks⟩
    exact ⟨.of_refused hr' rfl, .inl ⟨e, rfl, hr.pages, hr.failures, hwhy⟩⟩

/-- The sweep: it lands somewhere on the chain, finds no room, or meets a page that cannot be fetched. -/
theorem wp_probes (ht : t ≠ []) (hlen : t.length ≤ maxTupleSize) : ∀ (n : Nat) {st : PageStore × TableHeap} (i : Nat)
    (hi : i < ps.length) (fromHint : Bool), Represents base st ps M →
    wp (probes env build t n ps[i] fromHint)
      (fun r st' => Steady st.1 st'.1 ∧
        ((∃ rid, r = some rid ∧ M rid = none ∧ rid.pageId ∈ ps ∧ Represents base st' ps (Function.update M rid (some t))) ∨
          (r = none ∧ Represents base st' ps M)))
      (fun e st' => Steady st.1 st'.1 ∧ Represents base st' ps M ∧ Failed env e st.1 st'.1) st
  | 0, st, i, hi, fromHint, h => ⟨.refl _, .inr ⟨rfl, h⟩⟩
  | n + 1, st, i, hi, fromHint, h => by
    have hid : ps[i] ≠ invalidPage := fun he => h.table.ids (he ▸ List.getElem_mem hi)
    obtain ⟨h0, hfirst⟩ := h.first_get
    rw [probes, if_neg hid, wp_bind, wp_self, wp_bind, wp_onPool]
    apply wp_mono (wp_probe h.table h.apart ht hlen hi)
    · intro r s' hr
      obtain ⟨hs, hcase⟩ := hr
      rcases hcase with ⟨e, rfl, hpages, hfail⟩ | ⟨k, rfl, hnone, htab⟩ | ⟨rfl, htab⟩
      · have hrep : Represents base (s', st.2) ps M := h.steady' hs (hpages ▸ h.table)
        dsimp only
        rw [wp_ite]
        constructor
        · -- a hint that does not resolve: back to the front
          intro _
          rw [← hfirst]
          apply wp_mono (wp_probes ht hlen n 0 h0 false hrep)
          · intro r st' hr
            exact ⟨hs.trans hr.1, hr.2⟩
          · intro e st' hr
            exact ⟨hs.trans hr.1, hr.2.1, hr.2.2.after hs⟩
        · intro _
          exact ⟨hs, hrep, hfail⟩
      · dsimp only
        rw [wp_bind, wp_setSelf, wp_pure]
        exact ⟨hs, .inl ⟨_, rfl, hnone, List.getElem_mem hi, h.steady hs htab (List.getElem_mem hi)⟩⟩
      · -- full: advance, wrapping at the end of the chain
        obtain ⟨j, hj, hjeq⟩ : ∃ j, ∃ hj : j < ps.length, ps[j] =
            if ps.getD (i + 1) invalidPage = invalidPage then st.2.firstPageId else ps.getD (i + 1) invalidPage := by
          by_cases hend : i + 1 < ps.length
          · obtain ⟨he, hne⟩ := h.table.next_valid hend
            exact ⟨i + 1, hend, by rw [he, if_neg hne]⟩
          · exact ⟨0, h0, by rw [if_pos ((h.table.next_invalid_iff hi).mpr (by omega)), hfirst]⟩
        dsimp only
        rw [wp_bind, wp_setSelf, ← hjeq]
        have hrep := h.steady hs htab (List.getElem_mem hj)
        apply wp_mono (wp_probes ht hlen n j hj false hrep)
        · intro r st' hr
          exact ⟨hs.trans hr.1, hr.2⟩
        · intro e st' hr
          exact ⟨hs.trans hr.1, hr.2.1, hr.2.2.after hs⟩
    · intro _ _ hf
      exact hf.elim

/-! Appending. -/

/-- A tuple of legal size always fits on a fresh page. -/
theorem wp_insert_fresh (b : Body) (ht : t ≠ []) (hlen : t.length ≤ maxTupleSize) :
    wp (HeapPage.insert build t) (fun k b' => HeapPage.Valid b' ∧
        ∀ k', contents b' k' = if k' = k then some t else none) (fun _ _ => False)
      (b.write 0 ({} : HeapSubHeader).writeTo) := by
  apply wp_mono (HeapPage.wp_insert (HeapPage.stores_init b) t)
  · intro k b' hk
    refine ⟨hk.1, fun k' => ?_⟩
    rw [hk.2.2.1, HeapPage.contents_init, Function.update_apply]
  · intro e b' he
    obtain ⟨-, hcode⟩ := he
    cases hcode with
    | inl hbad => exact hbad.2.elim ht (Nat.not_lt.mpr hlen)
    | inr hfull =>
      have := hfull.2.2.2
      simp only [slotArrayEnd, List.length_nil, heapSubHeaderSize, slotSize, pageBodySize, maxTupleSize] at this hlen
      omega

/-- The last page has no room: a new page takes the tuple and is linked behind it. -/
theorem wp_extend {s : PageStore} (hlaw : env.Lawful) (h : TableAt base s.pages ps M) (ht : t ≠ [])
    (hlen : t.length ≤ maxTupleSize) {i : Nat} (hi : i + 1 = ps.length) {last : PageId} (hlast : last = ps[i]) :
    wp (do
        let newId ← newPage env
        setPageType newId .heap
        setNextPageId newId invalidPage
        asHeapPage newId
        onBody newId HeapPage.init
        let slot ← onBody newId (HeapPage.insert build t)
        setNextPageId last newId
        pure (Append.extended newId slot))
      (fun r s' => ∃ p k, r = .extended p k ∧ s.pages p = none ∧
        TableAt base s'.pages (ps ++ [p]) (Function.update M ⟨p, k⟩ (some t)) ∧
        (∀ q, s.pages q ≠ none → s'.pages q ≠ none) ∧ s'.failures = s.failures ∧ s'.leaks = s.leaks)
      (fun e s' => Refused s s' ∧ env.Refuses e) s := by
  subst hlast
  obtain ⟨pg, hpg, -⟩ := h.page i (by omega)
  apply wp_call (wp_and (wp_newPage hlaw) wp_newPage_refuses)
  · intro p s₁ hp
    obtain ⟨⟨hfresh, hid, hpages, -, hfail, hleak⟩, -⟩ := hp
    have hne : ps[i] ≠ p := by
      intro he
      rw [he, hfresh] at hpg
      cases hpg
    have hnot : p ∉ ps := by
      intro hmem
      obtain ⟨j, hj, rfl⟩ := List.mem_iff_getElem.mp hmem
      obtain ⟨pg', hpg', -⟩ := h.page j hj
      rw [hfresh] at hpg'
      cases hpg'
    have hblank : s₁.pages p = some (blankPage p) := by rw [hpages, Function.update_self]
    rw [wp_bind, wp_setPageType hblank, wp_bind, wp_setNextPageId (PageStore.setPage_same _ _ _), wp_bind]
    apply wp_asHeapPage (PageStore.setPage_same _ _ _) rfl
    rw [wp_bind]
    apply wp_onBody (PageStore.setPage_same _ _ _)
    unfold HeapPage.init HeapPage.writeHeader
    rw [wp_modify, wp_bind]
    apply wp_onBody (PageStore.setPage_same _ _ _)
    apply wp_mono (wp_insert_fresh _ ht hlen)
    · intro k b hb
      obtain ⟨hv, hcont⟩ := hb
      have hlastpg : ∀ x : Option Page, (Function.update s.pages p x) ps[i] = some pg := fun x => by
        rw [Function.update_of_ne hne, hpg]
      simp only [PageStore.setPage, hpages, Function.update_idem]
      rw [wp_bind, wp_setNextPageId (hlastpg _), wp_pure]
      refine ⟨p, k, rfl, hfresh, ?_, ?_, hfail, hleak⟩
      · apply h.extend hi hpg hnot (fun he => absurd (he ▸ hid) (by decide)) rfl rfl hv
        · intro k'
          rw [hcont, Function.update_apply]
          by_cases hk : k' = k
          · rw [if_pos hk, if_pos (by rw [hk])]
          · rw [if_neg hk, if_neg (fun he => hk (congrArg RID.slot he))]
            exact h.off _ hnot
        · intro r hr
          exact Function.update_of_ne (fun he => hr (congrArg RID.pageId he)) _ _
      · intro q hq
        simp only [PageStore.setPage]
        by_cases hql : q = ps[i]
        · rw [hql, Function.update_self]; exact Option.some_ne_none _
        · rw [Function.update_of_ne hql]
          by_cases hqp : q = p
          · rw [hqp, Function.update_self]; exact Option.some_ne_none _
          · rw [Function.update_of_ne hqp]; exact hq
    · intro _ _ hf
      exact hf.elim
  · intro e s₁ he
    exact ⟨he.1.1, he.2⟩

theorem wp_appendAt {s : PageStore} (hlaw : env.Lawful) (h : TableAt base s.pages ps M)
    (hapart : ∀ g ∈ s.guards, g.page ∉ ps) (ht : t ≠ [])
    (hlen : t.length ≤ maxTupleSize) {i : Nat} (hi : i < ps.length) :
    wp (appendAt env build ps[i] t)
      (fun r s' => Steady s s' ∧
        ((∃ hn : i + 1 < ps.length, r = .follow ps[i + 1] ∧ TableAt base s'.pages ps M) ∨
          (∃ k, r = .landed k ∧ M ⟨ps[i], k⟩ = none ∧ TableAt base s'.pages ps (Function.update M ⟨ps[i], k⟩ (some t))) ∨
          (∃ p k, r = .extended p k ∧ M ⟨p, k⟩ = none ∧ s.pages p = none ∧
            TableAt base s'.pages (ps ++ [p]) (Function.update M ⟨p, k⟩ (some t)))))
      (fun e s' => Steady s s' ∧ TableAt base s'.pages ps M ∧ Failed env e s s') s := by
  obtain ⟨pg, hpg, htype, hnext, hv, hcont⟩ := h.page i hi
  have hfree : ∀ g ∈ s.guards, g.page ≠ ps[i] := fun g hg he => hapart g hg (he ▸ List.getElem_mem hi)
  unfold appendAt
  rw [wp_inScope]
  apply wp_call (wp_fetchPage_refuses (s.not_conflicts hfree .write) (by rw [hpg]; exact Option.some_ne_none _))
  · intro _ s₁ hr
    have hpg₁ : s₁.pages ps[i] = some pg := by rw [hr.pages, hpg]
    have hbody : ∀ b, BodyOnly s ps[i] pg b { s₁.setPage ps[i] (some { pg with body := b }) with guards := s.guards } :=
      fun b => ⟨by simp only [PageStore.setPage, hr.pages], rfl, hr.failures, hr.leaks⟩
    rw [wp_bind, wp_guarded hpg₁, hnext, wp_ite]
    constructor
    · intro hlink
      have hn : i + 1 < ps.length := by
        have := (not_congr (h.next_invalid_iff hi)).mp hlink
        omega
      refine ⟨⟨rfl, fun p hp => by simpa only [hr.pages] using hp, Nat.le_of_eq hr.failures.symm, hr.leaks⟩,
        .inl ⟨hn, by rw [(h.next_valid hn).1], ?_⟩⟩
      simpa only [hr.pages] using h
    · intro hlink
      have hend : i + 1 = ps.length := (h.next_invalid_iff hi).mp (not_not.mp hlink)
      rw [wp_bind]
      apply wp_asHeapPage hpg₁ htype
      rw [wp_bind]
      apply wp_onBody hpg₁
      apply wp_mono (wp_tryInsertOnPage hv ht hlen 0)
      · intro r b hb
        obtain ⟨hvb, hcase⟩ := hb
        cases hcase with
        | inl hlanded =>
          obtain ⟨k, rfl, hnone, hbound⟩ := hlanded
          refine ⟨(hbody b).steady, .inr (.inl ⟨k, rfl, by rw [hcont, hnone], ?_⟩)⟩
          rw [(hbody b).pages]
          exact h.setBody_update hi hpg hvb hbound
        | inr hfull =>
          obtain ⟨rfl, hsame⟩ := hfull
          -- the page as the failed attempt left it: perhaps compacted, with the same contents
          have htab : TableAt base (s₁.setPage ps[i] (some { pg with body := b })).pages ps M := by
            have := h.setBody_same hi hpg hvb hsame
            rwa [← (hbody b).pages] at this
          have hst := (hbody b).steady
          dsimp only
          apply wp_mono (wp_extend hlaw htab ht hlen hend rfl)
          · intro r s₂ hx
            obtain ⟨p, k, rfl, hfresh, htab', halive, hfail, hleak⟩ := hx
            have hnot : p ∉ ps := by
              intro hmem
              obtain ⟨j, hj, rfl⟩ := List.mem_iff_getElem.mp hmem
              obtain ⟨pg', hpg', -⟩ := htab.page j hj
              rw [hfresh] at hpg'
              cases hpg'
            refine ⟨⟨rfl, fun q hq => halive q (hst.alive q hq), ?_, hleak.trans hst.leaks⟩,
              .inr (.inr ⟨p, k, rfl, h.off _ hnot, ?_, htab'⟩)⟩
            · exact hst.failures.trans (Nat.le_of_eq hfail.symm)
            · by_contra hold
              exact hst.alive p hold hfresh
          · intro e s₂ hx
            obtain ⟨hx, hwhy⟩ := hx
            refine ⟨⟨rfl, fun q hq => ?_, hst.failures.trans (Nat.le_of_lt hx.failures), hx.leaks.trans hst.leaks⟩, ?_, ?_⟩
            · simpa only [hx.pages] using hst.alive q hq
            · simpa only [hx.pages] using htab
            · exact ⟨Nat.lt_of_le_of_lt hst.failures hx.failures, hwhy⟩
      · intro _ _ hf
        exact hf.elim
  · intro e s₁ hr
    obtain ⟨hr, hwhy⟩ := hr
    have hr' : Refused s { s₁ with guards := s.guards } := ⟨hr.pages, hr.failures, hr.leaks⟩
    refine ⟨.of_refused hr' rfl, ?_, hr.failures, hwhy⟩
    simpa only [hr.pages] using h

/-- The table after an insert: the chain, perhaps longer by a page, and one new binding. -/
def Inserted (base : PageId → Option Page) (ps : List PageId) (M : RidMap) (t : List UInt8) (rid : RID) (st' : PageStore × TableHeap) : Prop :=
  M rid = none ∧ ∃ ps', ps <+: ps' ∧ Represents base st' ps' (Function.update M rid (some t))

/-- The same, with the pages of the chain before the call told from those allocated by it; the cursor is left on
a page of the old chain only when that is the whole chain. -/
def InsertedFresh (base : PageId → Option Page) (s : PageStore) (ps : List PageId) (M : RidMap) (t : List UInt8) (rid : RID)
    (st' : PageStore × TableHeap) : Prop :=
  M rid = none ∧ ∃ ps', ps <+: ps' ∧ (∀ p ∈ ps', p ∉ ps → s.pages p = none) ∧
    (ps' = ps ∨ st'.2.insertHint ∉ ps) ∧ Represents base st' ps' (Function.update M rid (some t))

theorem InsertedFresh.inserted {s : PageStore} {rid : RID} {st' : PageStore × TableHeap}
    (h : InsertedFresh base s ps M t rid st') : Inserted base ps M t rid st' := by
  obtain ⟨hnone, ps', hsub, -, -, hrep⟩ := h
  exact ⟨hnone, ps', hsub, hrep⟩

/-- What was not allocated later was not allocated before. -/
theorem InsertedFresh.before {s s' : PageStore} {rid : RID} {st' : PageStore × TableHeap} (hs : Steady s s')
    (h : InsertedFresh base s' ps M t rid st') : InsertedFresh base s ps M t rid st' := by
  obtain ⟨hnone, ps', hsub, hnew, hhint, hrep⟩ := h
  refine ⟨hnone, ps', hsub, fun p hp hoff => ?_, hhint, hrep⟩
  by_contra hold
  exact hs.alive p hold (hnew p hp hoff)

/-- The append loop from a page of the chain: it ends within the pages behind it. -/
theorem wp_append (hlaw : env.Lawful) (ht : t ≠ []) (hlen : t.length ≤ maxTupleSize) : ∀ (fuel : Nat)
    {st : PageStore × TableHeap} (i : Nat) (hi : i < ps.length), ps.length - i ≤ fuel → Represents base st ps M →
    wp (append env build t fuel ps[i])
      (fun rid st' => Steady st.1 st'.1 ∧ InsertedFresh base st.1 ps M t rid st')
      (fun e st' => Steady st.1 st'.1 ∧ Represents base st' ps M ∧ Failed env e st.1 st'.1) st
  | 0, st, i, hi, hfuel, h => by omega
  | fuel + 1, st, i, hi, hfuel, h => by
    rw [append, wp_bind, wp_onPool]
    apply wp_mono (wp_appendAt hlaw h.table h.apart ht hlen hi)
    · intro r s' hr
      obtain ⟨hs, hcase⟩ := hr
      rcases hcase with ⟨hn, rfl, htab⟩ | ⟨k, rfl, hnone, htab⟩ | ⟨p, k, rfl, hnone, hfresh, htab⟩
      · dsimp only
        apply wp_mono (wp_append hlaw ht hlen fuel (i + 1) hn (by omega) (h.steady' hs htab))
        · intro rid st' hr
          exact ⟨hs.trans hr.1, hr.2.before hs⟩
        · intro e st' hr
          exact ⟨hs.trans hr.1, hr.2.1, hr.2.2.after hs⟩
      · dsimp only
        rw [wp_bind, wp_self, wp_bind, wp_setSelf, wp_pure]
        exact ⟨hs, hnone, ps, List.prefix_refl ps, fun p hp hoff => absurd hp hoff, .inl rfl,
          h.steady hs htab (List.getElem_mem hi)⟩
      · dsimp only
        rw [wp_bind, wp_self, wp_bind, wp_setSelf, wp_pure]
        have hnot : p ∉ ps := by
          intro hmem
          obtain ⟨j, hj, rfl⟩ := List.mem_iff_getElem.mp hmem
          obtain ⟨pg, hpg, -⟩ := h.table.page j hj
          rw [hfresh] at hpg
          cases hpg
        refine ⟨hs, hnone, ps ++ [p], List.prefix_append ps [p], fun q hq hoff => ?_, .inr hnot, htab, ?_, by simp, by simp,
          ?_, ?_⟩
        · cases List.mem_append.mp hq with
          | inl hold => exact absurd hold hoff
          | inr hnew => rw [List.mem_singleton.mp hnew]; exact hfresh
        · rw [List.head?_append, h.first]
          rfl
        · intro g hg hmem
          rw [hs.guards] at hg
          cases List.mem_append.mp hmem with
          | inl hold => exact h.apart g hg hold
          | inr hnew => exact h.live g hg (List.mem_singleton.mp hnew ▸ hfresh)
        · intro g hg
          rw [hs.guards] at hg
          exact hs.alive _ (h.live g hg)
    · intro e s' he
      exact ⟨he.1, h.steady' he.1 he.2.1, he.2.2⟩

/-! The operations. -/

section Operations
variable {st : PageStore × TableHeap} {fuel : Nat}

/-- `Insert` binds an id that was not bound; it fails for a tuple of illegal size or with the pool. -/
theorem wp_insert_fresh_pages (hlaw : env.Lawful) (hfuel : 2 ^ 32 ≤ fuel) (h : Represents base st ps M) :
    wp (insert env build fuel t)
      (fun rid st' => Steady st.1 st'.1 ∧ InsertedFresh base st.1 ps M t rid st' ∧ t ≠ [] ∧ t.length ≤ maxTupleSize)
      (fun e st' => Steady st.1 st'.1 ∧ Represents base st' ps M ∧
        (e.code = .invalidArgument ∧ (t = [] ∨ maxTupleSize < t.length) ∨ Failed env e st.1 st'.1)) st := by
  unfold insert
  rw [wp_ite]
  refine ⟨fun h0 => ⟨.refl _, h, .inl ⟨rfl, .inl h0⟩⟩, fun h0 => ?_⟩
  rw [wp_ite]
  refine ⟨fun hbig => ⟨.refl _, h, .inl ⟨rfl, .inr hbig⟩⟩, fun hbig => ?_⟩
  have hlen : t.length ≤ maxTupleSize := Nat.not_lt.mp hbig
  have hid : st.2.insertHint ≠ invalidPage := fun he => h.table.ids (he ▸ h.hint)
  obtain ⟨i, hi, hhint⟩ := List.mem_iff_getElem.mp h.hint
  rw [wp_bind, wp_self, if_neg hid, ← hhint]
  apply wp_call (wp_probes h0 hlen insertProbeLimit i hi true h)
  · intro r st₁ hr
    obtain ⟨hs, hcase⟩ := hr
    rcases hcase with ⟨rid, rfl, hnone, -, hrep⟩ | ⟨rfl, hrep⟩
    · exact ⟨hs, ⟨hnone, ps, List.prefix_refl ps, fun p hp hoff => absurd hp hoff, .inl rfl, hrep⟩, h0, hlen⟩
    · obtain ⟨j, hj, hlast⟩ := List.mem_iff_getElem.mp hrep.last
      dsimp only
      rw [wp_bind, wp_self, ← hlast]
      have hlong := hrep.table.length_le
      apply wp_mono (wp_append hlaw h0 hlen fuel j hj (by omega) hrep)
      · intro rid st' hx
        exact ⟨hs.trans hx.1, hx.2.before hs, h0, hlen⟩
      · intro e st' hx
        exact ⟨hs.trans hx.1, hx.2.1, .inr (hx.2.2.after hs)⟩
  · intro e st₁ hr
    exact ⟨hr.1, hr.2.1, .inr hr.2.2⟩

theorem wp_insert (hlaw : env.Lawful) (hfuel : 2 ^ 32 ≤ fuel) (h : Represents base st ps M) :
    wp (insert env build fuel t)
      (fun rid st' => Steady st.1 st'.1 ∧ Inserted base ps M t rid st' ∧ t ≠ [] ∧ t.length ≤ maxTupleSize)
      (fun e st' => Steady st.1 st'.1 ∧ Represents base st' ps M ∧
        (e.code = .invalidArgument ∧ (t = [] ∨ maxTupleSize < t.length) ∨ Failed env e st.1 st'.1)) st := by
  apply wp_mono (wp_insert_fresh_pages hlaw hfuel h)
  · intro rid st' hr
    exact ⟨hr.1, hr.2.1.inserted, hr.2.2⟩
  · intro e st' hr
    exact hr

/-- `Get` of an id on the chain. -/
theorem wp_get (h : Represents base st ps M) {rid : RID} (hrid : rid.pageId ∈ ps) :
    wp (get env build rid)
      (fun bytes st' => Steady st.1 st'.1 ∧ Represents base st' ps M ∧ M rid = some bytes)
      (fun e st' => Steady st.1 st'.1 ∧ Represents base st' ps M ∧
        (e.code = .notFound ∧ M rid = none ∨ Failed env e st.1 st'.1)) st := by
  obtain ⟨i, hi, hp⟩ := List.mem_iff_getElem.mp hrid
  obtain ⟨pg, hpg, htype, -, ⟨es, lo, dead, hst⟩, hcont⟩ := h.table.page i hi
  have hM : M rid = find pg.body es rid.slot.toNat := by
    rw [← hst.contents_eq, ← hcont, hp]
  have hfree : ∀ g ∈ st.1.guards, g.page ≠ rid.pageId := fun g hg he => h.apart g hg (he ▸ hrid)
  rw [hp] at hpg
  unfold get
  rw [wp_onPool, wp_inScope]
  apply wp_call (wp_fetchPage_refuses (st.1.not_conflicts hfree .read) (by rw [hpg]; exact Option.some_ne_none _))
  · intro _ s₁ hr
    have hpg₁ : s₁.pages rid.pageId = some pg := by rw [hr.pages, hpg]
    have hs : Steady st.1 { s₁ with guards := st.1.guards } :=
      ⟨rfl, fun p hp => by simpa only [hr.pages] using hp, Nat.le_of_eq hr.failures.symm, hr.leaks⟩
    have hrep := h.steady' hs (by simpa only [hr.pages] using h.table)
    rw [wp_bind]
    apply wp_asHeapPage hpg₁ htype
    rw [wp_bind, wp_guarded hpg₁, wp_bind, wp_lift]
    refine ⟨_, hst.get_eq build rid.slot, ?_⟩
    cases hf : find pg.body es rid.slot.toNat with
    | none => exact ⟨hs, hrep, .inl ⟨rfl, by rw [hM, hf]⟩⟩
    | some bytes => exact ⟨hs, hrep, by rw [hM, hf]⟩
  · intro e s₁ hr
    obtain ⟨hr, hwhy⟩ := hr
    have hr' : Refused st.1 { s₁ with guards := st.1.guards } := ⟨hr.pages, hr.failures, hr.leaks⟩
    have hs := Steady.of_refused hr' rfl
    exact ⟨hs, h.steady' hs (by simpa only [hr.pages] using h.table), .inr ⟨hr.failures, hwhy⟩⟩

/-- `Delete` of an id on the chain. -/
theorem wp_delete (h : Represents base st ps M) {rid : RID} (hrid : rid.pageId ∈ ps) :
    wp (delete env build rid)
      (fun _ st' => Steady st.1 st'.1 ∧ M rid ≠ none ∧ Represents base st' ps (Function.update M rid none) ∧
        st'.2.lastPageId = st.2.lastPageId)
      (fun e st' => Steady st.1 st'.1 ∧ Represents base st' ps M ∧ st'.2 = st.2 ∧
        (e.code = .notFound ∧ M rid = none ∨ Failed env e st.1 st'.1)) st := by
  obtain ⟨i, hi, hp⟩ := List.mem_iff_getElem.mp hrid
  obtain ⟨pg, hpg, htype, -, ⟨es, lo, dead, hst⟩, hcont⟩ := h.table.page i hi
  have hM : contents pg.body rid.slot = M rid := by rw [← hcont, hp]
  have hfree : ∀ g ∈ st.1.guards, g.page ≠ ps[i] := fun g hg he => h.apart g hg (he ▸ List.getElem_mem hi)
  unfold delete
  rw [wp_bind, wp_onPool, ← hp]
  apply wp_withPage hpg htype hfree
  · apply wp_mono (HeapPage.wp_delete hst rid.slot)
    · intro _ b hb s' hs'
      obtain ⟨hv, hbound, hupd⟩ := hb
      rw [wp_bind, wp_self, wp_setSelf]
      refine ⟨hs'.steady, by rw [← hM]; exact hbound, h.steady hs'.steady ?_ (List.getElem_mem hi), rfl⟩
      rw [hs'.pages]
      have := h.table.setBody_update hi hpg hv hupd
      rwa [hp] at this ⊢
    · intro e b hb s' hs'
      obtain ⟨rfl, hcode, hnone⟩ := hb
      refine ⟨hs'.steady, h.steady' hs'.steady ?_, rfl, .inl ⟨hcode, by rw [← hM]; exact hnone⟩⟩
      rw [hs'.pages]
      exact h.table.setBody_same hi hpg ⟨_, _, _, hst⟩ rfl
  · intro e s' hr hg hwhy
    have hs := Steady.of_refused hr hg
    exact ⟨hs, h.steady' hs (hr.pages ▸ h.table), rfl, .inr ⟨hr.failures, hwhy⟩⟩

/-- The row exists twice: a relocation bound the new id and could not unbind the old one. -/
def Duplicated (base : PageId → Option Page) (ps : List PageId) (M : RidMap) (t : List UInt8) (st st' : PageStore × TableHeap) : Prop :=
  st.1.failures < st'.1.failures ∧ ∃ rid', Inserted base ps M t rid' st'

/-- The same, with the pages allocated by the call told apart, and the cause: a page that exists was not fetched. -/
def DuplicatedFresh (env : PoolEnv) (base : PageId → Option Page) (s : PageStore) (ps : List PageId) (M : RidMap)
    (t : List UInt8) (st' : PageStore × TableHeap) : Prop :=
  s.failures < st'.1.failures ∧ (∃ s' p e, env.fetchFails s' p = some e) ∧ ∃ rid', InsertedFresh base s ps M t rid' st'

/-- The row under another id, on the pages of the chain and on pages that were not allocated. -/
def MovedFresh (base : PageId → Option Page) (s : PageStore) (ps : List PageId) (M : RidMap) (t : List UInt8)
    (rid rid' : RID) (st' : PageStore × TableHeap) : Prop :=
  ∃ ps', ps <+: ps' ∧ (∀ p ∈ ps', p ∉ ps → s.pages p = none) ∧
    Represents base st' ps' (Function.update (Function.update M rid none) rid' (some t))

theorem DuplicatedFresh.duplicated {st' : PageStore × TableHeap} (h : DuplicatedFresh env base st.1 ps M t st') :
    Duplicated base ps M t st st' := by
  obtain ⟨hlt, -, rid', hins⟩ := h
  exact ⟨hlt, rid', hins.inserted⟩

theorem DuplicatedFresh.before {s s' : PageStore} {st' : PageStore × TableHeap} (hs : Steady s s')
    (h : DuplicatedFresh env base s' ps M t st') : DuplicatedFresh env base s ps M t st' := by
  obtain ⟨hlt, hcause, rid', hins⟩ := h
  exact ⟨Nat.lt_of_le_of_lt hs.failures hlt, hcause, rid', hins.before hs⟩

theorem MovedFresh.before {s s' : PageStore} {rid rid' : RID} {st' : PageStore × TableHeap} (hs : Steady s s')
    (h : MovedFresh base s' ps M t rid rid' st') : MovedFresh base s ps M t rid rid' st' := by
  obtain ⟨ps', hsub, hnew, hrep⟩ := h
  refine ⟨ps', hsub, fun p hp hoff => ?_, hrep⟩
  by_contra hold
  exact hs.alive p hold (hnew p hp hoff)

/-- `Delete` allocates nothing: the only call that can fail it is the fetch. -/
theorem wp_delete_fetch (h : Represents base st ps M) {rid : RID} (hrid : rid.pageId ∈ ps) :
    wp (delete env build rid)
      (fun _ st' => Steady st.1 st'.1 ∧ M rid ≠ none ∧ Represents base st' ps (Function.update M rid none))
      (fun e st' => Steady st.1 st'.1 ∧ Represents base st' ps M ∧ (e.code = .notFound ∧ M rid = none ∨
        st.1.failures < st'.1.failures ∧ ∃ s p, env.fetchFails s p = some e)) st := by
  have hsame : delete env build rid = delete { env with newFails := fun _ => none } build rid := rfl
  rw [hsame]
  apply wp_mono (wp_delete h hrid)
  · intro _ st' hd
    exact ⟨hd.1, hd.2.1, hd.2.2.1⟩
  · intro e st' hd
    refine ⟨hd.1, hd.2.1, hd.2.2.2.imp_right fun hf => ⟨hf.failures, ?_⟩⟩
    rcases hf.why with ⟨s, p, hfails⟩ | ⟨s, hfails⟩
    · exact ⟨s, p, hfails⟩
    · cases hfails

/-- The relocation of a row that outgrew its page. -/
theorem wp_relocate (hlaw : env.Lawful) (hfuel : 2 ^ 32 ≤ fuel) (h : Represents base st ps M) {rid : RID}
    (hrid : rid.pageId ∈ ps) (hbound : M rid ≠ none) :
    wp (do
        let newRid ← insert env build fuel t
        match ← attempt (delete env build rid) with
        | .ok _ => pure newRid
        | .error e =>
          if e.code ≠ .notFound then
            fail ⟨.internal, "update relocated the row but could not remove the original; it is now duplicated"⟩
          else pure newRid)
      (fun rid' st' => Steady st.1 st'.1 ∧ (DuplicatedFresh env base st.1 ps M t st' ∨
        M rid' = none ∧ MovedFresh base st.1 ps M t rid rid' st'))
      (fun e st' => Steady st.1 st'.1 ∧ (e.code = .internal ∧ DuplicatedFresh env base st.1 ps M t st' ∨
        Represents base st' ps M ∧
          (e.code = .invalidArgument ∧ (t = [] ∨ maxTupleSize < t.length) ∨ Failed env e st.1 st'.1))) st := by
  apply wp_call (wp_insert_fresh_pages hlaw hfuel h)
  · intro rid' st₁ hins
    obtain ⟨hs, ⟨hfresh, ps', hsub, hnew, hhint, hrep⟩, -, -⟩ := hins
    have hne : rid ≠ rid' := fun he => hbound (he ▸ hfresh)
    rw [wp_bind, wp_attempt]
    apply wp_mono (wp_and (wp_delete hrep (hsub.subset hrid)) (wp_delete_fetch hrep (hsub.subset hrid)))
    · intro _ st' hd
      refine ⟨hs.trans hd.1.1, .inr ⟨hfresh, ps', hsub, hnew, ?_⟩⟩
      have hrep' := hd.1.2.2.1
      rwa [Function.update_comm hne.symm] at hrep'
    · intro e st' hd
      obtain ⟨⟨hs', hrep', hsame, -⟩, -, -, hwhy⟩ := hd
      have hdup : DuplicatedFresh env base st.1 ps M t st' := by
        cases hwhy with
        | inl hgone =>
          -- the old row is still bound, so `kNotFound` can only come from the pool
          have := hgone.2
          rw [Function.update_of_ne hne] at this
          exact absurd this hbound
        | inr hlt =>
          obtain ⟨hlt, s, p, hfails⟩ := hlt
          refine ⟨Nat.lt_of_le_of_lt hs.failures hlt, ⟨s, p, e, hfails⟩, rid', hfresh, ps', hsub, hnew, ?_, hrep'⟩
          rw [hsame]
          exact hhint
      dsimp only
      rw [wp_ite]
      exact ⟨fun _ => ⟨hs.trans hs', .inl ⟨rfl, hdup⟩⟩, fun _ => ⟨hs.trans hs', .inl hdup⟩⟩
  · intro e st₁ he
    exact ⟨he.1, .inr he.2⟩

/-- `Update` of an id on the chain. -/
theorem wp_update_fresh_pages (hlaw : env.Lawful) (hfuel : 2 ^ 32 ≤ fuel) (h : Represents base st ps M) {rid : RID}
    (hrid : rid.pageId ∈ ps) :
    wp (update env build fuel rid t)
      (fun rid' st' => Steady st.1 st'.1 ∧ M rid ≠ none ∧ t ≠ [] ∧ t.length ≤ maxTupleSize ∧
        (DuplicatedFresh env base st.1 ps M t st' ∨
          (rid' = rid ∨ M rid' = none) ∧ MovedFresh base st.1 ps M t rid rid' st'))
      (fun e st' => Steady st.1 st'.1 ∧ (e.code = .internal ∧ DuplicatedFresh env base st.1 ps M t st' ∧
          M rid ≠ none ∧ t ≠ [] ∧ t.length ≤ maxTupleSize ∨
        Represents base st' ps M ∧
          (e.code = .invalidArgument ∧ (t = [] ∨ maxTupleSize < t.length) ∨
            e.code = .notFound ∧ t ≠ [] ∧ t.length ≤ maxTupleSize ∧ M rid = none ∨
            Failed env e st.1 st'.1))) st := by
  obtain ⟨i, hi, hp⟩ := List.mem_iff_getElem.mp hrid
  obtain ⟨pg, hpg, htype, -, ⟨es, lo, dead, hst⟩, hcont⟩ := h.table.page i hi
  have hM : contents pg.body rid.slot = M rid := by rw [← hcont, hp]
  have hfree : ∀ g ∈ st.1.guards, g.page ≠ ps[i] := fun g hg he => h.apart g hg (he ▸ List.getElem_mem hi)
  unfold update
  rw [wp_bind, wp_onPool, ← hp]
  apply wp_withPage hpg htype hfree
  · apply wp_mono (HeapPage.wp_update hst rid.slot t)
    · intro outcome b hb s' hs'
      obtain ⟨hv, hbound, h0, hlen, hcase⟩ := hb
      have hbound' : M rid ≠ none := by rw [← hM]; exact hbound
      rcases hcase with ⟨rfl, hupd⟩ | ⟨rfl, rfl⟩
      · dsimp only
        rw [wp_pure]
        refine ⟨hs'.steady, hbound', h0, hlen, .inr ⟨.inl rfl, ps, List.prefix_refl ps,
          fun p hp hoff => absurd hp hoff, ?_⟩⟩
        rw [Function.update_idem]
        refine h.steady' hs'.steady ?_
        rw [hs'.pages]
        have := h.table.setBody_update hi hpg hv hupd
        rwa [hp] at this ⊢
      · have hrep : Represents base (s', st.2) ps M := by
          apply h.steady' hs'.steady
          rw [hs'.pages]
          exact h.table.setBody_same hi hpg ⟨_, _, _, hst⟩ rfl
        dsimp only
        apply wp_mono (wp_relocate hlaw hfuel hrep hrid hbound')
        · intro rid' st' hr
          obtain ⟨hs, hdup | ⟨hfresh, hmoved⟩⟩ := hr
          · exact ⟨hs'.steady.trans hs, hbound', h0, hlen, .inl (hdup.before hs'.steady)⟩
          · exact ⟨hs'.steady.trans hs, hbound', h0, hlen, .inr ⟨.inr hfresh, hmoved.before hs'.steady⟩⟩
        · intro e st' hr
          obtain ⟨hs, hdup | ⟨hrep', hwhy⟩⟩ := hr
          · exact ⟨hs'.steady.trans hs, .inl ⟨hdup.1, hdup.2.before hs'.steady, hbound', h0, hlen⟩⟩
          · refine ⟨hs'.steady.trans hs, .inr ⟨hrep', hwhy.imp_right fun hlt => .inr ?_⟩⟩
            exact hlt.after hs'.steady
    · intro e b hb s' hs'
      obtain ⟨rfl, hcode⟩ := hb
      rw [hM] at hcode
      refine ⟨hs'.steady, .inr ⟨h.steady' hs'.steady ?_, hcode.imp_right .inl⟩⟩
      rw [hs'.pages]
      exact h.table.setBody_same hi hpg ⟨_, _, _, hst⟩ rfl
  · intro e s' hr hg hwhy
    have hs := Steady.of_refused hr hg
    exact ⟨hs, .inr ⟨h.steady' hs (hr.pages ▸ h.table), .inr (.inr ⟨hr.failures, hwhy⟩)⟩⟩

theorem wp_update (hlaw : env.Lawful) (hfuel : 2 ^ 32 ≤ fuel) (h : Represents base st ps M) {rid : RID}
    (hrid : rid.pageId ∈ ps) :
    wp (update env build fuel rid t)
      (fun rid' st' => Steady st.1 st'.1 ∧ M rid ≠ none ∧ t ≠ [] ∧ t.length ≤ maxTupleSize ∧
        (Duplicated base ps M t st st' ∨ ((rid' = rid ∨ M rid' = none) ∧ ∃ ps', ps <+: ps' ∧
          Represents base st' ps' (Function.update (Function.update M rid none) rid' (some t)))))
      (fun e st' => Steady st.1 st'.1 ∧ (e.code = .internal ∧ Duplicated base ps M t st st' ∨ Represents base st' ps M ∧
        (e.code = .invalidArgument ∧ (t = [] ∨ maxTupleSize < t.length) ∨
          e.code = .notFound ∧ t ≠ [] ∧ t.length ≤ maxTupleSize ∧ M rid = none ∨
          Failed env e st.1 st'.1))) st := by
  apply wp_mono (wp_update_fresh_pages hlaw hfuel h hrid)
  · intro rid' st' hr
    obtain ⟨hs, hbound, h0, hlen, hdup | ⟨hfresh, ps', hsub, -, hrep⟩⟩ := hr
    · exact ⟨hs, hbound, h0, hlen, .inl hdup.duplicated⟩
    · exact ⟨hs, hbound, h0, hlen, .inr ⟨hfresh, ps', hsub, hrep⟩⟩
  · intro e st' hr
    exact ⟨hr.1, hr.2.imp_left fun hdup => ⟨hdup.1, hdup.2.1.duplicated⟩⟩

end Operations
end TableHeap
end KernSql
