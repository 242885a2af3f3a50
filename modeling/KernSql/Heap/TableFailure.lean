import KernSql.Heap.TableCursor

/- Table operations that fail.

   `rowsOf` is the map from record ids to bytes that the heap pages of a pool hold,
   those of the table and of any other. A call may be handed any id. When `Insert`,
   `Delete` or `Update` returns an error, the map is the one before the call: a
   section on a page that fails has changed nothing, and an insert that fails has
   at most compacted pages. The one error after a change is the `kInternal` of an
   `Update` that has inserted the copy and cannot remove the original. -/
namespace KernSql
open Exec ConstHeapPage

/-- The rows on the heap pages of a pool. -/
def rowsOf (pages : PageId → Option Page) : RidMap := fun r =>
  (pages r.pageId).bind fun pg => if pg.header.pageType = .heap then contents pg.body r.slot else none

/-- The pool never answers a fetch or a `NewPage` with this code. -/
def PoolEnv.Never (env : PoolEnv) (c : ErrorCode) : Prop :=
  (∀ e, env.Refuses e → e.code ≠ c) ∧ ∀ s p, (env.absent s p).code ≠ c

/-- The rows of a table and of the pages beside it. -/
theorem rowsOf_eq {base pages : PageId → Option Page} {ps : List PageId} {M : RidMap} (h : TableAt base pages ps M)
    (r : RID) : rowsOf pages r = if r.pageId ∈ ps then M r else rowsOf base r := by
  unfold rowsOf
  split
  · next hr =>
    obtain ⟨i, hi, hp⟩ := List.mem_iff_getElem.mp hr
    obtain ⟨pg, hpg, htype, -, -, hcont⟩ := h.page i hi
    rw [← hp, hpg]
    show (if pg.header.pageType = .heap then contents pg.body r.slot else none) = M r
    rw [if_pos htype, ← hcont, hp]
  · next hr => rw [h.others _ hr]

theorem rowsOf_same {base pages pages' : PageId → Option Page} {ps : List PageId} {M : RidMap}
    (h : TableAt base pages ps M) (h' : TableAt base pages' ps M) : rowsOf pages' = rowsOf pages := by
  funext r
  rw [rowsOf_eq h', rowsOf_eq h]

theorem rowsOf_none {pages : PageId → Option Page} {r : RID} (h : pages r.pageId = none) : rowsOf pages r = none := by
  unfold rowsOf
  rw [h]
  rfl

section Sections
variable {env : PoolEnv} {build : Build} {s : PageStore} {α : Type}

/-- If there is a heap page behind the id, it is in order. -/
def InOrder (pages : PageId → Option Page) (p : PageId) : Prop :=
  ∀ pg, pages p = some pg → pg.header.pageType = .heap → HeapPage.Valid pg.body

theorem BodyOnly.pages_eq {p : PageId} {pg : Page} (hpg : s.pages p = some pg) {s' : PageStore}
    (h : BodyOnly s p pg pg.body s') : s'.pages = s.pages := by
  rw [h.pages]
  exact Function.update_eq_self_iff.mpr hpg.symm

/-- A section on any page that ends with an error has left the pages as they were. -/
theorem wp_section {latch : Latch} {p : PageId} (hcodes : env.Never .internal) (hin : InOrder s.pages p)
    (hfree : ∀ g ∈ s.guards, g.page ≠ p) {m : HeapPage.PageM α} {Q : α → PageStore → Prop}
    (hm : ∀ pg, s.pages p = some pg → pg.header.pageType = .heap → HeapPage.Valid pg.body →
      wp m (fun a b => ∀ s', BodyOnly s p pg b s' → Q a s') (fun e b => b = pg.body ∧ e.code ≠ .internal) pg.body) :
    wp (inScope do fetchPage env latch p; asHeapPage p; onBody p m) Q
      (fun e s' => Steady s s' ∧ s'.pages = s.pages ∧ e.code ≠ .internal) s := by
  cases hp : s.pages p with
  | none =>
    rw [wp_inScope, wp_bind]
    unfold wp fetchPage
    rw [s.not_conflicts hfree latch, hp]
    have hle := Nat.le_succ s.failures
    cases hf : env.fetchFails s p with
    | none => exact ⟨⟨rfl, fun _ h => h, hle, rfl⟩, rfl, hcodes.2 s p⟩
    | some e => exact ⟨⟨rfl, fun _ h => h, hle, rfl⟩, rfl, hcodes.1 e (.inl ⟨s, p, hf⟩)⟩
  | some pg =>
    by_cases htype : pg.header.pageType = .heap
    · apply wp_withPage hp htype hfree
      · apply wp_mono (hm pg hp htype (hin pg hp htype))
        · intro a b hb
          exact hb
        · intro e b hb s' hs'
          obtain ⟨rfl, hcode⟩ := hb
          exact ⟨hs'.steady, hs'.pages_eq hp, hcode⟩
      · intro e s' hr hg hwhy
        exact ⟨.of_refused hr hg, hr.pages, hcodes.1 e hwhy⟩
    · rw [wp_inScope]
      apply wp_call (wp_fetchPage_refuses (s.not_conflicts hfree latch) (by rw [hp]; exact Option.some_ne_none _))
      · intro _ s₁ hr
        rw [wp_bind]
        unfold asHeapPage
        rw [wp_bind, wp_guarded (by rw [hr.pages, hp]), if_pos htype, wp_fail]
        exact ⟨⟨rfl, fun q hq => by simpa only [hr.pages] using hq, Nat.le_of_eq hr.failures.symm, hr.leaks⟩,
          hr.pages, by simp⟩
      · intro e s₁ hr
        obtain ⟨hr, hwhy⟩ := hr
        exact ⟨⟨rfl, fun q hq => by simpa only [hr.pages] using hq, Nat.le_of_lt hr.failures, hr.leaks⟩,
          hr.pages, hcodes.1 e hwhy⟩

end Sections

namespace TableHeap
variable {env : PoolEnv} {build : Build} {fuel : Nat} {base : PageId → Option Page} {st : PageStore × TableHeap}
  {ps : List PageId} {M : RidMap} {t : List UInt8} {rid : RID}

/-- A `Delete` that fails, on any id. -/
theorem wp_delete_fails (hcodes : env.Never .internal) (hin : InOrder st.1.pages rid.pageId)
    (hfree : ∀ g ∈ st.1.guards, g.page ≠ rid.pageId) :
    wp (delete env build rid) (fun _ _ => True)
      (fun e st' => Steady st.1 st'.1 ∧ st'.1.pages = st.1.pages ∧ st'.2 = st.2 ∧ e.code ≠ .internal) st := by
  unfold delete
  rw [wp_bind, wp_onPool]
  have hsection : wp (inScope do
      fetchPageWrite env rid.pageId
      asHeapPage rid.pageId
      onBody rid.pageId (HeapPage.delete build rid.slot)) (fun _ _ => True)
      (fun e s' => Steady st.1 s' ∧ s'.pages = st.1.pages ∧ e.code ≠ .internal) st.1 := by
    apply wp_section hcodes hin hfree
    intro pg _ _ hv
    obtain ⟨es, lo, dead, hst⟩ := hv
    apply wp_mono (HeapPage.wp_delete hst rid.slot)
    · intro _ _ _ _ _
      trivial
    · intro e b hb
      obtain ⟨hsame, hcode, -⟩ := hb
      exact ⟨hsame, by rw [hcode]; decide⟩
  apply wp_mono hsection
  · intro _ s' _
    rw [wp_bind, wp_self, wp_setSelf]
    trivial
  · intro e s' he
    exact ⟨he.1, he.2.1, rfl, he.2.2⟩

/-- An `Insert` that fails. -/
theorem wp_insert_fails (hlaw : env.Lawful) (hcodes : env.Never .internal) (hfuel : 2 ^ 32 ≤ fuel)
    (h : Represents base st ps M) :
    wp (insert env build fuel t) (fun rid st' => Steady st.1 st'.1 ∧ InsertedFresh base st.1 ps M t rid st')
      (fun e st' => Represents base st' ps M ∧ e.code ≠ .internal) st := by
  apply wp_mono (wp_insert_fresh_pages hlaw hfuel h)
  · intro rid st' hr
    exact ⟨hr.1, hr.2.1⟩
  · intro e st' hr
    obtain ⟨-, hrep, hwhy⟩ := hr
    refine ⟨hrep, ?_⟩
    cases hwhy with
    | inl hbad => rw [hbad.1]; decide
    | inr hpool => exact hcodes.1 e hpool.why

/-- The pages of the chain are in order, and the others as they were. -/
theorem Represents.inOrder (h : Represents base st ps M) {p : PageId} (hoff : p ∉ ps → InOrder base p) :
    InOrder st.1.pages p := by
  intro pg hpg htype
  by_cases hp : p ∈ ps
  · obtain ⟨i, hi, rfl⟩ := List.mem_iff_getElem.mp hp
    obtain ⟨pg', hpg', -, -, hv, -⟩ := h.table.page i hi
    cases hpg.symm.trans hpg'
    exact hv
  · exact hoff hp pg (by rw [← h.table.others p hp, hpg]) htype

/-- The first section of `Update`, on any id. -/
theorem wp_update_section (hcodes : env.Never .internal) (hin : InOrder st.1.pages rid.pageId)
    (hfree : ∀ g ∈ st.1.guards, g.page ≠ rid.pageId) :
    wp (inScope do
        fetchPageWrite env rid.pageId
        asHeapPage rid.pageId
        onBody rid.pageId (HeapPage.update build rid.slot t))
      (fun o s' => o = .doesNotFit → Steady st.1 s' ∧ s'.pages = st.1.pages ∧ rowsOf st.1.pages rid ≠ none)
      (fun e s' => Steady st.1 s' ∧ s'.pages = st.1.pages ∧ e.code ≠ .internal) st.1 := by
  apply wp_section hcodes hin hfree
  intro pg hpg htype hv
  obtain ⟨es, lo, dead, hst⟩ := hv
  apply wp_mono (HeapPage.wp_update hst rid.slot t)
  · intro o b hb s' hs' ho
    obtain ⟨-, hbound, -, -, hcase⟩ := hb
    cases hcase with
    | inl hsame => rw [hsame.1] at ho; cases ho
    | inr hnot =>
      obtain ⟨-, rfl⟩ := hnot
      refine ⟨hs'.steady, hs'.pages_eq hpg, ?_⟩
      unfold rowsOf
      rw [hpg]
      show (if pg.header.pageType = .heap then contents pg.body rid.slot else none) ≠ none
      rw [if_pos htype]
      exact hbound
  · intro e b hb
    obtain ⟨hsame, hwhy⟩ := hb
    refine ⟨hsame, ?_⟩
    cases hwhy with
    | inl hbad => rw [hbad.1]; decide
    | inr hgone => rw [hgone.1]; decide

/-- An `Update` that fails, on any id: nothing has changed, or the copy is there and the original too. -/
theorem wp_update_fails (hlaw : env.Lawful) (hcodes : env.Never .internal) (hfuel : 2 ^ 32 ≤ fuel)
    (h : Represents base st ps M) (hin : InOrder st.1.pages rid.pageId)
    (hfree : ∀ g ∈ st.1.guards, g.page ≠ rid.pageId) :
    wp (update env build fuel rid t) (fun _ _ => True)
      (fun e st' => (Represents base st' ps M ∧ e.code ≠ .internal) ∨
        e.code = .internal ∧ rowsOf st.1.pages rid ≠ none ∧ ∃ new, InsertedFresh base st.1 ps M t new st') st := by
  unfold update
  rw [wp_bind, wp_onPool]
  apply wp_mono (wp_update_section hcodes hin hfree)
  · intro o s' ho
    cases o with
    | samePage => trivial
    | doesNotFit =>
      obtain ⟨hs, hpages, hbound⟩ := ho rfl
      have hrep : Represents base (s', st.2) ps M := h.steady' hs (hpages ▸ h.table)
      apply wp_call (wp_insert_fails hlaw hcodes hfuel hrep)
      · intro new st₁ hins
        obtain ⟨hs₁, hins⟩ := hins
        obtain ⟨hfresh, ps', hsub, hnew, hhint, hrep₁⟩ := hins.before hs
        have hin₁ : InOrder st₁.1.pages rid.pageId := by
          apply hrep₁.inOrder
          intro hoff pg hpg
          rw [← h.table.others _ fun hold => hoff (hsub.subset hold)] at hpg
          exact hin pg hpg
        have hfree₁ : ∀ g ∈ st₁.1.guards, g.page ≠ rid.pageId := by
          rw [hs₁.guards, hs.guards]
          exact hfree
        rw [wp_bind, wp_attempt]
        apply wp_mono (wp_delete_fails hcodes hin₁ hfree₁)
        · intro _ _ _
          trivial
        · intro e st₂ hd
          obtain ⟨hs₂, hpages₂, hself, -⟩ := hd
          dsimp only
          rw [wp_ite]
          have hrep₂ : Represents base st₂ ps' (Function.update M new (some t)) := by
            have := hrep₁.steady' hs₂ (hpages₂ ▸ hrep₁.table)
            rwa [← hself] at this
          exact ⟨fun _ => .inr ⟨rfl, hbound, new, hfresh, ps', hsub, hnew, hself ▸ hhint, hrep₂⟩, fun _ => trivial⟩
      · intro e st₁ he
        exact .inl he
  · intro e s' he
    exact .inl ⟨h.steady' he.1 (he.2.1 ▸ h.table), he.2.2⟩

/-- The rows after an insert, over the whole pool. -/
theorem InsertedFresh.rowsOf_eq {st' : PageStore × TableHeap} {new : RID} (h : Represents base st ps M)
    (hins : InsertedFresh base st.1 ps M t new st') : rowsOf st.1.pages new = none ∧
      rowsOf st'.1.pages = Function.update (rowsOf st.1.pages) new (some t) := by
  obtain ⟨hnone, ps', hsub, hnew, -, hrep⟩ := hins
  -- a page the insert allocated held nothing before
  have hbefore : ∀ r : RID, r.pageId ∈ ps' → rowsOf st.1.pages r = M r := by
    intro r hr
    by_cases hold : r.pageId ∈ ps
    · rw [KernSql.rowsOf_eq h.table, if_pos hold]
    · rw [rowsOf_none (hnew _ hr hold), h.table.off r hold]
  have hon : new.pageId ∈ ps' := by
    by_contra hoff
    have := hrep.table.off new hoff
    rw [Function.update_self] at this
    cases this
  refine ⟨(hbefore new hon).trans hnone, ?_⟩
  funext r
  rw [KernSql.rowsOf_eq hrep.table]
  by_cases hr : r.pageId ∈ ps'
  · rw [if_pos hr]
    by_cases he : r = new
    · rw [he, Function.update_self, Function.update_self]
    · rw [Function.update_of_ne he, Function.update_of_ne he, hbefore r hr]
  · have hne : r ≠ new := fun he => hr (he ▸ hon)
    rw [if_neg hr, Function.update_of_ne hne, KernSql.rowsOf_eq h.table, if_neg fun hold => hr (hsub.subset hold)]

/-- The calls that change a table, and the id they are given. -/
inductive Changes : Op → Option RID → Prop where
  | insert (t : List UInt8) : Changes (.insert t) none
  | delete (rid : RID) : Changes (.delete rid) (some rid)
  | update (rid : RID) (t : List UInt8) : Changes (.update rid t) (some rid)

/-- An error other than `kInternal` comes with the rows there were, and every page allocated meanwhile is on the
chain; `kInternal` comes from an `Update` only, with the old row bound and one fresh id bound to the new bytes. -/
def LosesNothing (ps : List PageId) (st : PageStore × TableHeap) (op : Op) (e : Status) (st' : PageStore × TableHeap) :
    Prop :=
  ∃ ps', ps <+: ps' ∧ ChainOf st'.1.pages st'.2.firstPageId ps' ∧
    (∀ p, st.1.pages p = none → st'.1.pages p ≠ none → p ∈ ps') ∧
    (e.code ≠ .internal → rowsOf st'.1.pages = rowsOf st.1.pages) ∧
    (e.code = .internal → ∃ rid t, op = .update rid t ∧ rowsOf st.1.pages rid ≠ none ∧
      ∃ new, rowsOf st.1.pages new = none ∧ rowsOf st'.1.pages = Function.update (rowsOf st.1.pages) new (some t))

/-- A page allocated meanwhile is on the chain. -/
theorem Represents.allocated {st' : PageStore × TableHeap} {ps' : List PageId} {M' : RidMap} (h : Represents base st ps M)
    (h' : Represents base st' ps' M') (hsub : ps ⊆ ps') :
    ∀ p, st.1.pages p = none → st'.1.pages p ≠ none → p ∈ ps' := by
  intro p hnone hsome
  by_contra hoff
  rw [h'.table.others p hoff, ← h.table.others p fun hold => hoff (hsub hold)] at hsome
  exact hsome hnone

theorem Represents.losesNothing {st' : PageStore × TableHeap} {op : Op} {e : Status} (h : Represents base st ps M)
    (h' : Represents base st' ps M ∧ e.code ≠ .internal) : LosesNothing ps st op e st' :=
  ⟨ps, List.prefix_refl ps, h'.1.chainOf, h.allocated h'.1 (List.Subset.refl ps),
    fun _ => rowsOf_same h.table h'.1.table, fun hcode => absurd hcode h'.2⟩

/-- For every table, every id and tuple and every pattern of failing pool calls: a call that returns an error has
lost no row. -/
theorem failed_call_loses_nothing (hlaw : env.Lawful) (hcodes : env.Never .internal) (hfuel : 2 ^ 32 ≤ fuel)
    (h : Represents base st ps M) (horder : ∀ p, InOrder st.1.pages p) {op : Op} {named : Option RID}
    (hop : Changes op named) (hfree : ∀ g ∈ st.1.guards, ∀ rid ∈ named, g.page ≠ rid.pageId) :
    ∃ r st', perform env build fuel op st = some (r, st') ∧ ∀ e, r = .error e → LosesNothing ps st op e st' := by
  have hwp : wp (perform env build fuel op) (fun _ _ => True) (fun e st' => LosesNothing ps st op e st') st := by
    cases hop with
    | insert t =>
      apply wp_call (wp_insert_fails hlaw hcodes hfuel h)
      · intro _ _ _
        trivial
      · intro e st' he
        exact h.losesNothing he
    | delete rid =>
      apply wp_call (wp_delete_fails hcodes (horder rid.pageId) fun g hg => hfree g hg rid rfl)
      · intro _ _ _
        trivial
      · intro e st' he
        obtain ⟨hs, hpages, hself, hcode⟩ := he
        have hrep : Represents base st' ps M := by
          have := h.steady' hs (hpages ▸ h.table)
          rwa [← hself] at this
        exact h.losesNothing ⟨hrep, hcode⟩
    | update rid t =>
      apply wp_call (wp_update_fails hlaw hcodes hfuel h (horder rid.pageId) fun g hg => hfree g hg rid rfl)
      · intro _ _ _
        trivial
      · intro e st' he
        cases he with
        | inl hsame => exact h.losesNothing hsame
        | inr hdouble =>
          obtain ⟨hcode, hbound, new, hins⟩ := hdouble
          obtain ⟨hfresh, hrows⟩ := hins.rowsOf_eq h
          obtain ⟨-, ps', hsub, -, -, hrep⟩ := hins
          exact ⟨ps', hsub, hrep.chainOf, h.allocated hrep hsub.subset, fun hne => absurd hcode hne,
            fun _ => ⟨rid, t, rfl, hbound, new, hfresh, hrows⟩⟩
  cases wp_run hwp with
  | inl hok =>
    obtain ⟨a, st', hstep, -⟩ := hok
    exact ⟨.ok a, st', hstep, fun e he => (by cases he)⟩
  | inr herr =>
    obtain ⟨e, st', hstep, hlost⟩ := herr
    refine ⟨.error e, st', hstep, fun e' he => ?_⟩
    cases he
    exact hlost

/-- A disk that cannot be read from the call numbered `n` on. -/
def failsFrom (n : Nat) : PoolEnv :=
  { PoolEnv.countUp with fetchFails := fun s _ => if n ≤ s.calls then some ⟨.ioError, "read failed"⟩ else none }

theorem failsFrom_never (n : Nat) : (failsFrom n).Never .internal := by
  refine ⟨fun e he => ?_, fun _ _ => by simp [failsFrom, PoolEnv.countUp]⟩
  cases he with
  | inl hfetch =>
    obtain ⟨s, p, hf⟩ := hfetch
    simp only [failsFrom] at hf
    split at hf
    · cases hf; decide
    · cases hf
  | inr hnew =>
    obtain ⟨s, hf⟩ := hnew
    simp only [failsFrom, PoolEnv.countUp] at hf
    split at hf
    · cases hf
    · cases hf; decide

/-- A small row on a page that two rows of 2000 bytes fill. -/
def crowded : List Op := [.insert [1], .insert (List.replicate 2000 2), .insert (List.replicate 2000 3)]

/-- The small row outgrows its page; the read that fails is the one of the relocation's `Delete`. -/
theorem failed_call_loses_nothing_doubled : ∃ ps st e st',
    (∃ M, Represents PageStore.empty.pages st ps M) ∧
    perform (failsFrom 11) ⟨false, Bytes.Region.zero⟩ (2 ^ 32) (.update ⟨2, 0⟩ (List.replicate 100 9)) st =
      some (.error e, st') ∧ e.code = .internal ∧
    LosesNothing ps st (.update ⟨2, 0⟩ (List.replicate 100 9)) e st' := by
  have hrun : afterRun (failsFrom 11) crowded (fun st => st.1.guards.isEmpty &&
      (perform (failsFrom 11) ⟨false, Bytes.Region.zero⟩ (2 ^ 32) (.update ⟨2, 0⟩ (List.replicate 100 9)) st).any
        fun r => match r.1 with
          | .error e => e.code == .internal
          | .ok _ => false) = true := by
    decide +kernel
  have hlaw : (failsFrom 11).Lawful := PoolEnv.countUp_lawful
  obtain ⟨st, ps, M, h, hgood⟩ := of_afterRun hlaw hrun
  rw [Bool.and_eq_true, List.isEmpty_iff] at hgood
  obtain ⟨⟨r, st'⟩, hstep, hcode⟩ := (Option.any_eq_true _ _).mp hgood.2
  have hfail : ∃ r st'', perform (failsFrom 11) ⟨false, Bytes.Region.zero⟩ (2 ^ 32)
      (.update ⟨2, 0⟩ (List.replicate 100 9)) st = some (r, st'') ∧ _ :=
    failed_call_loses_nothing hlaw (failsFrom_never 11) (Nat.le_refl (2 ^ 32)) h
      (fun p => h.inOrder fun _ pg hpg => (by cases hpg)) (.update _ _) (by simp [hgood.1])
  obtain ⟨r', st'', hstep', hall⟩ := hfail
  rw [hstep] at hstep'
  cases hstep'
  cases r with
  | ok _ => cases hcode
  | error e => exact ⟨ps, st, e, st', ⟨M, h⟩, hstep, beq_iff_eq.mp hcode, hall e rfl⟩

end TableHeap
end KernSql
