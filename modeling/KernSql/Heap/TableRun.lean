import KernSql.Heap.TableSpec
import KernSql.Lib.Refine

/- Every sequential history of a table.

   The specification of a table is a finite map from record ids to bytes; which id
   an insert hands out is the table's choice, so the specification is a relation.
   A caller may use any id whose page is on the chain, and may reopen the table at
   any page of it. Such a run never goes wrong, and as long as the pool does not
   fail its answers are those of the map. -/
namespace KernSql
namespace TableHeap
open Exec

inductive Op where
  | insert (tuple : List UInt8)
  | get (rid : RID)
  | delete (rid : RID)
  | update (rid : RID) (tuple : List UInt8)
  /-- Drop the object and `Open` the table again. -/
  | reopen (lastPageId : PageId)

inductive Answer where
  | rid (r : RID)
  | bytes (bs : List UInt8)
  | done

section Runs
variable (env : PoolEnv) (build : Build)

def perform (fuel : Nat) : Op → TableM Answer
  | .insert tuple => do let r ← insert env build fuel tuple; pure (.rid r)
  | .get rid => do let bs ← get env build rid; pure (.bytes bs)
  | .delete rid => do delete env build rid; pure .done
  | .update rid tuple => do let r ← update env build fuel rid tuple; pure (.rid r)
  | .reopen last => do
    let t ← self
    setSelf (open_ t.firstPageId last)
    pure .done

/-- `Create` a table and use it. -/
def createAndRun (fuel : Nat) (ops : List Op) : PoolM (List (Except Status Answer) × TableHeap) := fun s =>
  match create env s with
  | none => none
  | some (.error e, s') => some (.error e, s')
  | some (.ok t, s') =>
    match Refine.run (perform env build fuel) ops (s', t) with
    | none => none
    | some (.error e, (s'', _)) => some (.error e, s'')
    | some (.ok as, (s'', t')) => some (.ok (as, t'), s'')

end Runs

/-- The pages reached from the first one by following links. -/
inductive OnChain (pages : PageId → Option Page) (first : PageId) : PageId → Prop where
  | first : OnChain pages first first
  | next {p : PageId} {pg : Page} : OnChain pages first p → pages p = some pg →
      pg.header.nextPageId ≠ invalidPage → OnChain pages first pg.header.nextPageId

/-- The ids a caller may pass are on pages of the table. -/
def Legal (st : PageStore × TableHeap) : Op → Prop
  | .insert _ => True
  | .get rid => OnChain st.1.pages st.2.firstPageId rid.pageId
  | .delete rid => OnChain st.1.pages st.2.firstPageId rid.pageId
  | .update rid _ => OnChain st.1.pages st.2.firstPageId rid.pageId
  | .reopen last => OnChain st.1.pages st.2.firstPageId last

def LegalSize (t : List UInt8) : Prop := 1 ≤ t.length ∧ t.length ≤ maxTupleSize

def FailsWith (code : ErrorCode) (a : Except Status Answer) : Prop := ∃ e, a = .error e ∧ e.code = code

/-- A finite map from record ids to bytes: the answers it may give and what it becomes. -/
def Answers (m : RidMap) : Op → Except Status Answer → RidMap → Prop
  | .insert t, a, m' =>
    (LegalSize t ∧ ∃ r, a = .ok (.rid r) ∧ m r = none ∧ m' = Function.update m r (some t)) ∨
    (¬LegalSize t ∧ FailsWith .invalidArgument a ∧ m' = m)
  | .get r, a, m' => m' = m ∧ ((∃ bs, m r = some bs ∧ a = .ok (.bytes bs)) ∨ m r = none ∧ FailsWith .notFound a)
  | .delete r, a, m' =>
    (m r ≠ none ∧ a = .ok .done ∧ m' = Function.update m r none) ∨ (m r = none ∧ FailsWith .notFound a ∧ m' = m)
  | .update r t, a, m' =>
    (LegalSize t ∧ m r ≠ none ∧ ∃ r', a = .ok (.rid r') ∧ (r' = r ∨ m r' = none) ∧
      m' = Function.update (Function.update m r none) r' (some t)) ∨
    (LegalSize t ∧ m r = none ∧ FailsWith .notFound a ∧ m' = m) ∨
    (¬LegalSize t ∧ FailsWith .invalidArgument a ∧ m' = m)
  | .reopen _, a, m' => a = .ok .done ∧ m' = m

/-- The pages of a table: one chain from the first, no page twice, and only the last without a link. -/
structure ChainOf (pages : PageId → Option Page) (first : PageId) (ps : List PageId) : Prop where
  head : ps.head? = some first
  nodup : ps.Nodup
  linked : ∀ i (h : i < ps.length), ∃ pg, pages ps[i] = some pg ∧ pg.header.pageType = .heap ∧
    pg.header.nextPageId = ps.getD (i + 1) invalidPage ∧ (pg.header.nextPageId = invalidPage ↔ i + 1 = ps.length)

section Proofs
variable {env : PoolEnv} {build : Build} {fuel : Nat} {base : PageId → Option Page} {st : PageStore × TableHeap}
  {ps : List PageId} {M : RidMap}

theorem Represents.mem_of_onChain (h : Represents base st ps M) {p : PageId}
    (hp : OnChain st.1.pages st.2.firstPageId p) : p ∈ ps := by
  induction hp with
  | first =>
    obtain ⟨h0, hfirst⟩ := h.first_get
    exact hfirst ▸ List.getElem_mem h0
  | next hprev hpg hne ih =>
    obtain ⟨i, hi, rfl⟩ := List.mem_iff_getElem.mp ih
    obtain ⟨pg', hpg', -, hnext, -⟩ := h.table.page i hi
    cases hpg.symm.trans hpg'
    rw [hnext] at hne ⊢
    have hlt : i + 1 < ps.length := by
      have := (not_congr (h.table.next_invalid_iff hi)).mp hne
      omega
    rw [(h.table.next_valid hlt).1]
    exact List.getElem_mem hlt

theorem Represents.chainOf (h : Represents base st ps M) : ChainOf st.1.pages st.2.firstPageId ps where
  head := h.first
  nodup := h.table.nodup
  linked i hi := by
    obtain ⟨pg, hpg, htype, hnext, -⟩ := h.table.page i hi
    exact ⟨pg, hpg, htype, hnext, by rw [hnext]; exact h.table.next_invalid_iff hi⟩

theorem legalSize_iff {t : List UInt8} : LegalSize t ↔ t ≠ [] ∧ t.length ≤ maxTupleSize := by
  unfold LegalSize
  rw [← List.length_pos_iff]
  exact Iff.rfl

theorem not_legalSize {t : List UInt8} (h : t = [] ∨ maxTupleSize < t.length) : ¬LegalSize t := by
  rw [legalSize_iff]
  rintro ⟨h0, hlen⟩
  exact h.elim h0 (Nat.not_lt.mpr hlen)

/-- One call by a caller that keeps its side. -/
theorem simulates_map (hlaw : env.Lawful) (hfuel : 2 ^ 32 ≤ fuel) :
    Refine.Simulation (perform env build fuel) Answers Legal (fun st M => ∃ ps, Represents base st ps M)
      (fun st => st.1.failures) := by
  apply Refine.Simulation.of_wp
  intro st M op hlegal hR
  obtain ⟨ps, h⟩ := hR
  rw [wp_attempt]
  cases op with
  | insert t =>
    apply wp_call (wp_insert hlaw hfuel h)
    · intro r st' hr
      obtain ⟨hs, ⟨hfresh, ps', -, hrep⟩, h0, hlen⟩ := hr
      exact ⟨_, ⟨ps', hrep⟩, hs.failures, fun _ => .inl ⟨legalSize_iff.mpr ⟨h0, hlen⟩, r, rfl, hfresh, rfl⟩⟩
    · intro e st' hr
      obtain ⟨hs, hrep, hwhy⟩ := hr
      refine ⟨M, ⟨ps, hrep⟩, hs.failures, fun hf => ?_⟩
      rcases hwhy with ⟨hcode, hbad⟩ | hlt
      · exact .inr ⟨not_legalSize hbad, ⟨e, rfl, hcode⟩, rfl⟩
      · exact absurd hf (Nat.ne_of_gt hlt.failures)
  | get rid =>
    apply wp_call (wp_get h (h.mem_of_onChain hlegal))
    · intro bs st' hr
      obtain ⟨hs, hrep, hM⟩ := hr
      exact ⟨M, ⟨ps, hrep⟩, hs.failures, fun _ => ⟨rfl, .inl ⟨bs, hM, rfl⟩⟩⟩
    · intro e st' hr
      obtain ⟨hs, hrep, hwhy⟩ := hr
      refine ⟨M, ⟨ps, hrep⟩, hs.failures, fun hf => ⟨rfl, .inr ?_⟩⟩
      rcases hwhy with ⟨hcode, hM⟩ | hlt
      · exact ⟨hM, e, rfl, hcode⟩
      · exact absurd hf (Nat.ne_of_gt hlt.failures)
  | delete rid =>
    apply wp_call (wp_delete h (h.mem_of_onChain hlegal))
    · intro _ st' hr
      obtain ⟨hs, hM, hrep, -⟩ := hr
      exact ⟨_, ⟨ps, hrep⟩, hs.failures, fun _ => .inl ⟨hM, rfl, rfl⟩⟩
    · intro e st' hr
      obtain ⟨hs, hrep, -, hwhy⟩ := hr
      refine ⟨M, ⟨ps, hrep⟩, hs.failures, fun hf => .inr ?_⟩
      rcases hwhy with ⟨hcode, hM⟩ | hlt
      · exact ⟨hM, ⟨e, rfl, hcode⟩, rfl⟩
      · exact absurd hf (Nat.ne_of_gt hlt.failures)
  | update rid t =>
    apply wp_call (wp_update hlaw hfuel h (h.mem_of_onChain hlegal))
    · intro r st' hr
      obtain ⟨hs, hM, h0, hlen, ⟨hlt, r', -, ps', -, hrep⟩ | ⟨hr', ps', -, hrep⟩⟩ := hr
      · exact ⟨_, ⟨ps', hrep⟩, hs.failures, fun hf => by omega⟩
      · exact ⟨_, ⟨ps', hrep⟩, hs.failures, fun _ => .inl ⟨legalSize_iff.mpr ⟨h0, hlen⟩, hM, r, rfl, hr', rfl⟩⟩
    · intro e st' hr
      obtain ⟨hs, ⟨-, hlt, r', -, ps', -, hrep⟩ | ⟨hrep, hwhy⟩⟩ := hr
      · exact ⟨_, ⟨ps', hrep⟩, hs.failures, fun hf => by omega⟩
      · refine ⟨M, ⟨ps, hrep⟩, hs.failures, fun hf => .inr ?_⟩
        rcases hwhy with ⟨hcode, hbad⟩ | ⟨hcode, h0, hlen, hM⟩ | hlt
        · exact .inr ⟨not_legalSize hbad, ⟨e, rfl, hcode⟩, rfl⟩
        · exact .inl ⟨legalSize_iff.mpr ⟨h0, hlen⟩, hM, ⟨e, rfl, hcode⟩, rfl⟩
        · exact absurd hf (Nat.ne_of_gt hlt.failures)
  | reopen last =>
    -- `Open` reads no page: the chain is as it was, the cursor is back at the front
    have hfirst : st.2.firstPageId ∈ ps := h.mem_of_onChain .first
    refine ⟨M, ⟨ps, h.table, h.first, h.mem_of_onChain hlegal, hfirst, h.apart, h.live⟩, Nat.le_refl _,
      fun _ => ⟨rfl, rfl⟩⟩

/-- `Create`: one fresh page, or a failed `NewPage`. -/
theorem wp_create_fresh {s : PageStore} (hlaw : env.Lawful) (hlive : ∀ g ∈ s.guards, s.pages g.page ≠ none) :
    wp (create env)
      (fun t s' => Represents s.pages (s', t) [t.firstPageId] (fun _ => none) ∧ s.pages t.firstPageId = none ∧
        s'.failures = s.failures)
      (fun e s' => s'.pages = s.pages ∧ Failed env e s s') s := by
  unfold create
  rw [wp_inScope]
  apply wp_call (wp_and (wp_newPage hlaw) wp_newPage_refuses)
  · intro p s₁ hp
    obtain ⟨⟨hfresh, hid, hpages, -, hfail, -⟩, -⟩ := hp
    have hblank : s₁.pages p = some (blankPage p) := by rw [hpages, Function.update_self]
    rw [wp_bind, wp_setPageType hblank, wp_bind, wp_setNextPageId (PageStore.setPage_same _ _ _), wp_bind]
    apply wp_asHeapPage (PageStore.setPage_same _ _ _) rfl
    rw [wp_bind]
    apply wp_onBody (PageStore.setPage_same _ _ _)
    unfold HeapPage.init HeapPage.writeHeader
    rw [wp_modify, wp_pure]
    have hinvalid : p ≠ invalidPage := fun he => absurd (he ▸ hid) (by decide)
    have hguards : ∀ g ∈ s.guards, g.page ≠ p := fun g hg he => hlive g hg (he ▸ hfresh)
    simp only [PageStore.setPage, hpages, Function.update_idem]
    refine ⟨⟨⟨List.nodup_singleton p, ?_, ?_, fun _ _ => rfl, ?_⟩, rfl, by simp, by simp, ?_, ?_⟩, hfresh, hfail⟩
    · simpa using hinvalid.symm
    · intro i hi
      have h0 : i = 0 := by simpa using hi
      subst h0
      refine ⟨_, Function.update_self _ _ _, rfl, rfl, ⟨_, _, _, HeapPage.stores_init _⟩, fun k => ?_⟩
      rw [HeapPage.contents_init]
    · intro q hq
      exact Function.update_of_ne (by simpa using hq) _ _
    · intro g hg
      simpa using hguards g hg
    · intro g hg
      dsimp only
      rw [Function.update_of_ne (hguards g hg)]
      exact hlive g hg
  · intro e s₁ he
    exact ⟨he.1.1.pages, he.1.1.failures, he.2⟩

theorem wp_create {s : PageStore} (hlaw : env.Lawful) (hlive : ∀ g ∈ s.guards, s.pages g.page ≠ none) :
    wp (create env) (fun t s' => Represents s.pages (s', t) [t.firstPageId] (fun _ => none) ∧ s'.failures = s.failures)
      (fun _ s' => s.failures < s'.failures) s :=
  wp_mono (wp_create_fresh hlaw hlive) (fun _ _ h => ⟨h.1, h.2.2⟩) fun _ _ he => he.2.failures

/-- The only errors of the map. -/
theorem Answers.error_code {m m' : RidMap} {op : Op} {e : Status} (h : Answers m op (.error e) m') :
    e.code = .invalidArgument ∨ e.code = .notFound := by
  have hcode : ∀ {code}, FailsWith code (.error e) → e.code = code := by
    intro code hf
    obtain ⟨e', he, hc⟩ := hf
    cases he
    exact hc
  cases op with
  | insert t =>
    rcases h with ⟨-, r, hr, -⟩ | ⟨-, hf, -⟩
    · cases hr
    · exact .inl (hcode hf)
  | get rid =>
    rcases h.2 with ⟨bs, -, hr⟩ | ⟨-, hf⟩
    · cases hr
    · exact .inr (hcode hf)
  | delete rid =>
    rcases h with ⟨-, hr, -⟩ | ⟨-, hf, -⟩
    · cases hr
    · exact .inr (hcode hf)
  | update rid t =>
    rcases h with ⟨-, -, r, hr, -⟩ | ⟨-, -, hf, -⟩ | ⟨-, hf, -⟩
    · cases hr
    · exact .inr (hcode hf)
    · exact .inl (hcode hf)
  | reopen last => cases h.1

theorem no_pageFull {m m' : RidMap} {ops : List Op} {as : List (Except Status Answer)}
    (h : Refine.Allowed Answers m ops as m') : ∀ e, .error e ∈ as → e.code ≠ .pageFull := by
  induction h with
  | nil m => intro e he; cases he
  | cons hstep _ ih =>
    intro e he
    cases List.mem_cons.mp he with
    | inl hhead =>
      subst hhead
      rcases hstep.error_code with hc | hc <;> rw [hc] <;> decide
    | inr htail => exact ih e htail

/-- A table is a finite map from record ids to bytes, held on one chain of pages. -/
theorem table_heap_is_rid_map {s : PageStore} (hlaw : env.Lawful) (hlive : ∀ g ∈ s.guards, s.pages g.page ≠ none) :
    ∃ enough, ∀ fuel, enough ≤ fuel → ∀ ops : List Op,
      (∀ t s₁, create env s = some (.ok t, s₁) → Refine.Kept (perform env build fuel) Legal ops (s₁, t)) →
      ∃ result s', createAndRun env build fuel ops s = some (result, s') ∧
        (s'.failures = s.failures → ∃ as t m, result = .ok (as, t) ∧ Refine.Allowed Answers (fun _ => none) ops as m ∧
          (∀ e, .error e ∈ as → e.code ≠ .pageFull) ∧
          ∃ ps, ChainOf s'.pages t.firstPageId ps ∧ (∀ r, m r ≠ none → r.pageId ∈ ps) ∧
            ∀ p, p ∉ ps → s'.pages p = s.pages p) := by
  refine ⟨2 ^ 32, fun fuel hfuel ops hkept => ?_⟩
  rcases wp_run (wp_create hlaw hlive) with ⟨t, s₁, hcreate, hrep, hfail⟩ | ⟨e, s₁, hcreate, hlt⟩
  · obtain ⟨as, ⟨s₂, t'⟩, m, hrun, ⟨ps, hrep'⟩, hle, hallowed⟩ :=
      (simulates_map hlaw hfuel).run (hkept t s₁ hcreate) ⟨_, hrep⟩
    refine ⟨.ok (as, t'), s₂, ?_, fun hf => ⟨as, t', m, rfl, ?_, ?_, ps, hrep'.chainOf, ?_, hrep'.table.others⟩⟩
    · unfold createAndRun
      rw [hcreate]
      dsimp only
      rw [hrun]
    · exact hallowed (hf.trans hfail.symm)
    · exact no_pageFull (hallowed (hf.trans hfail.symm))
    · intro r hr
      by_contra hoff
      exact hr (hrep'.table.off r hoff)
  · refine ⟨.error e, s₁, ?_, fun hf => by omega⟩
    unfold createAndRun
    rw [hcreate]

theorem table_heap_is_rid_map_demo : ∃ enough, ∀ fuel, enough ≤ fuel →
    ∃ result s', createAndRun PoolEnv.countUp ⟨true, Bytes.Region.zero⟩ fuel [.delete ⟨2, 7⟩, .insert [1, 2, 3]]
        PageStore.empty = some (result, s') ∧
      (s'.failures = 0 → ∃ as t m, result = .ok (as, t) ∧
        Refine.Allowed Answers (fun _ => none) [.delete ⟨2, 7⟩, .insert [1, 2, 3]] as m ∧
        (∀ e, .error e ∈ as → e.code ≠ .pageFull) ∧
        ∃ ps, ChainOf s'.pages t.firstPageId ps ∧ (∀ r, m r ≠ none → r.pageId ∈ ps) ∧
          ∀ p, p ∉ ps → s'.pages p = none) := by
  obtain ⟨enough, h⟩ := @table_heap_is_rid_map PoolEnv.countUp ⟨true, Bytes.Region.zero⟩ PageStore.empty
    PoolEnv.countUp_lawful (by simp [PageStore.empty])
  refine ⟨enough, fun fuel hfuel => h fuel hfuel _ fun t s₁ hcreate => ⟨?_, fun _ _ _ => ⟨trivial, fun _ _ _ => trivial⟩⟩⟩
  have ht : (create PoolEnv.countUp PageStore.empty).map (·.1) = some (.ok ⟨2, 2, 2⟩) := rfl
  rw [hcreate] at ht
  cases ht
  exact .first

end Proofs
end TableHeap
end KernSql
