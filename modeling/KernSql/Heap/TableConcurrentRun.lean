import KernSql.Heap.TableConcurrent

/- A table under concurrent calls: what a step can do, and what every run keeps.

   `Moves` and `Enters` say which event a step of a call may come with, given the
   rows there are; `Lands` says that the pages after it are a table holding the
   rows the event makes of them. So over a whole run the pages stay one chain and
   its rows are those the history writes (`System.Sound`), and with inserts and
   deletes only, they are what has been acknowledged
   (`inserts_and_deletes_lose_nothing`). -/
namespace KernSql
open Exec

section Page
variable {env : PoolEnv} {s : PageStore} {α : Type}

/-- No heap page is behind the id. -/
def NoHeapPage (pages : PageId → Option Page) (p : PageId) : Prop :=
  ∀ pg, pages p = some pg → pg.header.pageType ≠ .heap

/-- A page that is no heap page: the section ends before anything is done. -/
theorem wp_withPage_off {latch : Latch} {p : PageId} (hno : NoHeapPage s.pages p)
    (hfree : ∀ g ∈ s.guards, g.page ≠ p) {m : HeapPage.PageM α} :
    wp (inScope do fetchPage env latch p; asHeapPage p; onBody p m) (fun _ _ => False)
      (fun _ s' => Steady s s' ∧ s'.pages = s.pages) s := by
  rw [wp_inScope]
  cases hp : s.pages p with
  | none =>
    rw [wp_bind]
    unfold wp fetchPage
    rw [s.not_conflicts hfree latch, hp]
    have hle := Nat.le_succ s.failures
    cases env.fetchFails s p with
    | none => exact ⟨⟨rfl, fun _ h => h, hle, rfl⟩, rfl⟩
    | some e => exact ⟨⟨rfl, fun _ h => h, hle, rfl⟩, rfl⟩
  | some pg =>
    apply wp_call (wp_fetchPage (s.not_conflicts hfree latch) (by rw [hp]; exact Option.some_ne_none _))
    · intro _ s₁ hr
      rw [wp_bind]
      unfold asHeapPage
      rw [wp_bind, wp_guarded (by rw [hr.pages, hp]), if_pos (hno pg hp), wp_fail]
      exact ⟨⟨rfl, fun q hq => by simpa only [hr.pages] using hq, Nat.le_of_eq hr.failures.symm, hr.leaks⟩, hr.pages⟩
    · intro e s₁ hr
      exact ⟨⟨rfl, fun q hq => by simpa only [hr.pages] using hq, Nat.le_of_lt hr.failures, hr.leaks⟩, hr.pages⟩

end Page

namespace TableHeap.Concurrent
variable {env : PoolEnv} {build : Build} {base : PageId → Option Page} {st st' : PageStore × TableHeap}
  {ps ps' : List PageId} {M : RidMap}

/-! What holds of the table between two steps. -/

/-- The pages are a table, its last page is the one the object names, and nobody is at work on a page. -/
structure Table (base : PageId → Option Page) (st : PageStore × TableHeap) (ps : List PageId) (M : RidMap) : Prop where
  rep : Represents base st ps M
  last : ps.getLast? = some st.2.lastPageId
  free : st.1.guards = []

/-- The row a relocation is about is on the chain. -/
def Purpose.Fits (ps : List PageId) : Purpose → Prop
  | .insert => True
  | .relocate old _ => old.pageId ∈ ps

/-- The pages a call has in hand are on the chain, and its tuple is of legal size. -/
def Activity.Fits (ps : List PageId) : Activity → Prop
  | .loadHint why _ => why.Fits ps
  | .probe why t _ p _ => why.Fits ps ∧ LegalSize t ∧ p ∈ ps
  | .loadLast why t => why.Fits ps ∧ LegalSize t
  | .append why t p => why.Fits ps ∧ LegalSize t ∧ p ∈ ps
  | .remove old _ _ _ => old.pageId ∈ ps
  | .returned _ => True

theorem Purpose.Fits.mono {why : Purpose} (h : why.Fits ps) (hsub : ps ⊆ ps') : why.Fits ps' := by
  cases why with
  | insert => trivial
  | relocate old found => exact hsub h

theorem Activity.Fits.mono {a : Activity} (h : a.Fits ps) (hsub : ps ⊆ ps') : a.Fits ps' := by
  cases a with
  | loadHint why t => exact Purpose.Fits.mono h hsub
  | probe why t left p fromHint => exact ⟨h.1.mono hsub, h.2.1, hsub h.2.2⟩
  | loadLast why t => exact ⟨h.1.mono hsub, h.2⟩
  | append why t p => exact ⟨h.1.mono hsub, h.2.1, hsub h.2.2⟩
  | remove old new t found => exact hsub h
  | returned r => trivial

/-- The rows after a step. -/
def after (e : Option Event) (M : RidMap) : RidMap := e.elim M (·.write M)

/-- Where a step leaves the table: perhaps with a page more, and with the rows its event makes. -/
structure Lands (base : PageId → Option Page) (ps : List PageId) (M : RidMap) (a : Activity) (e : Option Event)
    (st' : PageStore × TableHeap) : Prop where
  ok : ∃ ps', ps <+: ps' ∧ Table base st' ps' (after e M) ∧ a.Fits ps'

namespace Table

/-- The same chain in a later state of the pool, with the cursor moved along it. -/
theorem steady (h : Table base st ps M) {s' : PageStore} {M' : RidMap} (hs : Steady st.1 s')
    (ht : TableAt base s'.pages ps M') {hint : PageId} (hh : hint ∈ ps) :
    Table base (s', { st.2 with insertHint := hint }) ps M' :=
  ⟨h.rep.steady hs ht hh, h.last, hs.guards.trans h.free⟩

theorem steady' (h : Table base st ps M) {s' : PageStore} {M' : RidMap} (hs : Steady st.1 s')
    (ht : TableAt base s'.pages ps M') : Table base (s', st.2) ps M' := h.steady hs ht h.rep.hint

theorem lands (h : Table base st ps M) {a : Activity} (ha : a.Fits ps) : Lands base ps M a none st :=
  ⟨ps, List.prefix_refl ps, h, ha⟩

theorem first_mem (h : Table base st ps M) : st.2.firstPageId ∈ ps := h.rep.mem_of_onChain .first

theorem last_mem (h : Table base st ps M) : st.2.lastPageId ∈ ps := List.mem_of_getLast? h.last

end Table

/-! What a step can do. -/

/-- The `Insert` a call is in the middle of. -/
def Activity.inserting : Activity → Option (Purpose × List UInt8)
  | .loadHint why t | .probe why t _ _ _ | .loadLast why t | .append why t _ => some (why, t)
  | .remove .. | .returned _ => none

/-- A step of a call that has begun, over a table with rows `M`. -/
inductive Moves (env : PoolEnv) (M : RidMap) : Activity → Activity → Option Event → Prop where
  | search {a a' : Activity} {why : Purpose} {t : List UInt8} (h : a.inserting = some (why, t))
      (h' : a'.inserting = some (why, t)) : Moves env M a a' none
  | inserted {a : Activity} {t : List UInt8} {rid : RID} (h : a.inserting = some (.insert, t)) (hM : M rid = none) :
      Moves env M a (.returned (.ok (.rid rid))) (some (.inserted rid t))
  | copied {a : Activity} {old rid : RID} {found : Option Tag} {t : List UInt8}
      (h : a.inserting = some (.relocate old found, t)) (hM : M rid = none) :
      Moves env M a (.remove old rid t found) (some (.copied old rid t found))
  | failed {a : Activity} {w : Purpose × List UInt8} (h : a.inserting = some w) (e : Status) :
      Moves env M a (.returned (.error e)) none
  | removed {old new : RID} {t : List UInt8} {found : Option Tag} (hM : M old ≠ none) :
      Moves env M (.remove old new t found) (.returned (.ok (.rid new))) (some (.relocated old new t found true))
  | missing {old new : RID} {t : List UInt8} {found : Option Tag}
      (hM : M old = none ∨ ∃ e, env.Refuses e ∧ e.code = .notFound) :
      Moves env M (.remove old new t found) (.returned (.ok (.rid new))) (some (.relocated old new t found false))
  | stranded {old new : RID} {t : List UInt8} {found : Option Tag} (e : Status) :
      Moves env M (.remove old new t found) (.returned (.error e)) (some (.stranded old new found))

/-- The first step of a call; `found` are the tags the rows have. -/
inductive Enters (M : RidMap) (found : RID → Option Tag) : Call → Activity → Option Event → Prop where
  | insert {a : Activity} {t : List UInt8} (h : a.inserting = some (.insert, t)) :
      Enters M found (.insert t) a none
  | refused (c : Call) (e : Status) : Enters M found c (.returned (.error e)) none
  | deleted {rid : RID} (hM : M rid ≠ none) :
      Enters M found (.delete rid) (.returned (.ok .done)) (some (.deleted rid))
  | updated {rid : RID} {t : List UInt8} (hM : M rid ≠ none) :
      Enters M found (.update rid t) (.returned (.ok (.rid rid))) (some (.updated rid t))
  | examined {rid : RID} {t : List UInt8} (hM : M rid ≠ none) :
      Enters M found (.update rid t) (.loadHint (.relocate rid (found rid)) t) (some (.examined rid))

section Steps

theorem inserting_sweep (why : Purpose) (t : List UInt8) (left : Nat) (p : PageId) (fromHint : Bool) :
    (sweep why t left p fromHint).inserting = some (why, t) := by
  unfold sweep
  split <;> rfl

theorem fits_sweep {why : Purpose} {t : List UInt8} {left : Nat} {p : PageId} {fromHint : Bool} (hwhy : why.Fits ps)
    (ht : LegalSize t) (hp : p ∈ ps) : (sweep why t left p fromHint).Fits ps := by
  unfold sweep
  split
  · exact ⟨hwhy, ht⟩
  · exact ⟨hwhy, ht, hp⟩

/-- The tuple has landed at a free id. -/
theorem landed_moves {a : Activity} {why : Purpose} {t : List UInt8} {rid : RID} (ha : a.inserting = some (why, t))
    (hM : M rid = none) : Moves env M a (landed t rid why).1 (landed t rid why).2 := by
  cases why with
  | insert => exact .inserted ha hM
  | relocate old found => exact .copied ha hM

theorem landed_lands {why : Purpose} {t : List UInt8} {rid : RID} (hwhy : why.Fits ps') (hsub : ps <+: ps')
    (h : Table base st' ps' (Function.update M rid (some t))) :
    Lands base ps M (landed t rid why).1 (landed t rid why).2 st' := by
  cases why with
  | insert => exact ⟨ps', hsub, h, trivial⟩
  | relocate old found => exact ⟨ps', hsub, h, hwhy⟩

theorem wp_beginInsert (h : Table base st ps M) {why : Purpose} (hwhy : why.Fits ps) (t : List UInt8) :
    wp (beginInsert why t)
      (fun r st' => r.1.inserting = some (why, t) ∧ r.2 = none ∧ Lands base ps M r.1 none st')
      (fun _ st' => st' = st) st := by
  unfold beginInsert
  rw [wp_ite]
  refine ⟨fun _ => rfl, fun h0 => ?_⟩
  rw [wp_ite]
  refine ⟨fun _ => rfl, fun hbig => ?_⟩
  have ht : LegalSize t := legalSize_iff.mpr ⟨h0, Nat.not_lt.mp hbig⟩
  rw [wp_bind, wp_self, wp_pure]
  refine ⟨inserting_sweep _ _ _ _ _, rfl, h.lands (fits_sweep hwhy ht ?_)⟩
  split
  · exact h.first_mem
  · exact h.rep.hint

theorem wp_probeStep (h : Table base st ps M) {why : Purpose} {t : List UInt8} {left : Nat} {p : PageId} {fromHint : Bool}
    (hfits : (Activity.probe why t left p fromHint).Fits ps) :
    wp (advance env build (.probe why t left p fromHint))
      (fun r st' => Moves env M (.probe why t left p fromHint) r.1 r.2 ∧ Lands base ps M r.1 r.2 st')
      (fun _ st' => Table base st' ps M) st := by
  obtain ⟨hwhy, ht, hp⟩ := hfits
  obtain ⟨h0, hlen⟩ := legalSize_iff.mp ht
  obtain ⟨i, hi, rfl⟩ := List.mem_iff_getElem.mp hp
  simp only [advance]
  rw [wp_bind, wp_self, wp_bind, wp_onPool]
  apply wp_mono (wp_probe h.rep.table h.rep.apart h0 hlen hi)
  · intro r s' hr
    obtain ⟨hs, hcase⟩ := hr
    rcases hcase with ⟨e, rfl, hpages, -⟩ | ⟨k, rfl, hnone, htab⟩ | ⟨rfl, htab⟩
    · have hkeep : Table base (s', st.2) ps M := h.steady' hs (hpages ▸ h.rep.table)
      dsimp only
      rw [wp_ite]
      constructor
      · intro _
        exact ⟨.search rfl (inserting_sweep _ _ _ _ _), hkeep.lands (fits_sweep hwhy ht h.first_mem)⟩
      · intro _
        exact hkeep
    · dsimp only
      rw [wp_bind, wp_setSelf, wp_pure]
      exact ⟨landed_moves rfl hnone, landed_lands hwhy (List.prefix_refl ps) (h.steady hs htab (List.getElem_mem hi))⟩
    · have hmem : (if ps.getD (i + 1) invalidPage = invalidPage then st.2.firstPageId
          else ps.getD (i + 1) invalidPage) ∈ ps := by
        by_cases hend : i + 1 < ps.length
        · obtain ⟨he, hne⟩ := h.rep.table.next_valid hend
          rw [he, if_neg hne]
          exact List.getElem_mem hend
        · rw [if_pos ((h.rep.table.next_invalid_iff hi).mpr (by omega))]
          exact h.first_mem
      dsimp only
      rw [wp_bind, wp_setSelf, wp_pure]
      exact ⟨.search rfl (inserting_sweep _ _ _ _ _), (h.steady hs htab hmem).lands (fits_sweep hwhy ht hmem)⟩
  · intro _ _ hf
    exact hf.elim

theorem wp_appendStep (hlaw : env.Lawful) (h : Table base st ps M) {why : Purpose} {t : List UInt8} {p : PageId}
    (hfits : (Activity.append why t p).Fits ps) :
    wp (advance env build (.append why t p))
      (fun r st' => Moves env M (.append why t p) r.1 r.2 ∧ Lands base ps M r.1 r.2 st')
      (fun _ st' => Table base st' ps M) st := by
  obtain ⟨hwhy, ht, hp⟩ := hfits
  obtain ⟨h0, hlen⟩ := legalSize_iff.mp ht
  obtain ⟨i, hi, rfl⟩ := List.mem_iff_getElem.mp hp
  simp only [advance]
  rw [wp_bind, wp_onPool]
  apply wp_mono (wp_appendAt hlaw h.rep.table h.rep.apart h0 hlen hi)
  · intro r s' hr
    obtain ⟨hs, hcase⟩ := hr
    rcases hcase with ⟨hn, rfl, htab⟩ | ⟨k, rfl, hnone, htab⟩ | ⟨q, k, rfl, hnone, -, htab⟩
    · exact ⟨.search rfl rfl, (h.steady' hs htab).lands ⟨hwhy, ht, List.getElem_mem hn⟩⟩
    · dsimp only
      rw [wp_bind, wp_self, wp_bind, wp_setSelf, wp_pure]
      exact ⟨landed_moves rfl hnone, landed_lands hwhy (List.prefix_refl ps) (h.steady hs htab (List.getElem_mem hi))⟩
    · dsimp only
      rw [wp_bind, wp_self, wp_bind, wp_setSelf, wp_pure]
      have hguards : s'.guards = [] := hs.guards.trans h.free
      have hsub : ps <+: ps ++ [q] := List.prefix_append ps [q]
      have hrep : Represents base (s', { st.2 with lastPageId := q, insertHint := q }) (ps ++ [q])
          (Function.update M ⟨q, k⟩ (some t)) := by
        refine ⟨htab, ?_, by simp, by simp, ?_, ?_⟩
        · rw [List.head?_append, h.rep.first]
          rfl
        · simp [hguards]
        · simp [hguards]
      exact ⟨landed_moves rfl hnone, landed_lands (hwhy.mono hsub.subset) hsub ⟨hrep, by simp, hguards⟩⟩
  · intro e s' he
    exact h.steady' he.1 he.2.1

/-- Every step of a call that has begun. -/
theorem wp_advance (hlaw : env.Lawful) (h : Table base st ps M) {a : Activity} (hfits : a.Fits ps)
    (hgoing : ∀ r, a ≠ .returned r) :
    wp (advance env build a) (fun r st' => Moves env M a r.1 r.2 ∧ Lands base ps M r.1 r.2 st')
      (fun e st' => Moves env M a (.returned (.error e)) none ∧ Lands base ps M (.returned (.error e)) none st') st := by
  cases a with
  | loadHint why t =>
    simp only [advance]
    apply wp_mono (wp_beginInsert h hfits t)
    · intro r st' hr
      obtain ⟨hins, hnone, hl⟩ := hr
      rw [hnone]
      exact ⟨.search rfl hins, hl⟩
    · intro e st' hr
      rw [hr]
      exact ⟨.failed rfl e, h.lands trivial⟩
  | probe why t left p fromHint =>
    exact wp_mono (wp_probeStep h hfits) (fun _ _ hr => hr) fun e st' hr => ⟨.failed rfl e, hr.lands trivial⟩
  | loadLast why t =>
    simp only [advance]
    rw [wp_bind, wp_self, wp_pure]
    exact ⟨.search rfl rfl, h.lands ⟨hfits.1, hfits.2, h.last_mem⟩⟩
  | append why t p =>
    exact wp_mono (wp_appendStep hlaw h hfits) (fun _ _ hr => hr) fun e st' hr => ⟨.failed rfl e, hr.lands trivial⟩
  | remove old new t found =>
    simp only [advance]
    rw [wp_bind, wp_attempt]
    apply wp_mono (wp_delete h.rep hfits)
    · intro _ st' hr
      obtain ⟨hs, hM, hrep, hlast⟩ := hr
      exact ⟨.removed hM, ps, List.prefix_refl ps, ⟨hrep, hlast ▸ h.last, hs.guards.trans h.free⟩, trivial⟩
    · intro e st' hr
      obtain ⟨hs, hrep, hself, hwhy⟩ := hr
      have hkeep : Table base st' ps M := ⟨hrep, hself ▸ h.last, hs.guards.trans h.free⟩
      dsimp only
      rw [wp_ite]
      constructor
      · intro _
        exact ⟨.stranded _, ps, List.prefix_refl ps, hkeep, trivial⟩
      · intro hcode
        refine ⟨.missing ?_, ps, List.prefix_refl ps, hkeep, trivial⟩
        cases hwhy with
        | inl hgone => exact .inl hgone.2
        | inr hpool => exact .inr ⟨e, hpool.why, not_not.mp hcode⟩
  | returned r => exact absurd rfl (hgoing r)

/-- The ids a caller passes name a page of the table, or no heap page at all. -/
def Addresses (st : PageStore × TableHeap) (rid : RID) : Prop :=
  OnChain st.1.pages st.2.firstPageId rid.pageId ∨ NoHeapPage st.1.pages rid.pageId

/-- What a caller has to see to. -/
def Call.Legal (st : PageStore × TableHeap) : Call → Prop
  | .insert _ => True
  | .delete rid => Addresses st rid
  | .update rid _ => Addresses st rid

theorem Table.off (h : Table base st ps M) {s' : PageStore} (hs : Steady st.1 s') (hpages : s'.pages = st.1.pages) :
    Table base (s', st.2) ps M := h.steady' hs (hpages ▸ h.rep.table)

theorem wp_deleteCall (h : Table base st ps M) {rid : RID} (hrid : Addresses st rid) :
    wp (delete env build rid)
      (fun _ st' => M rid ≠ none ∧ Table base st' ps (Function.update M rid none))
      (fun _ st' => Table base st' ps M) st := by
  cases hrid with
  | inl hon =>
    apply wp_mono (wp_delete h.rep (h.rep.mem_of_onChain hon))
    · intro _ st' hr
      obtain ⟨hs, hM, hrep, hlast⟩ := hr
      exact ⟨hM, hrep, hlast ▸ h.last, hs.guards.trans h.free⟩
    · intro e st' hr
      obtain ⟨hs, hrep, hself, -⟩ := hr
      exact ⟨hrep, hself ▸ h.last, hs.guards.trans h.free⟩
  | inr hno =>
    unfold delete
    rw [wp_bind, wp_onPool]
    apply wp_mono (wp_withPage_off hno (by simp [h.free]))
    · intro _ _ hf
      exact hf.elim
    · intro e s' hr
      exact h.off hr.1 hr.2

theorem wp_examine (h : Table base st ps M) {rid : RID} (hrid : Addresses st rid) (t : List UInt8) :
    wp (examine env build rid t)
      (fun o st' => M rid ≠ none ∧ rid.pageId ∈ ps ∧
        (o = .samePage ∧ Table base st' ps (Function.update M rid (some t)) ∨ o = .doesNotFit ∧ Table base st' ps M))
      (fun _ st' => Table base st' ps M) st := by
  unfold examine
  rw [wp_onPool]
  cases hrid with
  | inl hon =>
    have hmem := h.rep.mem_of_onChain hon
    obtain ⟨i, hi, hp⟩ := List.mem_iff_getElem.mp hmem
    obtain ⟨pg, hpg, htype, -, ⟨es, lo, dead, hst⟩, hcont⟩ := h.rep.table.page i hi
    have hM : ConstHeapPage.contents pg.body rid.slot = M rid := by rw [← hcont, hp]
    rw [← hp]
    apply wp_withPage hpg htype (by simp [h.free])
    · apply wp_mono (HeapPage.wp_update hst rid.slot t)
      · intro o b hb s' hs'
        obtain ⟨hv, hbound, -, -, hcase⟩ := hb
        refine ⟨by rw [← hM]; exact hbound, List.getElem_mem hi, ?_⟩
        rcases hcase with ⟨rfl, hupd⟩ | ⟨rfl, rfl⟩
        · refine .inl ⟨rfl, h.steady' hs'.steady ?_⟩
          rw [hs'.pages]
          have := h.rep.table.setBody_update hi hpg hv hupd
          rwa [hp] at this ⊢
        · refine .inr ⟨rfl, h.steady' hs'.steady ?_⟩
          rw [hs'.pages]
          exact h.rep.table.setBody_same hi hpg ⟨_, _, _, hst⟩ rfl
      · intro e b hb s' hs'
        obtain ⟨rfl, -⟩ := hb
        refine h.steady' hs'.steady ?_
        rw [hs'.pages]
        exact h.rep.table.setBody_same hi hpg ⟨_, _, _, hst⟩ rfl
    · intro e s' hr hg _
      exact h.off (.of_refused hr hg) hr.pages
  | inr hno =>
    apply wp_mono (wp_withPage_off hno (by simp [h.free]))
    · intro _ _ hf
      exact hf.elim
    · intro e s' hr
      exact h.off hr.1 hr.2

/-- The first step of every call. -/
theorem wp_enter (h : Table base st ps M) {c : Call} (hc : c.Legal st) (found : RID → Option Tag) :
    wp (enter env build found c) (fun r st' => Enters M found c r.1 r.2 ∧ Lands base ps M r.1 r.2 st')
      (fun e st' => Enters M found c (.returned (.error e)) none ∧
        Lands base ps M (.returned (.error e)) none st') st := by
  cases c with
  | insert t =>
    apply wp_mono (wp_beginInsert h (show Purpose.insert.Fits ps from trivial) t)
    · intro r st' hr
      obtain ⟨hins, hnone, hl⟩ := hr
      rw [hnone]
      exact ⟨.insert hins, hl⟩
    · intro e st' hr
      rw [hr]
      exact ⟨.refused _ e, h.lands trivial⟩
  | delete rid =>
    apply wp_call (wp_deleteCall h hc)
    · intro _ st' hr
      exact ⟨.deleted hr.1, ps, List.prefix_refl ps, hr.2, trivial⟩
    · intro e st' hr
      exact ⟨.refused _ e, hr.lands trivial⟩
  | update rid t =>
    apply wp_call (wp_examine h hc t)
    · intro o st' hr
      obtain ⟨hM, hmem, hcase⟩ := hr
      rcases hcase with ⟨rfl, htab⟩ | ⟨rfl, htab⟩
      · exact ⟨.updated hM, ps, List.prefix_refl ps, htab, trivial⟩
      · exact ⟨.examined hM, ps, List.prefix_refl ps, htab, hmem⟩
    · intro e st' hr
      exact ⟨.refused _ e, hr.lands trivial⟩

end Steps

/-! Whole runs. -/

section Runs
variable {s s' : System} {ch : Choice}

/-- What a step of the whole system was. -/
inductive Taken (env : PoolEnv) (s s' : System) : Choice → Prop where
  | call {c : Call} {a : Activity} {e : Option Event}
      (henter : Enters (written s.start s.history) (tags s.start s.history) c a e) (hacts : s'.acts.Perm (a :: s.acts))
      (hhistory : s'.history = e.toList ++ s.history) (hstart : s'.start = s.start) : Taken env s s' (.call c)
  | run {i : Nat} {a a' : Activity} {e : Option Event} {rest : List Activity}
      (hm : Moves env (written s.start s.history) a a' e) (hacts : s.acts.Perm (a :: rest))
      (hacts' : s'.acts.Perm (a' :: rest)) (hhistory : s'.history = e.toList ++ s.history)
      (hstart : s'.start = s.start) : Taken env s s' (.run i)

/-- The pages are a table holding the rows the history writes, and every call knows its way about it. -/
structure Sound (base : PageId → Option Page) (ps : List PageId) (s : System) : Prop where
  table : Table base s.shared ps (written s.start s.history)
  fits : ∀ a ∈ s.acts, a.Fits ps

/-- A choice a caller may make. -/
def Legal (s : System) : Choice → Prop
  | .call c => c.Legal s.shared
  | .run _ => True

theorem written_after (start : RidMap) (h : List Event) (e : Option Event) :
    written start (e.toList ++ h) = after e (written start h) := by
  cases e <;> rfl

theorem Lands.sound {s₀ : System} {a : Activity} {e : Option Event} {rest : List Activity}
    (h : Lands base ps (written s₀.start s₀.history) a e s'.shared) (hfits : ∀ b ∈ rest, b.Fits ps)
    (hacts : s'.acts.Perm (a :: rest)) (hhistory : s'.history = e.toList ++ s₀.history)
    (hstart : s'.start = s₀.start) : ∃ ps', ps <+: ps' ∧ Sound base ps' s' := by
  obtain ⟨ps', hsub, htab, ha⟩ := h.ok
  refine ⟨ps', hsub, ?_, fun b hb => ?_⟩
  · rw [hhistory, hstart, written_after]
    exact htab
  · cases hacts.mem_iff.mp hb with
    | head => exact ha
    | tail _ hb => exact (hfits b hb).mono hsub.subset

/-- **One step.** It does what `Enters` or `Moves` say, and the table is in order after it. -/
theorem Sound.step (hlaw : env.Lawful) (h : Sound base ps s) (hch : Legal s ch) (hs : step env build s ch = some s') :
    Taken env s s' ch ∧ ∃ ps', ps <+: ps' ∧ Sound base ps' s' := by
  cases ch with
  | call c =>
    obtain ⟨⟨r, sh⟩, hrun, hs⟩ := Option.bind_eq_some_iff.mp hs
    cases hs
    have hperm : ∀ a, (s.acts ++ [a]).Perm (a :: s.acts) := fun a => List.perm_append_singleton a s.acts
    have hwp : wp (enter env build (tags s.start s.history) c) _ _ s.shared := wp_enter h.table hch _
    unfold wp at hwp
    rw [hrun] at hwp
    cases r with
    | ok r => exact ⟨.call hwp.1 (hperm _) rfl rfl, hwp.2.sound h.fits (hperm _) rfl rfl⟩
    | error e => exact ⟨.call hwp.1 (hperm _) rfl rfl, hwp.2.sound h.fits (hperm _) rfl rfl⟩
  | run i =>
    obtain ⟨a, hi, hs⟩ := Option.bind_eq_some_iff.mp hs
    obtain ⟨⟨r, sh⟩, hrun, hs⟩ := Option.bind_eq_some_iff.mp hs
    cases hs
    obtain ⟨hlt, hget⟩ := List.getElem?_eq_some_iff.mp hi
    have hacts : s.acts.Perm (a :: s.acts.eraseIdx i) := (hget ▸ List.getElem_cons_eraseIdx_perm hlt).symm
    have hacts' : ∀ a', (s.acts.set i a').Perm (a' :: s.acts.eraseIdx i) := List.set_perm_cons_eraseIdx hlt
    have hrest : ∀ b ∈ s.acts.eraseIdx i, b.Fits ps :=
      fun b hb => h.fits b (hacts.mem_iff.mpr (.tail _ hb))
    have hgoing : ∀ r, a ≠ .returned r := by
      intro r hr
      rw [hr] at hrun
      cases hrun
    have hwp : wp (advance env build a) _ _ s.shared :=
      wp_advance hlaw h.table (h.fits a (List.mem_of_getElem? hi)) hgoing
    unfold wp at hwp
    rw [hrun] at hwp
    cases r with
    | ok r => exact ⟨.run hwp.1 hacts (hacts' _) rfl rfl, hwp.2.sound hrest (hacts' _) rfl rfl⟩
    | error e => exact ⟨.run hwp.1 hacts (hacts' _) rfl rfl, hwp.2.sound hrest (hacts' _) rfl rfl⟩

/-- No step of a call goes wrong: each thread whose call has not returned can take its next one. -/
theorem Sound.runs (hlaw : env.Lawful) (h : Sound base ps s) {i : Nat} {a : Activity} (hi : s.acts[i]? = some a)
    (hgoing : ∀ r, a ≠ .returned r) : ∃ s', Concurrent.step env build s (.run i) = some s' := by
  have hwp : wp (advance env build a) _ _ s.shared :=
    wp_advance hlaw h.table (h.fits a (List.mem_of_getElem? hi)) hgoing
  cases wp_run hwp with
  | inl hok =>
    obtain ⟨r, st', hrun, -⟩ := hok
    simp [Concurrent.step, hi, hrun]
  | inr herr =>
    obtain ⟨e, st', hrun, -⟩ := herr
    simp [Concurrent.step, hi, hrun]

/-- **Whole runs.** The table stays in order, and so does whatever the steps keep. -/
theorem Table.reaches {allowed : System → Choice → Prop} {I : System → Prop} (h₀ : Table st.1.pages st ps M)
    (hlaw : env.Lawful) (hlegal : ∀ {s ch}, allowed s ch → Legal s ch)
    (h : Machine.Reaches (Concurrent.step env build) allowed (System.new st M) s) (hnew : I (System.new st M))
    (hkeep : ∀ {s s' ch}, I s → allowed s ch → Taken env s s' ch → I s') :
    (∃ ps', ps <+: ps' ∧ Sound st.1.pages ps' s) ∧ s.start = M ∧ I s := by
  induction h with
  | start => exact ⟨⟨ps, List.prefix_refl ps, h₀, nofun⟩, rfl, hnew⟩
  | next _ hallowed hstep ih =>
    obtain ⟨⟨ps₁, hsub₁, hsound⟩, hstart, hI⟩ := ih
    obtain ⟨htaken, ps₂, hsub₂, hsound₂⟩ := hsound.step hlaw (hlegal hallowed) hstep
    refine ⟨⟨ps₂, hsub₁.trans hsub₂, hsound₂⟩, ?_, hkeep hI hallowed htaken⟩
    cases htaken with
    | call _ _ _ hsame => exact hsame.trans hstart
    | run _ _ _ _ hsame => exact hsame.trans hstart

end Runs

/-- The chain, in the words of its pages. -/
theorem Table.chainOf {M' : RidMap} (h : Table base st' ps' M') (h₀ : Table base st ps M) (hsub : ps <+: ps') :
    ChainOf st'.1.pages st.2.firstPageId ps' := by
  have hchain := h.rep.chainOf
  refine ⟨?_, hchain.nodup, hchain.linked⟩
  obtain ⟨more, rfl⟩ := hsub
  rw [List.head?_append, h₀.rep.first]
  rfl

/-! Inserts and deletes. -/

/-- Calls of `Insert` and `Delete` only. -/
def InsertsAndDeletes (s : System) : Choice → Prop
  | .call (.insert _) => True
  | .call (.delete rid) => Addresses s.shared rid
  | .call (.update _ _) => False
  | .run _ => True

/-- What an acknowledgement does to the rows a caller may count on. -/
def Event.acknowledge : Event → RidMap → RidMap
  | .inserted r t, m => Function.update m r (some t)
  | .deleted r, m => Function.update m r none
  | _, m => m

/-- The rows there were and the acknowledged inserts, less the acknowledged deletes. -/
def acknowledged (start : RidMap) (history : List Event) : RidMap := history.foldr Event.acknowledge start

/-- The rows on the pages of a chain. -/
def liveRows (pages : PageId → Option Page) (ps : List PageId) : RidMap := fun r =>
  if r.pageId ∈ ps then (pages r.pageId).bind fun pg => ConstHeapPage.contents pg.body r.slot else none

theorem liveRows_eq {pages : PageId → Option Page} (h : TableAt base pages ps M) :
    liveRows pages ps = M := by
  funext r
  unfold liveRows
  split
  · next hr =>
    obtain ⟨i, hi, hp⟩ := List.mem_iff_getElem.mp hr
    obtain ⟨pg, hpg, -, -, -, hcont⟩ := h.page i hi
    rw [← hp, hpg]
    show ConstHeapPage.contents pg.body r.slot = M r
    rw [← hcont, hp]
  · next hr => exact (h.off r hr).symm

section Plain
variable {s s' : System} {ch : Choice}

/-- The call is an `Insert` or a `Delete`, not part of an update. -/
def Activity.Plain (a : Activity) : Prop := (∃ t, a.inserting = some (.insert, t)) ∨ ∃ r, a = .returned r

/-- The event of an `Insert` or a `Delete`. -/
def Event.Plain : Event → Prop
  | .inserted _ _ | .deleted _ => True
  | _ => False

/-- Nothing but inserts and deletes so far, and no insert was given an id in use. -/
structure PlainRun (s : System) : Prop where
  acts : ∀ a ∈ s.acts, a.Plain
  events : ∀ e ∈ s.history, e.Plain
  fresh : ∀ later r t earlier, s.history = later ++ .inserted r t :: earlier → acknowledged s.start earlier r = none

theorem written_eq_acknowledged {start : RidMap} : ∀ {h : List Event}, (∀ e ∈ h, e.Plain) →
    written start h = acknowledged start h
  | [], _ => rfl
  | e :: h, hplain => by
    have ih : written start h = acknowledged start h :=
      written_eq_acknowledged fun e he => hplain e (.tail _ he)
    have he := hplain e (.head _)
    unfold written acknowledged at ih ⊢
    rw [List.foldr_cons, List.foldr_cons, ih]
    cases e with
    | inserted r t => rfl
    | deleted r => rfl
    | updated r t => exact he.elim
    | examined r => exact he.elim
    | copied old new t found => exact he.elim
    | relocated old new t found removed => exact he.elim
    | stranded old new found => exact he.elim

theorem Enters.plain {found : RID → Option Tag} {c : Call} {a : Activity} {e : Option Event}
    (h : Enters M found c a e) (hc : InsertsAndDeletes s (.call c)) :
    a.Plain ∧ (∀ e' ∈ e, e'.Plain) ∧ ∀ r t, e ≠ some (.inserted r t) := by
  cases h with
  | insert h => exact ⟨.inl ⟨_, h⟩, nofun, nofun⟩
  | refused c e => exact ⟨.inr ⟨_, rfl⟩, nofun, nofun⟩
  | deleted hM =>
    refine ⟨.inr ⟨_, rfl⟩, fun e' he => ?_, nofun⟩
    cases he
    trivial
  | updated hM => exact hc.elim
  | examined hM => exact hc.elim

theorem Moves.plain {a a' : Activity} {e : Option Event} (h : Moves env M a a' e) (ha : a.Plain) :
    a'.Plain ∧ (∀ e' ∈ e, e'.Plain) ∧ ∀ r t, e = some (.inserted r t) → M r = none := by
  have hins : ∀ {w t}, a.inserting = some (w, t) → w = .insert := by
    intro w t hw
    rcases ha with ⟨t', ht'⟩ | ⟨r, rfl⟩
    · rw [ht'] at hw
      cases hw
      rfl
    · cases hw
  cases h with
  | search h h' =>
    cases hins h
    exact ⟨.inl ⟨_, h'⟩, nofun, nofun⟩
  | inserted h hM =>
    refine ⟨.inr ⟨_, rfl⟩, fun e' he => ?_, fun r t he => ?_⟩
    · cases he
      trivial
    · cases he
      exact hM
  | copied h hM => cases hins h
  | failed h e => exact ⟨.inr ⟨_, rfl⟩, nofun, nofun⟩
  | removed hM => obtain ⟨t, ht⟩ | ⟨r, hr⟩ := ha <;> contradiction
  | missing hM => obtain ⟨t, ht⟩ | ⟨r, hr⟩ := ha <;> contradiction
  | stranded e => obtain ⟨t, ht⟩ | ⟨r, hr⟩ := ha <;> contradiction

/-- A new event at the head of a history: an insert among the events is the new one or an old one. -/
theorem PlainRun.extend {e : Option Event} (h : PlainRun s) (hacts : ∀ a ∈ s'.acts, a.Plain) (he : ∀ e' ∈ e, e'.Plain)
    (hfresh : ∀ r t, e = some (.inserted r t) → written s.start s.history r = none)
    (hhistory : s'.history = e.toList ++ s.history) (hstart : s'.start = s.start) : PlainRun s' := by
  refine ⟨hacts, ?_, ?_⟩
  · intro e' he'
    rw [hhistory] at he'
    cases List.mem_append.mp he' with
    | inl hnew => exact he e' (Option.mem_toList.mp hnew)
    | inr hold => exact h.events e' hold
  · intro later r t earlier hsplit
    rw [hstart]
    rw [hhistory] at hsplit
    cases e with
    | none => exact h.fresh later r t earlier hsplit
    | some e =>
      cases later with
      | nil =>
        obtain ⟨he, hearlier⟩ := List.cons.inj hsplit
        rw [← hearlier]
        show acknowledged s.start s.history r = none
        rw [← written_eq_acknowledged h.events]
        exact hfresh r t (congrArg some he)
      | cons e' later => exact h.fresh later r t earlier (List.cons.inj hsplit).2

theorem PlainRun.taken (h : PlainRun s) (ht : Taken env s s' ch) (hch : InsertsAndDeletes s ch) : PlainRun s' := by
  cases ht with
  | call henter hacts hhistory hstart =>
    obtain ⟨ha, he, hno⟩ := henter.plain hch
    refine h.extend (fun b hb => ?_) he (fun r t he => absurd he (hno r t)) hhistory hstart
    cases hacts.mem_iff.mp hb with
    | head => exact ha
    | tail _ hb => exact h.acts b hb
  | run hm hacts hacts' hhistory hstart =>
    obtain ⟨ha, he, hfresh⟩ := hm.plain (h.acts _ (hacts.mem_iff.mpr (.head _)))
    refine h.extend (fun b hb => ?_) he hfresh hhistory hstart
    cases hacts'.mem_iff.mp hb with
    | head => exact ha
    | tail _ hb => exact h.acts b (hacts.mem_iff.mpr (.tail _ hb))

theorem InsertsAndDeletes.legal (h : InsertsAndDeletes s ch) : Legal s ch := by
  cases ch with
  | run i => trivial
  | call c =>
    cases c with
    | insert t => trivial
    | delete rid => exact h
    | update rid t => exact h.elim

/-- **Concurrent inserts and deletes lose nothing.** From any table whose object names its last page, in every
    interleaving: the pages are one chain without a cycle; every page allocated since is on it; the object names its
    last page; no insert is acknowledged with an id that an earlier one still holds; and the rows on the pages are the
    acknowledged inserts less the acknowledged deletes. -/
theorem inserts_and_deletes_lose_nothing (hlaw : env.Lawful) (h₀ : Table st.1.pages st ps M)
    (h : Machine.Reaches (step env build) InsertsAndDeletes (System.new st M) s) :
    ∃ ps', ChainOf s.shared.1.pages st.2.firstPageId ps' ∧
      (∀ p, s.shared.1.pages p ≠ none → st.1.pages p = none → p ∈ ps') ∧
      ps'.getLast? = some s.shared.2.lastPageId ∧
      (∀ later r t earlier, s.history = later ++ .inserted r t :: earlier → acknowledged M earlier r = none) ∧
      liveRows s.shared.1.pages ps' = acknowledged M s.history := by
  have hnew : PlainRun (System.new st M) := ⟨nofun, nofun, fun later _ _ _ hsplit => by cases later <;> cases hsplit⟩
  obtain ⟨⟨ps', hsub, hsound⟩, hstart, hplain⟩ := h₀.reaches hlaw InsertsAndDeletes.legal h hnew
    fun hplain hallowed htaken => hplain.taken htaken hallowed
  have hwritten : written s.start s.history = acknowledged M s.history := by
    rw [written_eq_acknowledged hplain.events, hstart]
  have hrep := hsound.table.rep
  refine ⟨ps', hsound.table.chainOf h₀ hsub, fun p hp hnew => ?_, hsound.table.last, ?_, ?_⟩
  · by_contra hoff
    rw [hrep.table.others p hoff] at hp
    exact hp hnew
  · intro later r t earlier hsplit
    rw [← hstart]
    exact hplain.fresh later r t earlier hsplit
  · rw [liveRows_eq hrep.table, hwritten]

/-- Is every step of a schedule admitted, from a table just created, and is the last state a `good` one? -/
def endsIn (allowed : System → Choice → Prop) [∀ s ch, Decidable (allowed s ch)] (schedule : List Choice)
    (good : System → Bool) : Bool :=
  match create PoolEnv.countUp PageStore.empty with
  | some (.ok t, s) =>
    (Machine.exec (Machine.checked (step PoolEnv.countUp ⟨false, Bytes.Region.zero⟩) allowed) schedule
      (System.new (s, t) fun _ => none)).any good
  | _ => false

theorem of_endsIn {allowed : System → Choice → Prop} [∀ s ch, Decidable (allowed s ch)] {schedule : List Choice}
    {good : System → Bool} (h : endsIn allowed schedule good = true) :
    ∃ st s, Table st.1.pages st [2] (fun _ => none) ∧
      Machine.Reaches (step PoolEnv.countUp ⟨false, Bytes.Region.zero⟩) allowed (System.new st fun _ => none) s ∧
      good s = true := by
  unfold endsIn at h
  split at h
  · next t s₀ hcreate =>
    obtain ⟨s, hs, hgood⟩ := (Option.any_eq_true _ _).mp h
    have htable : (create PoolEnv.countUp PageStore.empty).map (·.1) = some (.ok ⟨2, 2, 2⟩) := rfl
    have hguards : (create PoolEnv.countUp PageStore.empty).map (·.2.guards) = some [] := rfl
    rw [hcreate] at htable hguards
    cases htable
    have hrep := wp_ok (wp_create PoolEnv.countUp_lawful (by simp [PageStore.empty])) hcreate
    refine ⟨(s₀, ⟨2, 2, 2⟩), s, ⟨?_, rfl, Option.some.inj hguards⟩, .of_exec_checked .start hs, hgood⟩
    have htab := hrep.1.table
    exact ⟨⟨htab.nodup, htab.ids, htab.page, htab.off, fun _ _ => rfl⟩, hrep.1.first, hrep.1.last, hrep.1.hint,
      hrep.1.apart, hrep.1.live⟩
  · cases h

/-- Inserts, and deletes on the first page. -/
def FrontDeletes (s : System) : Choice → Prop
  | .call (.insert _) => True
  | .call (.delete rid) => rid.pageId = s.shared.2.firstPageId
  | .call (.update _ _) => False
  | .run _ => True

instance (s : System) : (ch : Choice) → Decidable (FrontDeletes s ch)
  | .call (.insert _) => isTrue trivial
  | .call (.delete rid) => inferInstanceAs (Decidable (rid.pageId = s.shared.2.firstPageId))
  | .call (.update _ _) => isFalse id
  | .run _ => isTrue trivial

theorem FrontDeletes.insertsAndDeletes {s : System} {ch : Choice} (h : FrontDeletes s ch) : InsertsAndDeletes s ch := by
  cases ch with
  | run i => trivial
  | call c =>
    cases c with
    | insert t => trivial
    | delete rid => exact .inl (show OnChain _ _ rid.pageId from h ▸ .first)
    | update rid t => exact h.elim

/-- A page is filled; two threads sweep it and come to its end together, and both go on to append; then a row of the
    first page is deleted, and its slot taken again. -/
def raceToExtend : List Choice :=
  let big := List.replicate 2000 (0 : UInt8)
  let turns (n i : Nat) : List Choice := List.replicate n (.run i)
  [[.call (.insert big), .run 0, .call (.insert big), .run 1, .call (.insert big), .call (.insert big)], turns 5 2,
    turns 5 3, [.run 2, .run 3, .run 3, .call (.delete ⟨2, 0⟩), .call (.insert [9]), .run 5]].flatten

theorem inserts_and_deletes_lose_nothing_race : ∃ st s, Table st.1.pages st [2] (fun _ => none) ∧
    Machine.Reaches (step PoolEnv.countUp ⟨false, Bytes.Region.zero⟩) InsertsAndDeletes
      (System.new st fun _ => none) s ∧
    s.history.length = 6 ∧ ∃ ps, ps.getLast? = some s.shared.2.lastPageId ∧
      liveRows s.shared.1.pages ps = acknowledged (fun _ => none) s.history := by
  have hrun : endsIn FrontDeletes raceToExtend (fun s => s.history.length == 6) = true := by decide +kernel
  obtain ⟨st, s, htable, hreach, hgood⟩ := of_endsIn hrun
  have hreach' := hreach.mono fun _ _ h => h.insertsAndDeletes
  obtain ⟨ps, -, -, hlast, -, hlive⟩ := inserts_and_deletes_lose_nothing PoolEnv.countUp_lawful htable hreach'
  exact ⟨st, s, htable, hreach', beq_iff_eq.mp hgood, ps, hlast, hlive⟩

end Plain
end TableHeap.Concurrent
end KernSql
