import KernSql.Heap.TableScan

/- The rotating insert cursor.

   `Insert` probes at most four pages from the cursor on, wrapping at the end of the
   chain, and publishes the cursor after each page that has no room, so that the
   next call goes on where this one stopped. When no probe lands, the row is
   appended, and the append stores the cursor a second time, at the end of the
   chain. Runs of inserts are recorded here call by call: the pages probed, whether
   the call fell through to the append, and whether the append left the cursor
   alone. As long as it does, the probes of a run are one unbroken sweep; else the
   sweep starts again at the end of the chain, and pages behind its first three
   are never looked at. -/
namespace KernSql
namespace TableHeap
open Exec

section Log
variable (env : PoolEnv) (build : Build)

/-- The pages on which the loop of `probes` tries to place the tuple. -/
def probed (tuple : List UInt8) : Nat → PageId → Bool → PageStore × TableHeap → List PageId
  | 0, _, _, _ => []
  | n + 1, p, fromHint, st =>
    if p = invalidPage then []
    else match probe env build p tuple st.1 with
      | some (.ok (.unusable _), s') =>
        if fromHint && p ≠ st.2.firstPageId then probed tuple n st.2.firstPageId false (s', st.2) else []
      | some (.ok (.landed _), _) => [p]
      | some (.ok (.full next), s') =>
        let p' := if next = invalidPage then st.2.firstPageId else next
        p :: probed tuple n p' false (s', { st.2 with insertHint := p' })
      | _ => []

/-- What one `Insert` did with the cursor. -/
structure Entry where
  probed : List PageId
  /-- It exhausted its probes and went on to the append. -/
  fellThrough : Bool
  /-- The append left the cursor on the page that the last probe published. -/
  kept : Bool

/-- Where the probes of an `Insert` start. -/
def firstProbe (t : TableHeap) : PageId := if t.insertHint = invalidPage then t.firstPageId else t.insertHint

def entry (fuel : Nat) (tuple : List UInt8) (st : PageStore × TableHeap) : Entry :=
  if tuple = [] ∨ maxTupleSize < tuple.length then ⟨[], false, true⟩
  else
    let pages := probed env build tuple insertProbeLimit (firstProbe st.2) true st
    match probes env build tuple insertProbeLimit (firstProbe st.2) true st with
    | some (.ok none, st₁) =>
      ⟨pages, true, (insert env build fuel tuple st).any fun r => r.2.2.insertHint = st₁.2.insertHint⟩
    | _ => ⟨pages, false, true⟩

end Log

section Sweep
variable {env : PoolEnv} {build : Build} {fuel : Nat} {base : PageId → Option Page} {st st' : PageStore × TableHeap}
  {ps : List PageId} {M : RidMap} {t : List UInt8}

/-- The page at a position of the chain, counted around. -/
def pageAt (ps : List PageId) (k : Nat) : PageId := ps.getD (k % ps.length) invalidPage

/-- The ids met by following `n` links. -/
def links (pages : PageId → Option Page) : Nat → PageId → List PageId
  | 0, _ => []
  | n + 1, p =>
    if p = invalidPage then []
    else match pages p with
      | none => []
      | some pg => p :: links pages n pg.header.nextPageId

theorem links_eq {pages : PageId → Option Page} : ∀ (n : Nat) {ps : List PageId}, TableIterator.Chained pages ps →
    links pages n (ps.headD invalidPage) = ps.take n
  | 0, _, _ => rfl
  | n + 1, [], _ => rfl
  | n + 1, p :: ps, h => by
    obtain ⟨hid, ⟨pg, hpg, -, hnext, -⟩, hrest⟩ := h
    rw [List.headD_cons, links, if_neg hid, hpg]
    dsimp only
    rw [hnext, List.take_succ_cons, links_eq n hrest]

/-- Links that end within `n` are the chain. -/
theorem Represents.links_eq (h : Represents base st ps M) {n : Nat}
    (hshort : (links st.1.pages n st.2.firstPageId).length < n) : links st.1.pages n st.2.firstPageId = ps := by
  have htake := TableHeap.links_eq n (chained_drop h.table ps.length 0 (Nat.zero_add _))
  rw [List.drop_zero, List.headD_eq_head?_getD, h.first] at htake
  rw [show links st.1.pages n st.2.firstPageId = ps.take n from htake] at hshort ⊢
  rw [List.length_take] at hshort
  exact List.take_of_length_le (by omega)

theorem onChain_of_links {pages : PageId → Option Page} {first p : PageId} : ∀ (n : Nat) {q : PageId},
    OnChain pages first q → p ∈ links pages n q → OnChain pages first p
  | 0, _, _, hp => by cases hp
  | n + 1, q, hq, hp => by
    rw [links] at hp
    split at hp
    · cases hp
    · cases hpg : pages q with
      | none => rw [hpg] at hp; cases hp
      | some pg =>
        rw [hpg] at hp
        cases hp with
        | head => exact hq
        | tail _ hp =>
          by_cases hend : pg.header.nextPageId = invalidPage
          · cases n with
            | zero => cases hp
            | succ n => rw [hend, links, if_pos rfl] at hp; cases hp
          · exact onChain_of_links n (.next hq hpg hend) hp

/-- Inserts, and deletes within twenty pages from the first. -/
def Near (st : PageStore × TableHeap) : Op → Prop
  | .insert _ => True
  | .delete rid => rid.pageId ∈ links st.1.pages 20 st.2.firstPageId
  | _ => False

instance (st : PageStore × TableHeap) : ∀ op : Op, Decidable (Near st op)
  | .insert _ => isTrue trivial
  | .delete rid => inferInstanceAs (Decidable (rid.pageId ∈ links st.1.pages 20 st.2.firstPageId))
  | .get _ => isFalse id
  | .update _ _ => isFalse id
  | .reopen _ => isFalse id

theorem Near.sensible {op : Op} (h : Near st op) : Sensible st op := by
  cases op with
  | insert t => trivial
  | delete rid => exact .inl (onChain_of_links 20 .first h)
  | get rid => exact h.elim
  | update rid t => exact h.elim
  | reopen last => exact h.elim

/-- Does a run of `ops` from a new table go through, and is the state it leaves a `good` one? -/
def afterRun (env : PoolEnv) (ops : List Op) (good : PageStore × TableHeap → Bool) : Bool :=
  match create env PageStore.empty with
  | some (.ok t, s) =>
    Refine.keeps (perform env ⟨false, Bytes.Region.zero⟩ (2 ^ 32)) Near ops (s, t) &&
      (Refine.run (perform env ⟨false, Bytes.Region.zero⟩ (2 ^ 32)) ops (s, t)).any fun r => good r.2
  | _ => false

theorem of_afterRun {env : PoolEnv} (hlaw : env.Lawful) {ops : List Op} {good : PageStore × TableHeap → Bool}
    (h : afterRun env ops good = true) : ∃ st ps M, Represents PageStore.empty.pages st ps M ∧ good st = true := by
  unfold afterRun at h
  split at h
  · next t s hcreate =>
    rw [Bool.and_eq_true] at h
    obtain ⟨hkeeps, hgood⟩ := h
    obtain ⟨hnew, -⟩ := wp_ok (wp_create hlaw (by simp [PageStore.empty])) hcreate
    obtain ⟨as, st, _, hrun, ⟨ps, M, hrep⟩, -⟩ := (stays_table hlaw (Nat.le_refl (2 ^ 32))).run (m := ())
      (.imp (fun _ _ => Near.sensible) (.of_keeps hkeeps)) ⟨_, _, hnew⟩
    rw [hrun] at hgood
    exact ⟨st, ps, M, hrep, hgood⟩
  · cases h

end Sweep
end TableHeap
end KernSql
