import KernSql.Index.Run

/- Range scans.

   `Scan` descends once, to the leaf that would hold `lo`, and hands back an
   iterator: a position in a leaf, the read guard on it once it has been fetched,
   and the upper end of the interval. `Next` reports the entry at the position or
   follows the link to the next leaf. The iterator is part of the state, since
   `Next` changes it also when it fails; the loop over the links is bounded by a
   fuel, of which one more than the number of leaves is enough.

   What is left to report is a list: the rest of the leaf the iterator is in and
   the entries of the leaves after it. `Next` takes its first entry, or empties it
   when that entry is past the interval. -/
namespace KernSql
open Exec BTree

structure IndexIterator where
  /-- Is the guard on `pageId` held? -/
  held : Bool
  /-- `INVALID_PAGE` once exhausted. -/
  pageId : PageId
  index : Nat
  hi : Key
  current : LeafEntry := ⟨0, ⟨invalidPage, 0⟩⟩

/-- A computation over the pool and one iterator. -/
abbrev ScanM := Exec (PageStore × IndexIterator) Status

namespace IndexIterator

/-- `guard_.reset()`. -/
def release : ScanM Unit := do
  let it ← self
  if it.held then do
    onPool (dropGuard it.pageId .read)
    setSelf { it with held := false }
  else pure ()

variable (env : PoolEnv)

/-- Fetch only on arriving at a leaf. -/
def arrive : ScanM Unit := do
  let it ← self
  if it.held then pure ()
  else match ← attempt (onPool (fetchPageRead env it.pageId)) with
    | .error e => do
      setSelf { it with pageId := invalidPage }
      fail e
    | .ok _ => setSelf { it with held := true }

/-- `Next`; the first argument bounds the leaves it may step over. -/
def next : Nat → ScanM Bool
  | 0 => lift none
  | fuel + 1 => do
    let it ← self
    if it.pageId = invalidPage then pure false
    else do
      arrive env
      match ← attempt (onPool (asLeaf it.pageId)) with
      | .error e => do
        release
        setSelf { (← self) with pageId := invalidPage }
        fail e
      | .ok b =>
        if LeafNode.count b ≤ it.index then do
          release
          setSelf { (← self) with pageId := LeafNode.nextLeaf b, index := 0 }
          next fuel
        else do
          let entry ← lift (LeafNode.entryAt b it.index)
          if it.hi < entry.key then do
            release
            setSelf { (← self) with pageId := invalidPage }
            pure false
          else do
            setSelf { (← self) with current := entry, index := u16 (it.index + 1) }
            pure true

/-- A call of `Next` with the `Key()` and `Rid()` read after it answered true. -/
def nextEntry (fuel : Nat) (_ : Unit) : ScanM (Option LeafEntry) := do
  let more ← next env fuel
  let it ← self
  pure (if more then some it.current else none)

end IndexIterator

/-- Use an iterator; its destructor drops the guard it still holds. -/
def withIterator {α : Type} (it : IndexIterator) (m : ScanM α) : PoolM α := fun s =>
  match m (s, it) with
  | none => none
  | some (r, (s', it')) =>
    some (r, if it'.held then { s' with guards := s'.guards.erase ⟨it'.pageId, .read⟩ } else s')

def BPlusTree.scan (env : PoolEnv) (t : BPlusTree) (lo hi : Key) : PoolM IndexIterator := inScope do
  let p ← BPlusTree.findLeafRead env t lo
  let b ← asLeaf p
  let i ← lift (LeafNode.lowerBound b lo)
  pure { held := false, pageId := p, index := i, hi := hi }

/-! What is left to report. -/

/-- The next entry of an interval that ends at `hi`, and what is left after it. -/
def takeUpTo (hi : Key) : List LeafEntry → Option LeafEntry × List LeafEntry
  | [] => (none, [])
  | e :: rest => if hi < e.key then (none, []) else (some e, rest)

/-- `takeUpTo` as the answer of a call. -/
def takeNext (hi : Key) (rem : List LeafEntry) (_ : Unit) : Except Status (Option LeafEntry) × List LeafEntry :=
  (.ok (takeUpTo hi rem).1, (takeUpTo hi rem).2)

/-- The leaves are on their pages, linked to each other to the end of the chain. -/
structure Chain (pages : PageId → Option Page) (leaves : List (Leaf PageId LeafEntry)) : Prop where
  held : ∀ l ∈ leaves, LeafAt pages l.page l.next l.entries
  linked : Linked invalidPage (leaves.map fun l => (l.page, l.next))
  ids : ∀ l ∈ leaves, l.page ≠ invalidPage

/-- The guards of the iterator on top of those of others, which are not in its way. -/
structure Position (gs : List Guard) (pages : PageId → Option Page) (s : PageStore × IndexIterator)
    (leaves : List (Leaf PageId LeafEntry)) : Prop where
  pages_eq : s.1.pages = pages
  guards : s.1.guards = (if s.2.held then [⟨s.2.pageId, .read⟩] else []) ++ gs
  page : s.2.pageId = start invalidPage (leaves.map fun l => (l.page, l.next))
  idle : leaves = [] → s.2.held = false
  chain : Chain pages leaves
  free : ∀ l ∈ leaves, ∀ g ∈ gs, g.page = l.page → g.latch = .read

/-- The entries an iterator at this position has not examined. -/
def left (it : IndexIterator) : List (Leaf PageId LeafEntry) → List LeafEntry
  | [] => []
  | l :: rest => l.entries.drop it.index ++ rest.flatMap Leaf.entries

section Next
open IndexIterator
variable {env : PoolEnv} {gs : List Guard} {pages : PageId → Option Page} {s : PageStore × IndexIterator}
  {leaves : List (Leaf PageId LeafEntry)} {α : Type}

theorem wp_release {Q : Unit → PageStore × IndexIterator → Prop} {E : Status → PageStore × IndexIterator → Prop}
    (hg : s.1.guards = (if s.2.held then [⟨s.2.pageId, .read⟩] else []) ++ gs)
    (hQ : Q () ({ s.1 with guards := gs }, { s.2 with held := false })) : wp release Q E s := by
  obtain ⟨st, it⟩ := s
  unfold release
  rw [wp_bind, wp_self]
  by_cases hh : it.held = true
  · simp only [hh, if_true] at hg ⊢
    rw [wp_bind, wp_onPool]
    unfold dropGuard
    rw [wp_modify, wp_setSelf]
    have he : st.guards.erase ⟨it.pageId, .read⟩ = gs := by rw [hg]; simp
    simp only [he]
    exact hQ
  · have hf : it.held = false := by simpa using hh
    simp only [hf, Bool.false_eq_true, if_false, List.nil_append] at hg ⊢
    rw [wp_pure]
    have hst : st = { st with guards := gs } := by rw [← hg]
    have hit : it = { it with held := false } := by rw [← hf]
    rw [hst, hit]; exact hQ

/-- Arriving at a leaf: the guard is held, or the fetch failed and the iterator is exhausted. -/
theorem wp_arrive {l : Leaf PageId LeafEntry} {rest : List (Leaf PageId LeafEntry)}
    (h : Position gs pages s (l :: rest)) :
    wp (arrive env) (fun _ s' => Position gs pages s' (l :: rest) ∧ s'.1.failures = s.1.failures ∧
        s'.2 = { s.2 with held := true })
      (fun e s' => Position gs pages s' [] ∧ s.1.failures < s'.1.failures ∧ s'.2.hi = s.2.hi ∧
        env.RefusesUnder (gs.length + 1) e) s := by
  obtain ⟨st, it⟩ := s
  have hpages : st.pages = pages := h.pages_eq
  have hpage : it.pageId = l.page := h.page
  have hguards : st.guards = (if it.held then [⟨it.pageId, .read⟩] else []) ++ gs := h.guards
  unfold arrive
  rw [wp_bind, wp_self]
  by_cases hh : it.held = true
  · simp only [hh, if_true]
    rw [wp_pure]
    exact ⟨h, rfl, by rw [← hh]⟩
  · have hf : it.held = false := by simpa using hh
    simp only [hf, Bool.false_eq_true, if_false, List.nil_append] at hguards ⊢
    have hc : st.conflicts .read it.pageId = false := by
      rw [PageStore.conflicts_read, hguards, hpage]
      exact h.free l (by simp)
    have hal : st.pages it.pageId ≠ none := by
      rw [hpage, hpages]
      obtain ⟨pg, hpg, -⟩ := h.chain.held l (by simp)
      simp [hpg]
    rw [wp_bind, wp_attempt, wp_onPool]
    refine wp_mono (wp_and (wp_fetchPage_under hc hal) (wp_fetchPage_guards hc)) (fun _ st' ⟨hr, _⟩ => ?_)
      fun e st' hr => ?_
    · simp only
      rw [wp_setSelf]
      exact ⟨⟨hr.pages.trans hpages, by simp [hr.guards, hguards], h.page, by simp, h.chain, h.free⟩, hr.failures, rfl⟩
    · obtain ⟨hr, hgs⟩ := hr
      simp only
      rw [wp_bind, wp_setSelf, wp_fail]
      exact ⟨⟨hr.pages.trans hpages, by simp [hgs, hguards], rfl, fun _ => rfl, ⟨by simp, trivial, by simp⟩, by simp⟩,
        hr.failures, rfl, hguards ▸ hr.cause⟩

/-- An iterator that has let go of its leaf. -/
theorem Position.exhausted (h : Position gs pages s leaves) :
    Position gs pages ({ s.1 with guards := gs }, { s.2 with held := false, pageId := invalidPage }) [] :=
  ⟨h.pages_eq, rfl, rfl, fun _ => rfl, ⟨by simp, trivial, by simp⟩, by simp⟩

/-- `Next` takes the first entry of what is left, if it is in the interval. -/
theorem wp_next : ∀ {fuel : Nat} {leaves : List (Leaf PageId LeafEntry)} {s : PageStore × IndexIterator},
    leaves.length < fuel → Position gs pages s leaves →
    wp (next env fuel) (fun more s' => ∃ leaves', Position gs pages s' leaves' ∧ leaves'.length ≤ leaves.length ∧
        s'.1.failures = s.1.failures ∧ s'.2.hi = s.2.hi ∧
        (if more then some s'.2.current else none, left s'.2 leaves') = takeUpTo s.2.hi (left s.2 leaves))
      (fun e s' => Position gs pages s' [] ∧ s.1.failures < s'.1.failures ∧ s'.2.hi = s.2.hi ∧
        env.RefusesUnder (gs.length + 1) e) s
  | 0, _, _, hfuel, _ => absurd hfuel (Nat.not_lt_zero _)
  | fuel + 1, [], s, _, h => by
    rw [next, wp_bind, wp_self, if_pos (show s.2.pageId = invalidPage from h.page), wp_pure]
    exact ⟨[], h, le_refl _, rfl, rfl, rfl⟩
  | fuel + 1, l :: rest, s, hfuel, h => by
    have hpage : s.2.pageId = l.page := h.page
    rw [next, wp_bind, wp_self, if_neg (by rw [hpage]; exact h.chain.ids l (by simp))]
    refine wp_call (wp_arrive h) (fun _ s₁ h₁ => ?_) fun _ _ he => he
    obtain ⟨h₁, hf₁, hit⟩ := h₁
    have hleaf : LeafAt s₁.1.pages s.2.pageId l.next l.entries := by
      rw [hpage, h₁.pages_eq]
      exact h.chain.held l (by simp)
    rw [wp_bind, wp_attempt, wp_onPool]
    refine wp_asLeaf hleaf fun b hb => ?_
    have hcount : LeafNode.count b = l.entries.length := hb.count_eq
    simp only
    by_cases hend : l.entries.length ≤ s.2.index
    · -- past the last entry of this leaf: what is left is in the leaves after it
      rw [if_pos (by rw [hcount]; exact hend), wp_bind]
      refine wp_release h₁.guards ?_
      rw [wp_bind, wp_self, wp_bind, wp_setSelf]
      have hnext : LeafNode.nextLeaf b = l.next := by
        rw [LeafNode.nextLeaf, show LeafNode.header b = _ from hb.header_eq]
      have hpos : Position gs pages ({ s₁.1 with guards := gs },
          { s₁.2 with held := false, pageId := LeafNode.nextLeaf b, index := 0 }) rest :=
        ⟨h₁.pages_eq, rfl, by rw [hnext]; exact h.chain.linked.1, fun _ => rfl,
          ⟨fun l' hl' => h.chain.held l' (by simp [hl']), h.chain.linked.2, fun l' hl' => h.chain.ids l' (by simp [hl'])⟩,
          fun l' hl' => h.free l' (by simp [hl'])⟩
      have hhi : s₁.2.hi = s.2.hi := by rw [hit]
      have hrest : left s.2 (l :: rest) =
          left { s₁.2 with held := false, pageId := LeafNode.nextLeaf b, index := 0 } rest := by
        rw [left, List.drop_of_length_le hend]
        cases rest <;> simp [left]
      refine wp_mono (wp_next (by simpa using hfuel) hpos) (fun more s₂ h₂ => ?_) fun _ s₂ h₂ => ?_
      · obtain ⟨leaves', hp', hlen, hf₂, hhi₂, heq⟩ := h₂
        exact ⟨leaves', hp', Nat.le_succ_of_le hlen, hf₂.trans hf₁, hhi₂.trans hhi, by rw [hrest, ← hhi]; exact heq⟩
      · exact ⟨h₂.1, hf₁ ▸ h₂.2.1, h₂.2.2.1.trans hhi, h₂.2.2.2⟩
    · have hlt : s.2.index < l.entries.length := Nat.lt_of_not_le hend
      have hleft : left s.2 (l :: rest) =
          l.entries[s.2.index] :: (l.entries.drop (s.2.index + 1) ++ rest.flatMap Leaf.entries) := by
        rw [left, List.drop_eq_getElem_cons hlt, List.cons_append]
      rw [if_neg (by rw [hcount]; exact hend), wp_bind, wp_lift]
      refine ⟨_, hb.entryAt hlt, ?_⟩
      rw [hleft, takeUpTo]
      by_cases hhi : s.2.hi < l.entries[s.2.index].key
      · rw [if_pos hhi, if_pos hhi, wp_bind]
        refine wp_release h₁.guards ?_
        rw [wp_bind, wp_self, wp_bind, wp_setSelf, wp_pure]
        exact ⟨[], h₁.exhausted, Nat.zero_le _, hf₁, by rw [hit], rfl⟩
      · rw [if_neg hhi, if_neg hhi, wp_bind, wp_self, wp_bind, wp_setSelf, wp_pure]
        have hcap := hb.cap
        have hu : u16 (s.2.index + 1) = s.2.index + 1 := u16_of_lt (by simp only [nodeCapacity] at hcap; omega)
        refine ⟨l :: rest, ⟨h₁.pages_eq, h₁.guards, h₁.page, by simp, h₁.chain, h₁.free⟩, le_refl _, hf₁, by rw [hit], ?_⟩
        simp [left, hu]

/-- Calls of `Next` in a row. -/
theorem simulates_takeUpTo (env : PoolEnv) (hi : Key) (fuel : Nat) :
    Refine.Simulation (nextEntry env fuel) (fun rem op a rem' => (a, rem') = takeNext hi rem op) (fun _ _ => True)
      (fun s rem => s.2.hi = hi ∧ ∃ leaves, Position gs pages s leaves ∧ leaves.length < fuel ∧ left s.2 leaves = rem)
      fun s => s.1.failures :=
  .of_wp fun {s rem _} _ hR => by
    obtain ⟨rfl, leaves, hpos, hfuel, rfl⟩ := hR
    rw [wp_attempt]
    unfold nextEntry
    refine wp_call (wp_next hfuel hpos) (fun more s' h => ?_) fun e s' h => ?_
    · obtain ⟨leaves', hpos', hlen, hf, hhi, heq⟩ := h
      rw [wp_bind, wp_self, wp_pure]
      exact ⟨_, ⟨hhi, leaves', hpos', Nat.lt_of_le_of_lt hlen hfuel, rfl⟩, le_of_eq hf.symm, fun _ => by rw [takeNext, ← heq]⟩
    · obtain ⟨hpos', hf, hhi, -⟩ := h
      exact ⟨[], ⟨hhi, [], hpos', Nat.lt_of_le_of_lt (Nat.zero_le _) hfuel, rfl⟩, le_of_lt hf, fun he =>
        absurd he (Nat.ne_of_gt hf)⟩

end Next

/-- The answers to `k` calls of `Next` that report `es`: each entry once, then false for good. -/
def answers (es : List LeafEntry) (k : Nat) : List (Except Status (Option LeafEntry)) :=
  (es.map fun e => .ok (some e)).take k ++ List.replicate (k - es.length) (.ok none)

theorem compute_takeUpTo (hi : Key) : ∀ (k : Nat) (rem : List LeafEntry),
    (Refine.compute (takeNext hi) rem (List.replicate k ())).1 = answers (rem.takeWhile fun e => e.key ≤ hi) k
  | 0, rem => by simp [answers, Refine.compute]
  | k + 1, [] => by
    rw [List.replicate_succ, Refine.compute, takeNext, takeUpTo, compute_takeUpTo hi k []]
    simp [answers, List.replicate_succ]
  | k + 1, e :: rem => by
    rw [List.replicate_succ, Refine.compute, takeNext, takeUpTo]
    by_cases he : hi < e.key
    · rw [if_pos he, compute_takeUpTo hi k [], List.takeWhile_cons_of_neg (by simpa using he)]
      simp [answers, List.replicate_succ]
    · rw [if_neg he, compute_takeUpTo hi k rem, List.takeWhile_cons_of_pos (by simpa using he)]
      simp [answers]

/-! Where a scan starts. -/

theorem Reads.leaves {pages : PageId → Option Page} {n : Nat} {T : KTree n} (h : Reads pages T) :
    ∀ l ∈ T.leaves, LeafAt pages l.page l.next l.entries ∧ l.page ∈ T.pages := by
  induction T using BTree.Tree.ind with
  | leaf p next es =>
    intro l hl
    have : l = ⟨p, next, es⟩ := List.mem_singleton.mp hl
    subst this
    exact ⟨h, by simp⟩
  | branch p kids ih =>
    intro l hl
    obtain ⟨kc, hkc, hl⟩ := List.mem_flatMap.mp hl
    obtain ⟨h1, h2⟩ := ih kc hkc (h.2 kc hkc) l hl
    exact ⟨h1, List.mem_cons_of_mem _ (List.mem_flatMap.mpr ⟨kc, hkc, h2⟩)⟩

namespace BPlusTree

section Start
variable {key lo : Key} {hi : WithTop Key} {n : Nat} {T : KTree n}

/-- The leaf of a descent among the leaves: the entries before it are below the key, those after it above. -/
theorem leaves_pathLeaf (ht : T.Ordered leafKey lo hi) (hlo : lo ≤ key) (hhi : (key : WithTop Key) < hi) :
    ∃ before after, T.leaves = before ++ pathLeaf key T :: after ∧
      (∀ l ∈ before, ∀ e ∈ l.entries, e.key < key) ∧ ∀ l ∈ after, ∀ e ∈ l.entries, key < e.key := by
  induction T using BTree.Tree.ind generalizing lo hi with
  | leaf p next es => exact ⟨[], [], rfl, by simp, by simp⟩
  | branch p kids ih =>
    obtain ⟨before, k, c, after, a, b, r⟩ := BTree.Tree.Ordered.routed ht hlo hhi
    obtain ⟨lb, la, heq, hb, ha⟩ := ih _ r.mem r.child r.low r.high
    refine ⟨before.flatMap (fun kc => kc.2.leaves) ++ lb, la ++ after.flatMap fun kc => kc.2.leaves, ?_, ?_, ?_⟩
    · rw [pathLeaf_branch r.split r.index, BTree.Tree.leaves_branch, r.split]
      simp only [List.flatMap_append, List.flatMap_cons]
      rw [show c.leaves = _ from heq]
      simp
    · intro l hl e he
      rcases List.mem_append.mp hl with hl | hl
      · obtain ⟨kc, hkc, hl⟩ := List.mem_flatMap.mp hl
        obtain ⟨a', b', ho, hle⟩ := r.left kc hkc
        have := (BTree.Tree.Ordered.entries ho).2 e (BTree.Tree.mem_toList hl he)
        exact lt_of_lt_of_le (WithTop.coe_lt_coe.mp this.2) hle
      · exact hb l hl e he
    · intro l hl e he
      rcases List.mem_append.mp hl with hl | hl
      · exact ha l hl e he
      · obtain ⟨kc, hkc, hl⟩ := List.mem_flatMap.mp hl
        obtain ⟨a', b', ho, hlt⟩ := r.right kc hkc
        exact lt_of_lt_of_le hlt ((BTree.Tree.Ordered.entries ho).2 e (BTree.Tree.mem_toList hl he)).1

end Start

/-- What a scan relies on: a tree to read whose leaves are linked in order. -/
structure ScannableAt (t : BPlusTree) (pages : PageId → Option Page) (T : Σ n, KTree n) : Prop
    extends ReadableAt t pages T where
  linked : Linked invalidPage T.2.links
  ids : ∀ p ∈ T.2.pages, p ≠ invalidPage

section Whole
variable {env : PoolEnv} {t : BPlusTree} {s : PageStore} {T : Σ n, KTree n} {lo hi : Key}

theorem TreeAt.scannable (h : TreeAt t s.pages T) : ScannableAt t s.pages T where
  toReadableAt := h.readable
  linked := h.valid.linked
  ids p hp he := by
    have := h.ids p (List.mem_cons_of_mem _ hp)
    rw [he] at this
    exact absurd this (by decide)

/-- A scan starts with everything from `lo` on left to report. -/
theorem wp_scan_leaves (h : ScannableAt t s.pages T) (hfree : Unlatched t s T) :
    wp (scan env t lo hi) (fun it s' => s'.failures = s.failures ∧ it.hi = hi ∧ ∃ leaves, leaves <:+ T.2.leaves ∧
        Position s.guards s.pages (s', it) leaves ∧ left it leaves = T.2.toList.filter fun e => lo ≤ e.key)
      (fun e s' => RefusedUnder env (s.guards.length + 1) e s s' ∧ s'.guards = s.guards) s := by
  obtain ⟨hleaf, hinc, -⟩ := h.search lo
  obtain ⟨before, after, heq, hbefore, hafter⟩ := leaves_pathLeaf h.ordered (int64Min_le lo) (key_lt_top lo)
  unfold scan
  rw [wp_inScope]
  refine wp_call (wp_findLeafRead h.toReadableAt hfree) (fun p s₁ hr => ?_)
    fun _ _ hr => ⟨⟨⟨hr.pages, hr.failures, hr.leaks⟩, hr.cause⟩, rfl⟩
  obtain ⟨rfl, hr⟩ := hr
  rw [wp_bind]
  refine wp_asLeaf (hleaf.congr (by rw [hr.pages])) fun b hb => ?_
  rw [wp_bind, wp_lift]
  refine ⟨_, LeafNode.lowerBound_eq hb hinc lo, ?_⟩
  rw [wp_pure]
  have hsub : ∀ l ∈ pathLeaf lo T.2 :: after, l ∈ T.2.leaves := fun l hl => by
    rw [heq]; exact List.mem_append_right _ hl
  have hlinked : Linked invalidPage ((pathLeaf lo T.2 :: after).map fun l => (l.page, l.next)) := by
    have := h.linked
    rw [BTree.Tree.links_eq_leaves, heq, List.map_append, linked_append] at this
    exact this.2
  refine ⟨hr.failures, rfl, pathLeaf lo T.2 :: after, ⟨before, heq.symm⟩,
    ⟨hr.pages, rfl, rfl, by simp, ⟨?_, hlinked, ?_⟩, ?_⟩, ?_⟩
  · exact fun l hl => (h.reads.leaves l (hsub l hl)).1
  · exact fun l hl => h.ids l.page (h.reads.leaves l (hsub l hl)).2
  · exact fun l hl => PageStore.conflicts_read.mp (hfree l.page (List.mem_cons_of_mem _ (h.reads.leaves l (hsub l hl)).2))
  · rw [left, BTree.Tree.toList_eq_leaves, heq]
    simp only [List.flatMap_append, List.flatMap_cons, List.filter_append]
    have h1 : (before.flatMap Leaf.entries).filter (fun e => lo ≤ e.key) = [] := by
      rw [List.filter_eq_nil_iff]
      intro e he
      obtain ⟨l, hl, he⟩ := List.mem_flatMap.mp he
      simpa using hbefore l hl e he
    have h3 : (after.flatMap Leaf.entries).filter (fun e => lo ≤ e.key) = after.flatMap Leaf.entries := by
      rw [List.filter_eq_self]
      intro e he
      obtain ⟨l, hl, he⟩ := List.mem_flatMap.mp he
      simpa using le_of_lt (hafter l hl e he)
    have hlead := leading_below hinc lo
    have h2 : (pathLeaf lo T.2).entries.filter (fun e => lo ≤ e.key) =
        (pathLeaf lo T.2).entries.drop (below (pathLeaf lo T.2).entries lo) := by
      conv_lhs => rw [← List.take_append_drop (below (pathLeaf lo T.2).entries lo) (pathLeaf lo T.2).entries]
      rw [List.filter_append, List.filter_eq_nil_iff.mpr, List.nil_append, List.filter_eq_self]
      · intro e he
        simpa using hlead.drop e he
      · intro e he
        simpa using hlead.take e he
    rw [h1, h2, h3, List.nil_append]

theorem wp_scan (h : ScannableAt t s.pages T) (hfree : Unlatched t s T) :
    wp (scan env t lo hi) (fun it s' => s'.failures = s.failures ∧ it.hi = hi ∧ ∃ leaves,
        Position s.guards s.pages (s', it) leaves ∧ left it leaves = T.2.toList.filter fun e => lo ≤ e.key)
      (fun e s' => RefusedUnder env (s.guards.length + 1) e s s' ∧ s'.guards = s.guards) s := by
  refine wp_mono (wp_scan_leaves h hfree) (fun it s' hs => ?_) fun _ _ he => he
  obtain ⟨hf, hhi, leaves, -, hpos, hleft⟩ := hs
  exact ⟨hf, hhi, leaves, hpos, hleft⟩

/-- A scan on the tree a run from `Create` has left. -/
def scanAfter (env : PoolEnv) (leafMax internalMax : Nat) (ops : List Op) (lo hi : Key) : PoolM IndexIterator := do
  let t ← create env leafMax internalMax
  let _ ← Refine.run (perform env t) ops
  scan env t lo hi

/-- Up to `hi` means as long as the keys are. -/
theorem takeWhile_eq_filter {es : List LeafEntry} (h : KeysIncrease es) (hi : Key) :
    (es.takeWhile fun e => e.key ≤ hi) = es.filter fun e => e.key ≤ hi := by
  induction es with
  | nil => rfl
  | cons e es ih =>
    obtain ⟨h1, h2⟩ := List.pairwise_cons.mp h
    by_cases he : e.key ≤ hi
    · rw [List.takeWhile_cons_of_pos (by simpa using he), List.filter_cons_of_pos (by simpa using he), ih h2]
    · rw [List.takeWhile_cons_of_neg (by simpa using he), List.filter_cons_of_neg (by simpa using he)]
      symm
      rw [List.filter_eq_nil_iff]
      intro f hf
      simpa using lt_of_not_ge he |>.trans (h1 f hf)

theorem wp_scanAfter (hlaw : env.Lawful) (hlive : ∀ g ∈ s.guards, s.pages g.page ≠ none) {leafMax internalMax : Nat}
    (hleaf : minFanout ≤ leafMax ∧ leafMax ≤ nodeCapacity)
    (hinternal : minFanout ≤ internalMax ∧ internalMax ≤ nodeCapacity) (ops : List Op) (lo hi : Key) :
    wp (scanAfter env leafMax internalMax ops lo hi)
      (fun it s' => s.failures ≤ s'.failures ∧ it.hi = hi ∧ ∃ gs pages leaves es,
        Position gs pages (s', it) leaves ∧ left it leaves = es ∧ KeysIncrease es ∧
        (s'.failures = s.failures → ∀ key rid, ⟨key, rid⟩ ∈ es ↔
          lo ≤ key ∧ (Refine.compute mapPerform (fun _ => none) ops).2 key = some rid))
      (fun _ s' => s.failures < s'.failures) s := by
  unfold scanAfter
  refine wp_call (wp_create hlaw hlive) (fun t s₁ hc => ?_) fun _ s₁ he => ?_
  · obtain ⟨root, hc⟩ := hc
    obtain ⟨as, s₂, m, hops, ⟨T, htree, hapart, rfl⟩, hle, hallowed⟩ :=
      (simulates_map hlaw).run (.of_forall fun _ _ _ => trivial) (hc.maps hlive)
    have hle₂ : s.failures ≤ s₂.failures := hc.failures ▸ hle
    rw [wp_bind]
    refine wp_of_ok hops ?_
    refine wp_mono (wp_scan htree.scannable hapart.unlatched) (fun it s₃ h₃ => ?_)
      fun _ s₃ h₃ => Nat.lt_of_le_of_lt hle₂ h₃.1.failures
    obtain ⟨hf₃, hhi, leaves, hpos, hleft⟩ := h₃
    have hinc : KeysIncrease T.2.toList := (BTree.Tree.Ordered.entries htree.valid.ordered).1
    refine ⟨hf₃ ▸ hle₂, hhi, _, _, leaves, _, hpos, hleft, hinc.sublist List.filter_sublist, fun hf key rid => ?_⟩
    have hclean : s₂.failures = s₁.failures := by rw [← hf₃, hf, hc.failures]
    rw [← congrArg Prod.snd (hallowed hclean).compute_eq]
    have hnd := htree.keys_nodup
    simp only [List.mem_filter, decide_eq_true_eq]
    constructor
    · rintro ⟨hmem, hlo⟩
      exact ⟨hlo, contents_of_mem hnd hmem⟩
    · rintro ⟨hlo, hbound⟩
      refine ⟨?_, hlo⟩
      by_contra hno
      have : ∃ e ∈ T.2.toList, e.key = key := by
        by_contra hnone
        simp only [not_exists, not_and] at hnone
        rw [contents_eq_none.mpr hnone] at hbound
        cases hbound
      obtain ⟨e, he, rfl⟩ := this
      rw [contents_of_mem hnd he, Option.some.injEq] at hbound
      exact hno (hbound ▸ he)
  · rcases he with ⟨-, -, hout⟩ | ⟨hr, -⟩
    · omega
    · exact hr.failures

/-- Calls of `Next` on an iterator with `es` left report those up to the end of its interval. -/
theorem iterator_reports {gs : List Guard} {pages : PageId → Option Page} {it : IndexIterator} {es : List LeafEntry}
    {leaves : List (Leaf PageId LeafEntry)} {fuel : Nat} (hpos : Position gs pages (s, it) leaves) (hhi : it.hi = hi)
    (hleft : left it leaves = es) (hinc : KeysIncrease es) (hfuel : leaves.length < fuel) (k : Nat) :
    ∃ result s', withIterator it (Refine.run (IndexIterator.nextEntry env fuel) (List.replicate k ())) s =
        some (result, s') ∧ s.failures ≤ s'.failures ∧
      (s'.failures = s.failures → result = .ok (answers (es.filter fun e => e.key ≤ hi) k)) := by
  obtain ⟨as, s₂, rem, hnexts, -, hle, hallowed⟩ := (simulates_takeUpTo env hi fuel).run
    (.of_forall (fun _ _ _ => trivial : ∀ u ∈ List.replicate k (), ∀ _, True)) ⟨hhi, leaves, hpos, hfuel, hleft⟩
  have hdrop : ∀ g : Guard, (if s₂.2.held then { s₂.1 with guards := s₂.1.guards.erase g } else s₂.1).failures =
      s₂.1.failures := fun g => by split <;> rfl
  refine ⟨.ok as, _, by unfold withIterator; rw [hnexts], ?_, fun hf => ?_⟩
  · rw [hdrop]
    exact hle
  · rw [hdrop] at hf
    have has : as = _ := congrArg Prod.fst (hallowed hf).compute_eq
    rw [has, compute_takeUpTo, takeWhile_eq_filter hinc]

/-- On every tree a run from `Create` leaves, `Scan(lo, hi)` and any number of `Next`s report the bindings with
keys in `[lo, hi]` in increasing order, each once, and then false for good. -/
theorem scan_reports_the_interval (hlaw : env.Lawful) (hlive : ∀ g ∈ s.guards, s.pages g.page ≠ none)
    {leafMax internalMax : Nat} (hleaf : minFanout ≤ leafMax ∧ leafMax ≤ nodeCapacity)
    (hinternal : minFanout ≤ internalMax ∧ internalMax ≤ nodeCapacity) (ops : List Op) (lo hi : Key) :
    ∃ enough, ∀ fuel, enough ≤ fuel → ∀ k, ∃ result s', (do
        let it ← scanAfter env leafMax internalMax ops lo hi
        withIterator it (Refine.run (IndexIterator.nextEntry env fuel) (List.replicate k ()))) s = some (result, s') ∧
      (s'.failures = s.failures → ∃ es, KeysIncrease es ∧
        (∀ key rid, ⟨key, rid⟩ ∈ es ↔ (lo ≤ key ∧ key ≤ hi) ∧
          (Refine.compute mapPerform (fun _ => none) ops).2 key = some rid) ∧
        result = .ok (answers es k)) := by
  rcases wp_run (wp_scanAfter hlaw hlive hleaf hinternal ops lo hi) with ⟨it, s₁, hrun, hit⟩ | ⟨e, s₁, hrun, hlt⟩
  · obtain ⟨hle, hhi, gs, pages, leaves, es, hpos, hleft, hinc, hmap⟩ := hit
    refine ⟨leaves.length + 1, fun fuel hfuel k => ?_⟩
    obtain ⟨result, s₂, hnexts, hle₂, hresult⟩ := iterator_reports hpos hhi hleft hinc hfuel k
    refine ⟨result, s₂, by rw [bind_of_ok hrun]; exact hnexts, fun hf => ?_⟩
    have hclean : s₂.failures = s₁.failures := by omega
    have hmap := hmap (hclean ▸ hf)
    refine ⟨es.filter fun e => e.key ≤ hi, hinc.sublist List.filter_sublist, fun key rid => ?_, hresult hclean⟩
    rw [List.mem_filter, hmap, decide_eq_true_eq]
    tauto
  · exact ⟨0, fun fuel _ k => ⟨.error e, s₁, bind_of_error hrun, fun hf => absurd hf (Nat.ne_of_gt hlt)⟩⟩

theorem scan_reports_the_interval_demo : ∃ enough, ∀ fuel, enough ≤ fuel → ∀ k, ∃ result s', (do
        let it ← scanAfter PoolEnv.countUp 3 4 [.insert 5 ⟨9, 1⟩, .insert 7 ⟨9, 2⟩, .delete 5] (-3) 7
        withIterator it (Refine.run (IndexIterator.nextEntry PoolEnv.countUp fuel) (List.replicate k ())))
          PageStore.empty = some (result, s') ∧
      (s'.failures = 0 → ∃ es, KeysIncrease es ∧
        (∀ key rid, ⟨key, rid⟩ ∈ es ↔ ((-3) ≤ key ∧ key ≤ 7) ∧
          (Refine.compute mapPerform (fun _ => none) [.insert 5 ⟨9, 1⟩, .insert 7 ⟨9, 2⟩, .delete 5]).2 key = some rid) ∧
        result = .ok (answers es k)) :=
  scan_reports_the_interval PoolEnv.countUp_lawful (by simp [PageStore.empty]) (by decide) (by decide) _ _ _

end Whole
end BPlusTree
end KernSql
