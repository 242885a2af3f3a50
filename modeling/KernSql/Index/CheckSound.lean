import KernSql.Index.CheckNodes
import KernSql.Index.Scan

/- What an answer true of the whole-tree check means.

   Nothing is assumed about the pages: their bytes may be anything, children may be
   shared or form cycles, and the header may name any root. A walk that passes has
   read a tree (`Grown`): each page it visited reads as a node, its keys lie in the
   interval it was held to, and its leaves are the ones the walk met. The interval
   of a child is not empty because the child is not, so a descent takes the child
   whose interval has the key, at every level. The comparison of the links is what
   makes the leaves a chain. -/
namespace KernSql
open Exec BTree

/-- The entries of the leaf on page `p`, as its bytes have them. -/
def entriesAt (pages : PageId → Option Page) (p : PageId) : List LeafEntry :=
  match pages p with
  | none => []
  | some pg => Node.entries LeafEntry pg.body

theorem NodeIs.entries_eq {E : Type} [NodeEntry E] {b : Body} {level : Nat} {next : PageId} {es : List E}
    (h : NodeIs b level next es) : Node.entries E b = es := by
  refine List.ext_getElem (by simp [Node.entries, h.count_eq]) fun i hi hi' => ?_
  rw [← h.entry i hi']
  simp [Node.entries]

theorem LeafAt.entriesAt {pages : PageId → Option Page} {p next : PageId} {es : List LeafEntry}
    (h : LeafAt pages p next es) : entriesAt pages p = es := by
  obtain ⟨pg, hpg, -, hnode⟩ := h
  rw [KernSql.entriesAt, hpg]
  exact hnode.entries_eq

theorem inside_of_not_outside {lo key : Key} {hi : Option Key} (h : outside lo hi key = false) :
    lo ≤ key ∧ (key : WithTop Key) < (hi : WithTop Key) := by
  unfold outside at h
  rw [Bool.or_eq_false_iff] at h
  refine ⟨not_lt.mp (of_decide_eq_false h.1), ?_⟩
  cases hi with
  | none => exact WithTop.coe_lt_top key
  | some a => exact WithTop.coe_lt_coe.mpr (not_le.mp (of_decide_eq_false h.2))

theorem linked_of_checkChain : ∀ {links : List (PageId × PageId)}, checkChain links = true → Linked invalidPage links
  | [], _ => trivial
  | l :: rest, h => by
    have hstep : checkChain (l :: rest) = (decide (l.2 = start invalidPage rest) && checkChain rest) := by
      cases rest <;> rfl
    rw [hstep, Bool.and_eq_true] at h
    exact ⟨of_decide_eq_true h.1, linked_of_checkChain h.2⟩

namespace BPlusTree
variable {env : PoolEnv} {t : BPlusTree} {n : Nat}

/-- `CheckInvariants` up to the comparison of the links: the leaves the walk met, in its order. -/
def walk (env : PoolEnv) (t : BPlusTree) : PoolM (Option (List (PageId × PageId))) := do
  match ← attempt (inScope do
    fetchPageRead env t.headerPageId
    readIndexHeader t.headerPageId) with
  | .error _ => pure none
  | .ok h =>
    if h.height < 1 ∨ h.leafMax ≠ t.leafMax ∨ h.internalMax ≠ t.internalMax then pure none
    else do
      let w ← checkSubtree env t (h.height - 1) true h.rootPageId int64Min none ⟨[t.headerPageId], []⟩
      pure (w.map (·.leaves))

/-- A look at a page that succeeded: nothing kept the reader from it. -/
theorem examined {α : Type} {m : PoolM α} {a : α} {p : PageId} {s s' : PageStore}
    (h : attempt (inScope do
      fetchPageRead env p
      m) s = some (.ok (.ok a), s')) :
    s.conflicts .read p = false ∧ ∃ pg s₁ s₂, s.pages p = some pg ∧ s₁.pages = s.pages ∧ m s₁ = some (.ok a, s₂) ∧
      s' = { s₂ with guards := s.guards } := by
  rw [attempt_eq_ok] at h
  unfold inScope finally_ at h
  cases hm : (do
      fetchPageRead env p
      m : PoolM α) s with
  | none => rw [hm] at h; cases h
  | some x =>
    obtain ⟨r, s₂⟩ := x
    rw [hm] at h
    cases h
    obtain ⟨_, s₁, hfetch, hrun⟩ := bind_eq_ok.mp hm
    unfold fetchPageRead fetchPage at hfetch
    cases hc : s.conflicts .read p with
    | true => rw [hc, if_pos rfl] at hfetch; cases hfetch
    | false =>
      rw [hc, if_neg (by simp)] at hfetch
      split at hfetch
      · cases hfetch
      · split at hfetch
        · cases hfetch
        · next pg hpg =>
          cases hfetch
          exact ⟨rfl, pg, { s with calls := s.calls + 1, guards := ⟨p, .read⟩ :: s.guards }, s₂, hpg, rfl, hrun, rfl⟩

/-- A tree grown from page `p` by a part of the walk that took `w` to `w'`. -/
structure Grown (s s' : PageStore) (p : PageId) (lo : Key) (hi : Option Key) (w w' : Walk) (T : KTree n) : Prop where
  page : T.page = p
  pages : s'.pages = s.pages
  guards : s'.guards = s.guards
  reads : Reads s.pages T
  ordered : T.Ordered leafKey lo hi
  unlatched : ∀ q ∈ T.pages, s.conflicts .read q = false ∧ s.pages q ≠ none
  leaves : w'.leaves = w.leaves ++ T.links

/-- A subtree with an entry needs an interval with room for it. -/
theorem Grown.interval {s s' : PageStore} {p : PageId} {lo k : Key} {w w' : Walk} {T : KTree n}
    (h : Grown s s' p lo (some k) w w' T) (hne : T.toList ≠ []) : lo < k := by
  obtain ⟨e, he⟩ := List.exists_mem_of_ne_nil _ hne
  obtain ⟨hlo, hhi⟩ := (BTree.Tree.Ordered.entries h.ordered).2 e he
  exact lt_of_le_of_lt hlo (WithTop.coe_lt_coe.mp hhi)

/-- The children grown by the loop over the entries. -/
structure GrownKids (s s' : PageStore) (lo : Key) (hi : Option Key) (es : List InternalEntry) (w w' : Walk)
    (kids : List (Key × KTree n)) : Prop where
  entries : kidPages kids = es.map fun e => (e.key, e.child)
  pages : s'.pages = s.pages
  guards : s'.guards = s.guards
  reads : ∀ kc ∈ kids, Reads s.pages kc.2
  ordered : KidsIn (fun a b c => BTree.Tree.Ordered leafKey a b c) lo hi kids
  unlatched : ∀ q ∈ kids.flatMap (fun kc => kc.2.pages), s.conflicts .read q = false ∧ s.pages q ≠ none
  full : ∀ kc ∈ kids, kc.2.toList ≠ []
  leaves : w'.leaves = w.leaves ++ kids.flatMap fun kc => kc.2.links

/-- The loop over the children, given what a visit that passes has read. -/
theorem checkChildren_grown {visit : PageId → Key → Option Key → Walk → PoolM (Option Walk)} {hi : Option Key}
    (hvisit : ∀ p lo hi w s w' s', visit p lo hi w s = some (.ok (some w'), s') →
      ∃ T : KTree n, Grown s s' p lo hi w w' T ∧ T.toList ≠ []) :
    ∀ {es : List InternalEntry} {e : InternalEntry} {lo : Key} {w w' : Walk} {s s' : PageStore},
    (∀ f ∈ es, (f.key : WithTop Key) < (hi : WithTop Key)) →
    checkChildren visit hi lo (e :: es) w s = some (.ok (some w'), s') →
    ∃ kids : List (Key × KTree n), GrownKids s s' lo hi (e :: es) w w' kids
  | [], e, lo, w, w', s, s', _, h => by
    obtain ⟨T, hT, hne⟩ := hvisit _ _ _ _ _ _ _ h
    refine ⟨[(e.key, T)], by simp [kidPages, hT.page], hT.pages, hT.guards, ?_, hT.ordered, ?_, ?_, ?_⟩
    · simpa using hT.reads
    · simpa using hT.unlatched
    · simpa using hne
    · simpa using hT.leaves
  | f :: es, e, lo, w, w', s, s', hbelow, h => by
    rw [checkChildren, bind_eq_ok] at h
    obtain ⟨r, s₁, hfirst, hrest⟩ := h
    cases r with
    | none => cases hrest
    | some w₁ =>
      obtain ⟨T, hT, hne⟩ := hvisit _ _ _ _ _ _ _ hfirst
      obtain ⟨kids, hk⟩ := checkChildren_grown hvisit (fun g hg => hbelow g (List.mem_cons_of_mem _ hg)) hrest
      have hsame : ∀ q, s₁.conflicts .read q = s.conflicts .read q := PageStore.conflicts_congr hT.guards .read
      -- The children after the first start with the one of `f`.
      cases kids with
      | nil => cases hk.entries
      | cons kd rest =>
        obtain ⟨k, d⟩ := kd
        have hkey : k = f.key := congrArg (fun l => (l.head?.map Prod.fst).getD k) hk.entries
        refine ⟨(e.key, T) :: (k, d) :: rest, ?_, hk.pages.trans hT.pages, hk.guards.trans hT.guards, ?_, ?_, ?_, ?_, ?_⟩
        · rw [kidPages, List.map_cons, ← kidPages, hk.entries]
          simp [hT.page]
        · exact List.forall_mem_cons.mpr ⟨hT.reads, fun kc hkc => hT.pages ▸ hk.reads kc hkc⟩
        · subst hkey
          exact ⟨hT.interval hne, hbelow f List.mem_cons_self, hT.ordered, hk.ordered⟩
        · intro q hq
          cases List.mem_append.mp (List.flatMap_cons ▸ hq) with
          | inl hq => exact hT.unlatched q hq
          | inr hq =>
            have := hk.unlatched q hq
            rwa [hsame, hT.pages] at this
        · exact List.forall_mem_cons.mpr ⟨hne, hk.full⟩
        · rw [hk.leaves, hT.leaves, List.append_assoc]
          rfl

/-- A walk over a subtree that passes has read a tree; below the root it is not empty. -/
theorem checkSubtree_grown (hrange : t.InRange) : ∀ (level : Nat) {isRoot : Bool} {p : PageId} {lo : Key}
    {hi : Option Key} {w w' : Walk} {s s' : PageStore},
    checkSubtree env t level isRoot p lo hi w s = some (.ok (some w'), s') →
    ∃ T : KTree level, Grown s s' p lo hi w w' T ∧ (isRoot = false → T.toList ≠ [])
  | 0, isRoot, p, lo, hi, w, w', s, s', h => by
    rw [checkSubtree] at h
    split at h
    · cases h
    obtain ⟨r, s₁, hlook, hend⟩ := bind_eq_ok.mp h
    obtain _ | _ | next := r
    · cases hend
    · cases hend
    cases hend
    obtain ⟨hfree, pg, s₂, s₃, hpg, hpages, hrun, rfl⟩ := examined hlook
    obtain ⟨rfl, hpass⟩ := wp_ok (wp_checkLeaf_any (hpages ▸ hpg)) hrun
    obtain ⟨es, hleaf⟩ := hpass next rfl
    have hnext : LeafAt s.pages p next es := hpages ▸ hleaf.leaf
    refine ⟨.leaf p next es, ⟨rfl, hpages, rfl, hnext, ⟨hleaf.increase, fun e he => ?_⟩, ?_, rfl⟩, fun hroot => ?_⟩
    · exact inside_of_not_outside (hleaf.inside e he)
    · simpa using ⟨hfree, hnext.some⟩
    · have hmin := hleaf.min
      have hlow := hrange.1.1
      have hhigh := hrange.1.2
      simp only [minFanout, nodeCapacity] at hlow hhigh
      rw [hroot, if_neg (by simp), leafMinEntries, u16_of_lt (by omega)] at hmin
      rw [← List.length_pos_iff]
      show 0 < es.length
      omega
  | level + 1, isRoot, p, lo, hi, w, w', s, s', h => by
    rw [checkSubtree] at h
    split at h
    · cases h
    obtain ⟨r, s₁, hlook, hend⟩ := bind_eq_ok.mp h
    obtain _ | _ | entries := r
    · cases hend
    · cases hend
    obtain ⟨hfree, pg, s₂, s₃, hpg, hpages, hrun, rfl⟩ := examined hlook
    obtain ⟨rfl, hpass⟩ := wp_ok (wp_checkInternal_any (hpages ▸ hpg)) hrun
    have hnode := hpass entries rfl
    obtain ⟨pg', hpg', htype, hsound, hlevel⟩ := hnode.page
    have hpos : 0 < entries.length := by
      have hmin := hnode.min
      have hlow := hrange.2.1
      have hhigh := hrange.2.2
      simp only [minFanout, nodeCapacity] at hlow hhigh
      rw [internalMinChildren, u16_of_lt (by omega)] at hmin
      split at hmin <;> omega
    dsimp only at hend
    split at hend
    · cases hend
    next hsep =>
    cases entries with
    | nil => exact absurd hpos (Nat.lt_irrefl 0)
    | cons e es =>
      have hbelow : ∀ f ∈ es, (f.key : WithTop Key) < (hi : WithTop Key) := by
        intro f hf
        have hout : outside lo hi f.key = false := by
          have := List.any_eq_false.mp (Bool.not_eq_true _ ▸ hsep) f hf
          simpa using this
        exact (inside_of_not_outside hout).2
      obtain ⟨kids, hk⟩ := checkChildren_grown (fun p lo hi w s w' s' hv => by
        obtain ⟨T, hT, hne⟩ := checkSubtree_grown hrange level hv
        exact ⟨T, hT, hne rfl⟩) hbelow hend
      have hentries : (e :: es).map InternalEntry.bare = kidEntries (kidPages kids) := by
        have hfirst : e.key = int64Min := hsound.first e rfl
        rw [hk.entries]
        simp [kidEntries, InternalNode.canonical, InternalEntry.bare, hfirst]
      have hfull : ∃ kc, kc ∈ kids := by
        have hlen := congrArg List.length hk.entries
        simp only [length_kidPages, List.length_map] at hlen
        exact List.exists_mem_of_length_pos (by omega)
      refine ⟨.branch p kids, ⟨rfl, hk.pages.trans hpages, hk.guards, ⟨?_, fun kc hkc => hpages ▸ hk.reads kc hkc⟩,
        hk.ordered, ?_, hk.leaves⟩, fun _ => ?_⟩
      · exact ⟨pg', e :: es, hpages ▸ hpg', htype, hlevel ▸ hsound.node, hentries⟩
      · intro q hq
        cases List.mem_cons.mp hq with
        | inl hqp =>
          have hq : q = p := hqp
          rw [hq, hpg]
          exact ⟨hfree, by simp⟩
        | inr hqk =>
          have := hk.unlatched q hqk
          rw [hpages] at this
          exact this
      · obtain ⟨kc, hkc⟩ := hfull
        obtain ⟨x, hx⟩ := List.exists_mem_of_ne_nil _ (hk.full kc hkc)
        exact List.ne_nil_of_mem (List.mem_flatMap.mpr ⟨kc, hkc, hx⟩)

/-! The whole check. -/

section Whole
variable {s s' : PageStore}

/-- A check that answers true has walked a tree whose leaves form the chain. -/
theorem checkInvariants_scannable (hrange : t.InRange) (hid : s.pages invalidPage = none)
    (h : checkInvariants env t s = some (.ok true, s')) :
    ∃ T : Σ n, KTree n, walk env t s = some (.ok (some T.2.links), s') ∧ ScannableAt t s.pages T ∧ Unlatched t s T ∧
      s'.pages = s.pages := by
  unfold checkInvariants at h
  obtain ⟨r, s₁, hlook, hend⟩ := bind_eq_ok.mp h
  match r, hlook, hend with
  | .error _, _, hend => cases hend
  | .ok hd, hlook, hend =>
    dsimp only at hend
    split at hend
    · cases hend
    next hgood =>
    obtain ⟨hheight, hleaf, hinternal⟩ : 1 ≤ hd.height ∧ hd.leafMax = t.leafMax ∧ hd.internalMax = t.internalMax := by
      simpa only [not_or, not_lt, not_not] using hgood
    obtain ⟨r, s₂, hsub, hend⟩ := bind_eq_ok.mp hend
    cases r with
    | none => cases hend
    | some w =>
      obtain ⟨hchain, rfl⟩ : checkChain w.leaves = true ∧ s₂ = s' := by simpa [pure, ret] using hend
      obtain ⟨T, hT, -⟩ := checkSubtree_grown hrange _ hsub
      obtain ⟨hfree, pg, s₃, s₄, hpg, hpages, hrun, rfl⟩ := examined hlook
      obtain ⟨rfl, hheader⟩ := wp_ok (wp_readIndexHeader_any (hpages ▸ hpg)) hrun
      have hleaves : w.leaves = T.links := hT.leaves
      refine ⟨⟨hd.height - 1, T⟩, ?_, ⟨⟨⟨hd.reserved, ?_⟩, hpages ▸ hT.reads, hT.ordered⟩, hleaves ▸ linked_of_checkChain hchain,
        fun q hq he => ?_⟩, fun q hq => ?_, hT.pages.trans hpages⟩
      · unfold walk
        rw [bind_of_ok hlook]
        dsimp only
        rw [if_neg hgood, bind_of_ok hsub, ← hleaves]
        rfl
      · -- the header as it was read, the root being the page the tree grew from
        obtain ⟨pg', hpg', htype, hread⟩ := hheader
        refine ⟨pg', hpages ▸ hpg', htype, hread.trans ?_⟩
        show hd = ⟨T.page, hd.height - 1 + 1, t.leafMax, t.internalMax, hd.reserved⟩
        rw [hT.page, Nat.sub_add_cancel hheight, ← hleaf, ← hinternal]
      · have := (hT.unlatched q hq).2
        rw [he] at this
        exact this (hpages ▸ hid)
      · cases List.mem_cons.mp hq with
        | inl hqh => exact hqh ▸ hfree
        | inr hqt => exact (hT.unlatched q hqt).1

/-- Where the check answers true, whatever the pages are: the keys of the leaves, in the order of the walk,
increase; `Get` finds an entry exactly if it is among them; and `Scan` reports exactly those in its interval. A
pool call that fails in between is the only excuse. -/
theorem check_is_sound (hrange : t.InRange) (hid : s.pages invalidPage = none)
    (hcheck : checkInvariants env t s = some (.ok true, s')) :
    ∃ leaves, walk env t s = some (.ok (some leaves), s') ∧ ∃ L, L = leaves.flatMap (fun l => entriesAt s.pages l.1) ∧
      KeysIncrease L ∧
      ∀ s₁ : PageStore, s₁.pages = s.pages → s₁.guards = s.guards →
        (∀ key, ∃ r s₂, get env t key s₁ = some (r, s₂) ∧
          (s₂.failures = s₁.failures → ∀ rid, r = .ok rid ↔ ⟨key, rid⟩ ∈ L)) ∧
        ∀ lo hi, ∃ enough, ∀ fuel, enough ≤ fuel → ∀ k, ∃ result s₂, (do
            let it ← scan env t lo hi
            withIterator it (Refine.run (IndexIterator.nextEntry env fuel) (List.replicate k ()))) s₁ =
              some (result, s₂) ∧
          (s₂.failures = s₁.failures → result = .ok (answers (L.filter fun e => lo ≤ e.key ∧ e.key ≤ hi) k)) := by
  obtain ⟨T, hwalk, hscan, hfree, -⟩ := checkInvariants_scannable hrange hid hcheck
  have hL : T.2.toList = T.2.links.flatMap fun l => entriesAt s.pages l.1 := by
    rw [BTree.Tree.toList_eq_leaves, BTree.Tree.links_eq_leaves, List.flatMap_map]
    exact List.flatMap_congr fun l hl => (hscan.reads.leaves l hl).1.entriesAt.symm
  have hinc : KeysIncrease T.2.toList := (BTree.Tree.Ordered.entries hscan.ordered).1
  refine ⟨_, hwalk, T.2.toList, hL, hinc, fun s₁ hpages hguards => ?_⟩
  have hscan₁ : ScannableAt t s₁.pages T := hpages.symm ▸ hscan
  have hfree₁ : Unlatched t s₁ T := fun p hp => by
    rw [PageStore.conflicts_congr hguards]
    exact hfree p hp
  refine ⟨fun key => ?_, fun lo hi => ?_⟩
  · have hget : wp (get env t key) _ _ s₁ := wp_get hscan₁.toReadableAt hfree₁
    obtain ⟨rid, s₂, hrun, hmem, -⟩ | ⟨e, s₂, hrun, he⟩ := wp_run hget
    · refine ⟨_, s₂, hrun, fun _ rid' => ?_⟩
      constructor
      · intro heq
        cases heq
        exact hmem
      · intro hmem'
        have hnodup : (T.2.toList.map LeafEntry.key).Nodup := (List.pairwise_map.mpr hinc).imp fun hlt => ne_of_lt hlt
        cases List.inj_on_of_nodup_map hnodup hmem hmem' rfl
        rfl
    · refine ⟨_, s₂, hrun, fun hclean rid => ?_⟩
      cases he with
      | inl hnone =>
        constructor
        · intro heq
          cases heq
        · exact fun hmem => absurd rfl (hnone.2.1 _ hmem)
      | inr hrefused => exact absurd hclean (Nat.ne_of_gt hrefused.1.failures)
  · have hstart : wp (scan env t lo hi) _ _ s₁ := wp_scan hscan₁ hfree₁
    obtain ⟨it, s₂, hrun, hclean, hhi, leaves, hpos, hleft⟩ | ⟨e, s₂, hrun, hlt, -⟩ := wp_run hstart
    · refine ⟨leaves.length + 1, fun fuel hfuel k => ?_⟩
      obtain ⟨result, s₃, hnexts, -, hresult⟩ :=
        iterator_reports hpos hhi hleft (hinc.sublist List.filter_sublist) hfuel k
      refine ⟨result, s₃, by rw [bind_of_ok hrun]; exact hnexts, fun hf => ?_⟩
      rw [hresult (hf.trans hclean.symm), List.filter_filter]
      simp only [Bool.decide_and, Bool.and_comm]
    · exact ⟨0, fun fuel _ k => ⟨.error e, s₂, bind_of_error hrun, fun hf => absurd hf (Nat.ne_of_gt hlt.failures)⟩⟩

/-- Does the check answer true after a run from `Create`? -/
def passesAfter (env : PoolEnv) (leafMax internalMax : Nat) (ops : List Op) : Bool :=
  match (do
      let t ← create env leafMax internalMax
      let _ ← Refine.run (perform env t) ops
      pure t : PoolM BPlusTree) PageStore.empty with
  | some (.ok t, s) => (s.pages invalidPage).isNone && (t.leafMax = leafMax ∧ t.internalMax = internalMax) &&
    match checkInvariants env t s with
    | some (.ok ok, _) => ok
    | _ => false
  | _ => false

theorem of_passesAfter {leafMax internalMax : Nat} {ops : List Op} (h : passesAfter env leafMax internalMax ops = true) :
    ∃ t s s', t.leafMax = leafMax ∧ t.internalMax = internalMax ∧ s.pages invalidPage = none ∧
      checkInvariants env t s = some (.ok true, s') := by
  unfold passesAfter at h
  split at h
  · next t s _ =>
    simp only [Bool.and_eq_true, Option.isNone_iff_eq_none, decide_eq_true_eq] at h
    obtain ⟨⟨hid, hleaf, hinternal⟩, hok⟩ := h
    split at hok
    · next ok s' hcheck =>
      subst hok
      exact ⟨t, s, s', hleaf, hinternal, hid, hcheck⟩
    · cases hok
  · cases h

/-- A tree of three leaves' worth of inserts, its root split. -/
theorem check_is_sound_split : ∃ (t : BPlusTree) (s s' : PageStore) (leaves : List (PageId × PageId)),
    checkInvariants PoolEnv.countUp t s = some (.ok true, s') ∧
    walk PoolEnv.countUp t s = some (.ok (some leaves), s') ∧
    KeysIncrease (leaves.flatMap fun l => entriesAt s.pages l.1) := by
  have hpass : passesAfter PoolEnv.countUp 3 3
      [.insert 5 ⟨9, 1⟩, .insert 7 ⟨9, 2⟩, .insert 6 ⟨9, 3⟩, .insert 8 ⟨9, 4⟩] = true := by decide +kernel
  obtain ⟨t, s, s', hleaf, hinternal, hid, hcheck⟩ := of_passesAfter hpass
  have hrange : t.InRange := by
    unfold InRange
    rw [hleaf, hinternal]
    decide
  obtain ⟨leaves, hwalk, L, rfl, hinc, -⟩ := check_is_sound hrange hid hcheck
  exact ⟨t, s, s', leaves, hcheck, hwalk, hinc⟩

end Whole
end BPlusTree
end KernSql
