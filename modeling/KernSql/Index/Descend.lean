import KernSql.Index.Represent

/- The way down: what the descents read and which guards they hold.

   On an abstract tree the way to a key is the routed child at each level. The
   descents of the code follow it: `descendWrite` returns its pages and child
   indexes and holds a write guard on each of them; `descendRead` ends at its
   leaf with one guard. Both only read, and fail only if a fetch fails. -/
namespace KernSql
open Exec BTree

namespace BPlusTree

/-- The pages on the way to `key`, root first. -/
def pathNodes (key : Key) : {n : Nat} → KTree n → List PageId
  | 0, t => [Leaf.page t]
  | _ + 1, t => Branch.page t :: match (Branch.kids t)[route (Branch.kids t) key]? with
    | none => []
    | some (_, c) => pathNodes key c

/-- The child index taken at each level, root first. -/
def pathIndexes (key : Key) : {n : Nat} → KTree n → List Nat
  | 0, _ => []
  | _ + 1, t => route (Branch.kids t) key :: match (Branch.kids t)[route (Branch.kids t) key]? with
    | none => []
    | some (_, c) => pathIndexes key c

/-- The branches on the way with the child index taken in each, nearest to the leaf first. -/
def upPath (key : Key) : {n : Nat} → KTree n → List (PageId × Nat)
  | 0, _ => []
  | _ + 1, t => (match (Branch.kids t)[route (Branch.kids t) key]? with
    | none => []
    | some (_, c) => upPath key c) ++ [(Branch.page t, route (Branch.kids t) key)]

/-- The leaf the way ends at. -/
def pathLeaf (key : Key) : {n : Nat} → KTree n → Leaf PageId LeafEntry
  | 0, t => t
  | _ + 1, t => match (Branch.kids t)[route (Branch.kids t) key]? with
    | none => ⟨invalidPage, invalidPage, []⟩
    | some (_, c) => pathLeaf key c

section Path
variable {key : Key} {n : Nat} {p : PageId} {kids before after : List (Key × KTree n)} {k : Key} {c : KTree n}

theorem getElem?_route (h : kids = before ++ (k, c) :: after) (hi : before.length = route kids key) :
    kids[route kids key]? = some (k, c) := by
  rw [← hi, h]; simp

theorem pathNodes_branch (h : kids = before ++ (k, c) :: after) (hi : before.length = route kids key) :
    pathNodes key (.branch p kids : KTree (n + 1)) = p :: pathNodes key c := by
  show p :: (match kids[route kids key]? with | none => [] | some (_, c) => _) = _
  rw [getElem?_route h hi]

theorem pathIndexes_branch (h : kids = before ++ (k, c) :: after) (hi : before.length = route kids key) :
    pathIndexes key (.branch p kids : KTree (n + 1)) = before.length :: pathIndexes key c := by
  show route kids key :: (match kids[route kids key]? with | none => [] | some (_, c) => _) = _
  rw [getElem?_route h hi, hi]

theorem upPath_branch (h : kids = before ++ (k, c) :: after) (hi : before.length = route kids key) :
    upPath key (.branch p kids : KTree (n + 1)) = upPath key c ++ [(p, before.length)] := by
  show (match kids[route kids key]? with | none => [] | some (_, c) => _) ++ [(p, route kids key)] = _
  rw [getElem?_route h hi, hi]

theorem pathLeaf_branch (h : kids = before ++ (k, c) :: after) (hi : before.length = route kids key) :
    pathLeaf key (.branch p kids : KTree (n + 1)) = pathLeaf key c := by
  show (match kids[route kids key]? with | none => _ | some (_, c) => _) = _
  rw [getElem?_route h hi]

end Path

section Tree
variable {key lo : Key} {hi : WithTop Key} {n : Nat} {t : KTree n}

theorem pathNodes_ne_nil (key : Key) (t : KTree n) : pathNodes key t ≠ [] := by
  cases t using BTree.Tree.ind <;> exact List.cons_ne_nil _ _

theorem head_pathNodes (key : Key) (t : KTree n) : (pathNodes key t).head? = some t.page := by
  cases t using BTree.Tree.ind <;> rfl

theorem pathNodes_subset (key : Key) (t : KTree n) : ∀ p ∈ pathNodes key t, p ∈ t.pages := by
  induction t using BTree.Tree.ind with
  | leaf p next es => exact fun q hq => hq
  | branch p kids ih =>
    intro q hq
    rcases List.mem_cons.mp hq with rfl | hq
    · exact List.mem_cons_self
    · rcases hget : kids[route kids key]? with _ | ⟨k, c⟩
      · change q ∈ (match kids[route kids key]? with | none => [] | some (_, c) => _) at hq
        rw [hget] at hq
        exact absurd hq (List.not_mem_nil)
      · change q ∈ (match kids[route kids key]? with | none => [] | some (_, c) => pathNodes key c) at hq
        rw [hget] at hq
        have hmem := List.mem_of_getElem? hget
        exact List.mem_cons_of_mem _ (List.mem_flatMap.mpr ⟨(k, c), hmem, ih (k, c) hmem q hq⟩)

/-- Lengths, ends and the pairing of the path, all along the way. -/
theorem path_shape (ht : t.Ordered leafKey lo hi) (hlo : lo ≤ key) (hhi : (key : WithTop Key) < hi) :
    (pathNodes key t).length = n + 1 ∧ (pathIndexes key t).length = n ∧
      (pathNodes key t).getLast? = some (pathLeaf key t).page ∧
      ((pathNodes key t).dropLast.zip (pathIndexes key t)).reverse = upPath key t := by
  induction t using BTree.Tree.ind generalizing lo hi with
  | leaf p next es => exact ⟨rfl, rfl, rfl, rfl⟩
  | branch p kids ih =>
    obtain ⟨before, k, c, after, a, b, r⟩ := BTree.Tree.Ordered.routed ht hlo hhi
    obtain ⟨h1, h2, h3, h4⟩ := ih _ r.mem r.child r.low r.high
    rw [pathNodes_branch r.split r.index, pathIndexes_branch r.split r.index,
      upPath_branch r.split r.index, pathLeaf_branch r.split r.index]
    refine ⟨by simpa using h1, by simpa using h2, ?_, ?_⟩
    · rw [List.getLast?_cons, h3]; rfl
    · rw [List.dropLast_cons_of_ne_nil (pathNodes_ne_nil key c), List.zip_cons_cons, List.reverse_cons, h4]

theorem reverse_pathNodes (ht : t.Ordered leafKey lo hi) (hlo : lo ≤ key) (hhi : (key : WithTop Key) < hi) :
    (pathNodes key t).reverse = (pathLeaf key t).page :: (upPath key t).map Prod.fst := by
  induction t using BTree.Tree.ind generalizing lo hi with
  | leaf p next es => rfl
  | branch p kids ih =>
    obtain ⟨before, k, c, after, a, b, r⟩ := BTree.Tree.Ordered.routed ht hlo hhi
    rw [pathNodes_branch r.split r.index, upPath_branch r.split r.index, pathLeaf_branch r.split r.index,
      List.reverse_cons, ih _ r.mem r.child r.low r.high]
    simp

/-- The leaf reached is on its page, in order, and has every entry with the key. -/
theorem pathLeaf_spec {pages : PageId → Option Page} (hh : Reads pages t) (ht : t.Ordered leafKey lo hi)
    (hlo : lo ≤ key) (hhi : (key : WithTop Key) < hi) :
    LeafAt pages (pathLeaf key t).page (pathLeaf key t).next (pathLeaf key t).entries ∧
      KeysIncrease (pathLeaf key t).entries ∧
      (∀ e ∈ t.toList, e.key = key → e ∈ (pathLeaf key t).entries) ∧
      (∀ e ∈ (pathLeaf key t).entries, e ∈ t.toList) ∧ (pathLeaf key t).page ∈ t.pages := by
  induction t using BTree.Tree.ind generalizing lo hi with
  | leaf p next es => exact ⟨hh, ht.1, fun e he _ => he, fun e he => he, List.mem_singleton.mpr rfl⟩
  | branch p kids ih =>
    obtain ⟨before, k, c, after, a, b, r⟩ := BTree.Tree.Ordered.routed ht hlo hhi
    obtain ⟨h1, h2, h3, h4, h5⟩ := ih _ r.mem (hh.2 _ r.mem) r.child r.low r.high
    rw [pathLeaf_branch r.split r.index]
    exact ⟨h1, h2, fun e he hx => h3 e (r.entry he hx) hx,
      fun e he => List.mem_flatMap.mpr ⟨_, r.mem, h4 e he⟩,
      List.mem_cons_of_mem _ (List.mem_flatMap.mpr ⟨_, r.mem, h5⟩)⟩

end Tree

/-- The routed child, read from the node's page. -/
theorem read_route {body : Body} {level n : Nat} {kids before after : List (Key × KTree n)} {lo a k key : Key}
    {hi b : WithTop Key} {c : KTree n} {es : List InternalEntry} (hb : NodeIs body level invalidPage es)
    (hes : es.map InternalEntry.bare = kidEntries (kidPages kids))
    (hk : KidsIn (fun a b c => BTree.Tree.Ordered leafKey a b c) lo hi kids)
    (r : Routed (fun a b c => BTree.Tree.Ordered leafKey a b c) lo hi key kids before k c after a b) :
    InternalNode.childIndexFor body key = some before.length ∧
      InternalNode.childAt body before.length = some c.page := by
  have hne : es ≠ [] := by
    have := hk.ne_nil
    rw [← List.length_pos_iff] at this ⊢
    have hlen := congrArg List.length hes
    simp only [List.length_map, length_kidEntries, length_kidPages] at hlen
    omega
  have htail : es.tail.map InternalEntry.bare = kids.tail.map fun kc => ⟨kc.1, kc.2.page, 0⟩ := by
    rw [List.map_tail, hes, tail_kidEntries, kidPages, ← List.map_tail, List.map_map]
    rfl
  have hsorted : es.tail.Pairwise fun x y => x.key < y.key := by
    have hmap : (es.tail.map InternalEntry.bare).Pairwise fun x y => x.key < y.key := by
      rw [htail, List.pairwise_map]
      exact hk.separators.1
    rw [List.pairwise_map] at hmap
    exact hmap
  have hroute : routeIndex es key = route kids key := by
    have hcount : routeIndex (es.map InternalEntry.bare) key = routeIndex es key := by
      rw [routeIndex, ← List.map_tail, List.countP_map]
      rfl
    rw [← hcount, hes, routeIndex_kidEntries]
  refine ⟨?_, ?_⟩
  · rw [InternalNode.childIndexFor_eq hb hne hsorted, hroute, r.index]
  · have hget : (kidPages kids)[before.length]? = some (k, c.page) := by
      rw [r.split]; simp [kidPages]
    obtain ⟨k', hk', -⟩ := kidEntries_getElem? hget
    rw [← hes, List.getElem?_map, Option.map_eq_some_iff] at hk'
    obtain ⟨e, he, hstrip⟩ := hk'
    obtain ⟨hlt, hge⟩ := List.getElem?_eq_some_iff.mp he
    rw [InternalNode.childAt, InternalNode.entryAt, hb.entryAt hlt, hge, Option.map_some]
    exact congrArg some (congrArg InternalEntry.child hstrip)

section Descents
variable {env : PoolEnv} {key lo : Key} {hi : WithTop Key} {n : Nat} {t : KTree n} {s : PageStore}

/-- The write guards of a path, the last taken first. -/
def writeGuards (ps : List PageId) : List Guard := (ps.map fun p => ⟨p, .write⟩).reverse

theorem mem_writeGuards {ps : List PageId} {g : Guard} (h : g ∈ writeGuards ps) : g.page ∈ ps := by
  simp only [writeGuards, List.mem_reverse, List.mem_map] at h
  obtain ⟨p, hp, rfl⟩ := h
  exact hp

theorem wp_descendWrite (hh : Holds s.pages t) (ht : t.Ordered leafKey lo hi) (hlo : lo ≤ key)
    (hhi : (key : WithTop Key) < hi) (hnodup : t.pages.Nodup) (hfree : ∀ g ∈ s.guards, g.page ∉ t.pages) :
    wp (descendWrite env key n t.page)
      (fun r s' => r = (pathNodes key t, pathIndexes key t) ∧ ReadTo (writeGuards (pathNodes key t)) s s')
      (fun e s' => RefusedUnder env (s.guards.length + (n + 1)) e s s') s := by
  induction t using BTree.Tree.ind generalizing lo hi s with
  | leaf p next es =>
    rw [descendWrite]
    have hp : ∀ g ∈ s.guards, g.page ≠ p := fun g hg he => hfree g hg (by simp [he])
    refine wp_call (wp_fetchPage_under (s.not_conflicts hp _) (LeafAt.some hh)) (fun _ s' h => ?_) fun _ _ h => h
    rw [wp_bind]
    exact wp_asLeaf (LeafAt.congr hh (by rw [h.pages])) fun b hb => ⟨rfl, h⟩
  | @branch n p kids ih =>
    obtain ⟨before, k, c, after, a, b, r⟩ := BTree.Tree.Ordered.routed ht hlo hhi
    have hp : ∀ g ∈ s.guards, g.page ≠ p := fun g hg he => hfree g hg (by simp [he])
    have hsub : ∀ q ∈ c.pages, q ∈ kids.flatMap fun kc => kc.2.pages := fun q hq =>
      List.mem_flatMap.mpr ⟨_, r.mem, hq⟩
    rw [BTree.Tree.pages_branch, List.nodup_cons] at hnodup
    rw [descendWrite]
    refine wp_call (wp_fetchPage_under (s.not_conflicts hp _) hh.1.some) (fun _ s' h => ?_)
      fun _ _ h => h.mono (by omega)
    rw [wp_bind]
    refine wp_asInternal (hh.1.congr (by rw [h.pages])) fun body hbody => ?_
    obtain ⟨hidx, hchild⟩ := read_route hbody (kidEntries_reserved _) ht r
    rw [wp_bind, wp_lift]
    refine ⟨_, hidx, ?_⟩
    rw [wp_bind, wp_lift]
    refine ⟨_, hchild, ?_⟩
    have hc : c.pages.Nodup := (List.nodup_flatMap.mp hnodup.2).1 _ r.mem
    refine wp_call (ih _ r.mem (h.pages ▸ hh.2 _ r.mem) r.child r.low r.high hc ?_) (fun res s'' h' => ?_)
      fun _ s'' h' => (h.refusedUnder h').mono (by simp only [List.length_singleton]; omega)
    · intro g hg
      rw [h.guards] at hg
      rcases List.mem_append.mp hg with hg | hg
      · rw [List.mem_singleton.mp hg]
        exact fun hq => hnodup.1 (hsub _ hq)
      · exact fun hq => hfree g hg (List.mem_cons_of_mem _ (hsub _ hq))
    · obtain ⟨rfl, h'⟩ := h'
      rw [wp_pure, pathNodes_branch r.split r.index, pathIndexes_branch r.split r.index]
      refine ⟨rfl, ?_⟩
      have := h.trans h'
      simpa [writeGuards] using this

theorem wp_descendRead (hh : Reads s.pages t) (ht : t.Ordered leafKey lo hi) (hlo : lo ≤ key)
    (hhi : (key : WithTop Key) < hi) (hfree : ∀ p ∈ t.pages, s.conflicts .read p = false) :
    wp (descendRead env key n t.page) (fun p s' => p = (pathLeaf key t).page ∧ ReadTo [] s s')
      (fun e s' => RefusedUnder env (s.guards.length + 1) e s s') s := by
  induction t using BTree.Tree.ind generalizing lo hi s with
  | leaf p next es => exact ⟨rfl, .refl s⟩
  | @branch n p kids ih =>
    obtain ⟨before, k, c, after, a, b, r⟩ := BTree.Tree.Ordered.routed ht hlo hhi
    rw [descendRead]
    have hone : wp (inScope do
        fetchPageRead env p
        let b ← asInternal p
        let i ← lift (InternalNode.childIndexFor b key)
        lift (InternalNode.childAt b i)) (fun q s' => q = c.page ∧ ReadTo [] s s')
        (fun e s' => RefusedUnder env (s.guards.length + 1) e s s') s := by
      rw [wp_inScope]
      refine wp_call (wp_fetchPage_under (hfree p (by simp)) hh.1.some) (fun _ s' h => ?_)
        fun _ _ h => ⟨⟨h.pages, h.failures, h.leaks⟩, h.cause⟩
      rw [wp_bind]
      refine wp_asInternal_reads (h.pages ▸ hh.1) fun body es hbody hes => ?_
      obtain ⟨hidx, hchild⟩ := read_route hbody hes ht r
      rw [wp_bind, wp_lift]
      refine ⟨_, hidx, ?_⟩
      rw [wp_lift]
      exact ⟨_, hchild, rfl, ⟨h.pages, rfl, h.failures, h.leaks⟩⟩
    refine wp_call hone (fun q s' h => ?_) fun _ _ h => h
    obtain ⟨rfl, h⟩ := h
    refine wp_mono (ih _ r.mem (h.pages ▸ hh.2 _ r.mem) r.child r.low r.high fun q hq => ?_)
      (fun q s'' h' => ?_) fun _ s'' h' => (h.refusedUnder h').mono (by simp)
    · rw [PageStore.conflicts_congr h.guards]
      exact hfree q (List.mem_cons_of_mem _ (List.mem_flatMap.mpr ⟨_, r.mem, hq⟩))
    · rw [pathLeaf_branch r.split r.index]
      exact ⟨h'.1, h.trans h'.2⟩

end Descents

/-! A whole tree on its pages. -/

/-- The fanouts `Create` accepts. -/
def InRange (t : BPlusTree) : Prop :=
  (minFanout ≤ t.leafMax ∧ t.leafMax ≤ nodeCapacity) ∧ minFanout ≤ t.internalMax ∧ t.internalMax ≤ nodeCapacity

/-- The occupancy the tree maintains: the floors and ceilings of `IsLeafFull`, `IsLeafAtFloor` and
their internal counterparts. -/
def shape (t : BPlusTree) (h : t.InRange) : Shape where
  leafMin := t.leafMax / 2
  leafMax := t.leafMax
  branchMin := (t.internalMax + 1) / 2
  branchMax := t.internalMax
  leaf_pos := by have := h.1.1; simp only [minFanout] at this; omega
  leaf_half := by omega
  leaf_lt := by have := h.1.1; simp only [minFanout] at this; omega
  branch_two := by have := h.2.1; simp only [minFanout] at this; omega
  branch_half := by omega

/-- The pages hold tree `T` under handle `t`: its header, its nodes, and everything that makes it a
search tree of the handle's fanout. -/
structure TreeAt (t : BPlusTree) (pages : PageId → Option Page) (T : Σ n, KTree n) : Prop where
  range : t.InRange
  header : HeaderAt pages t.headerPageId ⟨T.2.page, T.1 + 1, t.leafMax, t.internalMax, 0⟩
  holds : Holds pages T.2
  valid : Valid (t.shape range) leafKey int64Min invalidPage T
  apart : t.headerPageId ∉ T.2.pages
  ids : ∀ p ∈ t.headerPageId :: T.2.pages, catalogRootPageId < p

/-- What a reader relies on: the header, the nodes as they read, and the order. -/
structure ReadableAt (t : BPlusTree) (pages : PageId → Option Page) (T : Σ n, KTree n) : Prop where
  header : ∃ reserved, HeaderAt pages t.headerPageId ⟨T.2.page, T.1 + 1, t.leafMax, t.internalMax, reserved⟩
  reads : Reads pages T.2
  ordered : T.2.Ordered leafKey int64Min ⊤

/-- No guard alive keeps a reader from the tree. -/
def Unlatched (t : BPlusTree) (s : PageStore) (T : Σ n, KTree n) : Prop :=
  ∀ p ∈ t.headerPageId :: T.2.pages, s.conflicts .read p = false

/-- The guards alive are on allocated pages outside the tree. -/
def Apart (t : BPlusTree) (s : PageStore) (T : Σ n, KTree n) : Prop :=
  ∀ g ∈ s.guards, s.pages g.page ≠ none ∧ g.page ≠ t.headerPageId ∧ g.page ∉ T.2.pages

section Whole
variable {env : PoolEnv} {t : BPlusTree} {s : PageStore} {T : Σ n, KTree n} {key : Key}

theorem TreeAt.height_lt (h : TreeAt t s.pages T) : T.1 + 1 < 65536 := by
  obtain ⟨pg, -, -, hh⟩ := h.header
  have := congrArg IndexHeader.height hh
  have hlt := Bytes.leNat_lt (pg.body.slice 4 2)
  simp only [IndexHeader.readFrom] at this
  rw [this] at hlt
  simpa using hlt

theorem TreeAt.readable (h : TreeAt t s.pages T) : ReadableAt t s.pages T :=
  ⟨⟨0, h.header⟩, h.holds.reads, h.valid.ordered⟩

theorem Apart.unlatched (hg : Apart t s T) : Unlatched t s T := by
  intro p hp
  refine s.not_conflicts (fun g hgs he => ?_) .read
  cases List.mem_cons.mp hp with
  | inl hhead => exact (hg g hgs).2.1 (he.trans hhead)
  | inr htree => exact (hg g hgs).2.2 (he ▸ htree)

/-- A tree of height above 32 would need more pages than there are ids. -/
theorem TreeAt.height_le (h : TreeAt t s.pages T) : T.1 ≤ 32 := by
  have h1 : 2 ^ T.1 ≤ T.2.pages.length :=
    le_trans h.valid.packed.pow_le_links BTree.Tree.length_links_le
  have h2 : T.2.pages.length ≤ 2 ^ 32 := by
    have hnd : (T.2.pages.map fun p => p.toBitVec.toFin).Nodup :=
      List.Nodup.map (fun a b hab => Int32.toBitVec_inj.mp (BitVec.toFin_inj.mp hab)) h.valid.nodup
    simpa using hnd.length_le_card
  exact (Nat.pow_le_pow_iff_right (by decide)).mp (le_trans h1 h2)

theorem key_lt_top (key : Key) : (key : WithTop Key) < ⊤ := WithTop.coe_lt_top key

theorem wp_findLeafWrite (h : TreeAt t s.pages T) (hg : Apart t s T) :
    wp (findLeafWrite env t key)
      (fun path s' => path = ⟨⟨T.2.page, T.1 + 1, t.leafMax, t.internalMax, 0⟩, pathNodes key T.2,
          pathIndexes key T.2⟩ ∧
        ReadTo (writeGuards (pathNodes key T.2) ++ [⟨t.headerPageId, .write⟩]) s s')
      (fun e s' => RefusedUnder env (s.guards.length + (T.1 + 2)) e s s') s := by
  unfold findLeafWrite
  refine wp_call (wp_fetchPage_under (s.not_conflicts (fun g hgs => (hg g hgs).2.1) _) h.header.some)
    (fun _ s' hr => ?_) fun _ _ hr => hr.mono (by omega)
  rw [wp_bind]
  refine wp_readIndexHeader (h.header.congr (by rw [hr.pages])) ?_
  rw [if_neg (by simp)]
  simp only [Nat.add_sub_cancel]
  refine wp_call (wp_descendWrite (hr.pages ▸ h.holds) h.valid.ordered (int64Min_le key) (key_lt_top key)
    h.valid.nodup ?_) (fun r s'' hr' => ?_)
    fun _ _ hr' => (hr.refusedUnder hr').mono (by simp only [List.length_singleton]; omega)
  · intro g hgs
    rw [hr.guards] at hgs
    rcases List.mem_append.mp hgs with hgs | hgs
    · rw [List.mem_singleton.mp hgs]; exact h.apart
    · exact (hg g hgs).2.2
  · obtain ⟨rfl, hr'⟩ := hr'
    exact ⟨rfl, hr.trans hr'⟩

theorem wp_findLeafRead (h : ReadableAt t s.pages T) (hfree : Unlatched t s T) :
    wp (findLeafRead env t key)
      (fun p s' => p = (pathLeaf key T.2).page ∧ ReadTo [⟨p, .read⟩] s s')
      (fun e s' => RefusedUnder env (s.guards.length + 1) e s s') s := by
  obtain ⟨reserved, hheader⟩ := h.header
  have hhead : wp (inScope do
      fetchPageRead env t.headerPageId
      readIndexHeader t.headerPageId)
      (fun hd s' => hd = ⟨T.2.page, T.1 + 1, t.leafMax, t.internalMax, reserved⟩ ∧ ReadTo [] s s')
      (fun e s' => RefusedUnder env (s.guards.length + 1) e s s') s := by
    rw [wp_inScope]
    refine wp_call (wp_fetchPage_under (hfree _ List.mem_cons_self) hheader.some)
      (fun _ s' hr => ?_) fun _ _ hr => ⟨⟨hr.pages, hr.failures, hr.leaks⟩, hr.cause⟩
    exact wp_readIndexHeader (hheader.congr (by rw [hr.pages]))
      ⟨rfl, ⟨hr.pages, rfl, hr.failures, hr.leaks⟩⟩
  unfold findLeafRead
  refine wp_call hhead (fun hd s' hr => ?_) fun _ _ hr => hr
  obtain ⟨rfl, hr⟩ := hr
  rw [if_neg (by simp)]
  simp only [Nat.add_sub_cancel]
  have hfree' : ∀ p ∈ T.2.pages, s'.conflicts .read p = false := fun p hp => by
    rw [PageStore.conflicts_congr hr.guards]
    exact hfree p (List.mem_cons_of_mem _ hp)
  refine wp_call (wp_descendRead (hr.pages ▸ h.reads) h.ordered (int64Min_le key) (key_lt_top key) hfree')
    (fun p s'' hr' => ?_) fun _ _ hr' => (hr.refusedUnder hr').mono (by simp)
  obtain ⟨rfl, hr'⟩ := hr'
  have hs := hr.trans hr'
  obtain ⟨hleaf, -, -, -, hmem⟩ := pathLeaf_spec h.reads h.ordered (int64Min_le key) (key_lt_top key)
  have hfree'' : s''.conflicts .read (pathLeaf key T.2).page = false := by
    rw [PageStore.conflicts_congr hs.guards]
    exact hfree _ (List.mem_cons_of_mem _ hmem)
  have hleaf' : s''.pages (pathLeaf key T.2).page ≠ none := by rw [hs.pages]; exact LeafAt.some hleaf
  refine wp_call (wp_fetchPage_under hfree'' hleaf') (fun _ s3 hr3 => ?_)
    fun _ _ hr3 => (hs.refusedUnder hr3).mono (by simp)
  exact ⟨rfl, hs.trans hr3⟩

/-- The entry with a key, if there is one, is where the binary search lands. -/
theorem getElem?_below {es : List LeafEntry} (h : KeysIncrease es) {e : LeafEntry} (he : e ∈ es) :
    es[below es e.key]? = some e := by
  have hin : EntriesIn leafKey int64Min ⊤ es := ⟨h, fun e _ => ⟨int64Min_le _, key_lt_top _⟩⟩
  obtain ⟨xs, ys, hes, hlen⟩ := hin.at_position he rfl
  change xs.length = below es e.key at hlen
  rw [← hlen, hes]
  simp

/-- What the search at the end of a descent tells about the tree. -/
theorem ReadableAt.search (h : ReadableAt t s.pages T) (key : Key) :
    LeafAt s.pages (pathLeaf key T.2).page (pathLeaf key T.2).next (pathLeaf key T.2).entries ∧
      KeysIncrease (pathLeaf key T.2).entries ∧
      ((∃ e, (pathLeaf key T.2).entries[below (pathLeaf key T.2).entries key]? = some e ∧ e.key = key ∧
          e ∈ T.2.toList) ∨
        ((∀ e, (pathLeaf key T.2).entries[below (pathLeaf key T.2).entries key]? = some e → e.key ≠ key) ∧
          ∀ e ∈ T.2.toList, e.key ≠ key)) := by
  obtain ⟨hleaf, hinc, hall, hsub, -⟩ :=
    pathLeaf_spec h.reads h.ordered (int64Min_le key) (key_lt_top key)
  refine ⟨hleaf, hinc, ?_⟩
  by_cases hf : ∃ e ∈ T.2.toList, e.key = key
  · obtain ⟨e, he, rfl⟩ := hf
    exact .inl ⟨e, getElem?_below hinc (hall e he rfl), rfl, he⟩
  · simp only [not_exists, not_and] at hf
    exact .inr ⟨fun e he => hf e (hsub e (List.mem_of_getElem? he)), hf⟩

theorem wp_get (h : ReadableAt t s.pages T) (hfree : Unlatched t s T) :
    wp (get env t key)
      (fun rid s' => ⟨key, rid⟩ ∈ T.2.toList ∧ ReadTo [] s s')
      (fun e s' => (e = ⟨.notFound, "key not in index"⟩ ∧ (∀ e ∈ T.2.toList, e.key ≠ key) ∧ ReadTo [] s s') ∨
        (RefusedUnder env (s.guards.length + 1) e s s' ∧ s'.guards = s.guards)) s := by
  obtain ⟨hleaf, hinc, hfound⟩ := h.search key
  unfold get
  rw [wp_inScope]
  refine wp_call (wp_findLeafRead h hfree) (fun p s' hr => ?_)
    fun _ _ hr => .inr ⟨⟨⟨hr.pages, hr.failures, hr.leaks⟩, hr.cause⟩, rfl⟩
  obtain ⟨rfl, hr⟩ := hr
  have hback : ReadTo [] s { s' with guards := s.guards } := ⟨hr.pages, rfl, hr.failures, hr.leaks⟩
  rw [wp_bind]
  refine wp_asLeaf (hleaf.congr (by rw [hr.pages])) fun b hb => ?_
  rw [wp_bind, wp_lift]
  refine ⟨_, LeafNode.lowerBound_eq hb hinc key, ?_⟩
  have hcount : LeafNode.count b = (pathLeaf key T.2).entries.length := hb.count_eq
  rw [hcount]
  rcases hfound with ⟨e, hget, rfl, hmem⟩ | ⟨hnot, habsent⟩
  · obtain ⟨hlt, he⟩ := List.getElem?_eq_some_iff.mp hget
    rw [if_neg (by omega), wp_bind, wp_lift]
    refine ⟨_, hb.entryAt hlt, ?_⟩
    rw [he, if_neg (by simp), wp_pure]
    exact ⟨hmem, hback⟩
  · by_cases hend : below (pathLeaf key T.2).entries key = (pathLeaf key T.2).entries.length
    · rw [if_pos hend, wp_fail]
      exact .inl ⟨rfl, habsent, hback⟩
    · have hlt : below (pathLeaf key T.2).entries key < (pathLeaf key T.2).entries.length :=
        lt_of_le_of_ne List.countP_le_length hend
      rw [if_neg hend, wp_bind, wp_lift]
      refine ⟨_, hb.entryAt hlt, ?_⟩
      rw [if_pos (hnot _ (List.getElem?_eq_getElem hlt)), wp_fail]
      exact .inl ⟨rfl, habsent, hback⟩

end Whole
end BPlusTree
end KernSql
