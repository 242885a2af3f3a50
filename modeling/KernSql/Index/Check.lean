import KernSql.Index.Pages

/- The whole-tree check.

   `CheckInvariants` reads the header and walks the tree from the root, with the
   interval each node is held to, the pages seen so far and the leaves met so
   far, and at the end compares the leaf links with the order the walk met them
   in. A fetch that fails makes it answer false. On a tree that is what `TreeAt`
   says, with record ids that are valid, it answers true: each part of `TreeAt` is
   what one of its tests asks. -/
namespace KernSql
open Exec BTree

/-- The pages seen, and each leaf met with its link, in the order of the walk. -/
structure Walk where
  seen : List PageId
  leaves : List (PageId × PageId)

/-- `key < lo || (hi.has_value() && key >= *hi)`. -/
def outside (lo : Key) (hi : Option Key) (key : Key) : Bool :=
  key < lo || match hi with
    | none => false
    | some h => h ≤ key

/-- The keys of a leaf, `left` of them from index `i`, are within the interval. -/
def checkKeys (b : Body) (lo : Key) (hi : Option Key) : Nat → Nat → Option Bool
  | 0, _ => some true
  | left + 1, i => do
    let key ← LeafNode.keyAt b (u16 i)
    if outside lo hi key then return false
    checkKeys b lo hi left (i + 1)

/-- The entries of an internal node, `left` of them from index `i`. -/
def copyEntries (b : Body) : Nat → Nat → Option (List InternalEntry)
  | 0, _ => some []
  | left + 1, i => do
    let e ← InternalNode.entryAt b (u16 i)
    let es ← copyEntries b left (i + 1)
    return e :: es

/-- The loop over the children: child `i` covers `[separator i, separator i + 1)`, the two ends inherit
`lo` and `hi`. -/
def checkChildren (visit : PageId → Key → Option Key → Walk → PoolM (Option Walk)) (hi : Option Key) :
    Key → List InternalEntry → Walk → PoolM (Option Walk)
  | _, [], w => pure (some w)
  | lo, [e], w => visit e.child lo hi w
  | lo, e :: f :: rest, w => do
    match ← visit e.child lo (some f.key) w with
    | none => pure none
    | some w' => checkChildren visit hi f.key (f :: rest) w'

/-- Each leaf's link is the leaf the walk reached after it, the last one's nothing. -/
def checkChain : List (PageId × PageId) → Bool
  | [] => true
  | l :: rest => (l.2 = match rest with
    | [] => invalidPage
    | m :: _ => m.1) && checkChain rest

namespace BPlusTree
variable (env : PoolEnv) (t : BPlusTree)

/-- The part of `CheckSubtree` for a leaf: its link, if it passes. -/
def checkLeaf (p : PageId) (lo : Key) (hi : Option Key) (isRoot : Bool) : PoolM (Option PageId) := do
  let b ← asLeaf p
  if !(← lift (LeafNode.checkInvariants b)) then pure none
  else if LeafNode.count b < (if isRoot then 0 else leafMinEntries t.leafMax) ∨ t.leafMax < LeafNode.count b then
    pure none
  else if !(← lift (checkKeys b lo hi (LeafNode.count b) 0)) then pure none
  else pure (some (LeafNode.nextLeaf b))

/-- The part of `CheckSubtree` for an internal node that runs under its guard: its entries, if it passes. -/
def checkInternal (p : PageId) (level : Nat) (isRoot : Bool) : PoolM (Option (List InternalEntry)) := do
  let b ← asInternal p
  if !(← lift (InternalNode.checkInvariants b)) then pure none
  else if InternalNode.level b ≠ level then pure none
  else if InternalNode.count b < (if isRoot then 2 else internalMinChildren t.internalMax) ∨
      t.internalMax < InternalNode.count b then pure none
  else do
    let entries ← lift (copyEntries b (InternalNode.count b) 0)
    pure (some entries)

/-- `CheckSubtree`; `none` is the answer false. -/
def checkSubtree : Nat → Bool → PageId → Key → Option Key → Walk → PoolM (Option Walk)
  | 0, isRoot, p, lo, hi, w =>
    if p ∈ w.seen then pure none
    else do
      match ← attempt (inScope do
        fetchPageRead env p
        checkLeaf t p lo hi isRoot) with
      | .ok (some next) => pure (some ⟨p :: w.seen, w.leaves ++ [(p, next)]⟩)
      | _ => pure none
  | level + 1, isRoot, p, lo, hi, w =>
    if p ∈ w.seen then pure none
    else do
      -- the entries are copied out under the guard, which is dropped before recursing
      match ← attempt (inScope do
        fetchPageRead env p
        checkInternal t p (level + 1) isRoot) with
      | .ok (some entries) =>
        if entries.tail.any fun e => outside lo hi e.key then pure none
        else checkChildren (checkSubtree level false) hi lo entries ⟨p :: w.seen, w.leaves⟩
      | _ => pure none

def checkInvariants : PoolM Bool := do
  match ← attempt (inScope do
    fetchPageRead env t.headerPageId
    readIndexHeader t.headerPageId) with
  | .error _ => pure false
  | .ok h =>
    if h.height < 1 ∨ h.leafMax ≠ t.leafMax ∨ h.internalMax ≠ t.internalMax then pure false
    else do
      -- the header counts as seen, so a child pointer back at it fails the walk
      match ← checkSubtree env t (h.height - 1) true h.rootPageId int64Min none ⟨[t.headerPageId], []⟩ with
      | none => pure false
      | some w => pure (checkChain w.leaves)

end BPlusTree

/-! The tests on one node. -/

section Nodes
variable {b : Body} {level : Nat} {next : PageId}

theorem checkEntries_leaf {es : List LeafEntry} (h : NodeIs b level next es) (hinc : KeysIncrease es)
    (hrid : ∀ e ∈ es, e.rid.isValid = true) : ∀ left i, i + left = es.length →
    LeafNode.checkEntries b left i = some true
  | 0, _, _ => rfl
  | left + 1, i, hi => by
    have hcap := h.cap
    simp only [nodeCapacity] at hcap
    have hlt : i < es.length := by omega
    rw [LeafNode.checkEntries, LeafNode.entryAt, h.entryAt hlt]
    simp only [Option.bind_eq_bind, Option.bind_some, hrid _ (List.getElem_mem hlt), Bool.not_true,
      Bool.false_eq_true, if_false]
    by_cases h0 : 0 < i
    · have hprev : i - 1 < es.length := by omega
      have hlt' : es[i - 1].key < es[i].key := List.pairwise_iff_getElem.mp hinc (i - 1) i hprev hlt (by omega)
      rw [if_pos h0, u16_of_lt (by omega), BPlusTree.leaf_keyAt h hprev]
      simp only [Option.bind_some, if_neg (not_le.mpr hlt')]
      exact checkEntries_leaf h hinc hrid left (i + 1) (by omega)
    · rw [if_neg h0]
      exact checkEntries_leaf h hinc hrid left (i + 1) (by omega)

theorem checkInvariants_leaf {es : List LeafEntry} (h : NodeIs b 0 next es) (hinc : KeysIncrease es)
    (hrid : ∀ e ∈ es, e.rid.isValid = true) (hnext : next = invalidPage ∨ catalogRootPageId < next) :
    LeafNode.checkInvariants b = some true := by
  have hcap := h.cap
  unfold LeafNode.checkInvariants
  simp only [show LeafNode.header b = _ from h.header_eq]
  rw [if_neg (by omega), if_neg (by simp), if_neg (by
    rintro ⟨h1, h2⟩
    exact hnext.elim h1 fun hlt => absurd h2 (Int32.not_le.mpr hlt))]
  exact checkEntries_leaf h hinc hrid _ _ (by simp)

theorem checkKeys_eq {es : List LeafEntry} (h : NodeIs b level next es) {lo : Key} {hi : Option Key}
    (hin : ∀ e ∈ es, outside lo hi e.key = false) : ∀ left i, i + left = es.length →
    checkKeys b lo hi left i = some true
  | 0, _, _ => rfl
  | left + 1, i, hi' => by
    have hcap := h.cap
    simp only [nodeCapacity] at hcap
    have hlt : i < es.length := by omega
    rw [checkKeys, u16_of_lt (by omega), BPlusTree.leaf_keyAt h hlt]
    simp only [Option.bind_eq_bind, Option.bind_some, hin _ (List.getElem_mem hlt), Bool.false_eq_true, if_false]
    exact checkKeys_eq h hin left (i + 1) (by omega)

theorem copyEntries_eq {es : List InternalEntry} (h : NodeIs b level next es) : ∀ left i, i + left = es.length →
    copyEntries b left i = some (es.drop i)
  | 0, i, hi => by rw [copyEntries, List.drop_of_length_le (by omega)]
  | left + 1, i, hi => by
    have hcap := h.cap
    simp only [nodeCapacity] at hcap
    have hlt : i < es.length := by omega
    have ih := copyEntries_eq h left (i + 1) (by omega)
    rw [copyEntries, u16_of_lt (by omega), InternalNode.entryAt, h.entryAt hlt, ih, List.drop_eq_getElem_cons hlt]
    rfl

/-- A child that is a data page passes. -/
theorem child_ok {p : PageId} (h : catalogRootPageId < p) : ¬(p = invalidPage ∨ p ≤ catalogRootPageId) := by
  rintro (rfl | hle)
  · exact absurd h (by decide)
  · exact Int32.not_le.mpr h hle

/-- The loop past entry 0: each separator is above the one before it. -/
theorem checkEntries_internal {kids : List (Key × PageId)} (h : NodeIs b level next (kidEntries kids))
    (hids : ∀ kc ∈ kids, catalogRootPageId < kc.2) : ∀ left i prev, 1 ≤ i → i + left = kids.length →
    (∀ kc ∈ kids.drop i, prev < kc.1) → (kids.drop i).Pairwise (fun a b => a.1 < b.1) →
    InternalNode.checkEntries b left i prev = some true
  | 0, _, _, _, _, _, _ => rfl
  | left + 1, i, prev, h1, hi, hprev, hsep => by
    have hlt : i < kids.length := by omega
    have hget : kids[i]? = some (kids[i].1, kids[i].2) := List.getElem?_eq_getElem hlt
    obtain ⟨k', hk', hkey⟩ := kidEntries_getElem? hget
    obtain ⟨hlt', he⟩ := List.getElem?_eq_some_iff.mp hk'
    rw [List.drop_eq_getElem_cons hlt] at hprev hsep
    have hrest := List.pairwise_cons.mp hsep
    rw [InternalNode.checkEntries, InternalNode.entryAt, h.entryAt hlt', he]
    simp only [Option.bind_eq_bind, Option.bind_some, hkey h1]
    rw [if_neg (child_ok (hids _ (List.getElem_mem hlt))), if_neg (by omega),
      if_neg (not_le.mpr (hprev _ List.mem_cons_self))]
    exact checkEntries_internal h hids left (i + 1) _ (by omega) (by omega) hrest.1 hrest.2

theorem checkInvariants_internal {kids : List (Key × PageId)} (h : NodeIs b level invalidPage (kidEntries kids))
    (hlevel : 1 ≤ level) (hids : ∀ kc ∈ kids, catalogRootPageId < kc.2)
    (hmin : ∀ kc ∈ kids.tail, int64Min < kc.1) (hsep : kids.tail.Pairwise fun a b => a.1 < b.1) :
    InternalNode.checkInvariants b = some true := by
  have hcap := h.cap
  unfold InternalNode.checkInvariants
  simp only [show InternalNode.header b = _ from h.header_eq]
  rw [if_neg (by omega), if_neg (by omega), if_neg (by simp)]
  rcases kids with _ | ⟨⟨k, c⟩, kids⟩
  · rfl
  · have hentry : InternalNode.entryAt b 0 = some ⟨int64Min, c, 0⟩ := h.entryAt (i := 0) (by simp)
    simp only [length_kidEntries, List.length_cons]
    rw [InternalNode.checkEntries, hentry]
    simp only [Option.bind_eq_bind, Option.bind_some, if_true]
    rw [if_neg (child_ok (hids (k, c) (by simp))), if_neg (by simp)]
    exact checkEntries_internal h hids _ 1 _ (le_refl _) (by simp; omega) (by simpa using hmin) (by simpa using hsep)

theorem not_outside {lo key : Key} {hi : WithTop Key} (h1 : lo ≤ key) (h2 : (key : WithTop Key) < hi) :
    outside lo hi key = false := by
  have h1' : decide (key < lo) = false := by simpa using h1
  cases hi using WithTop.recTopCoe with
  | top => simp only [outside, h1']; rfl
  | coe a =>
    have h2' : decide (a ≤ key) = false := by simpa using h2
    show (decide (key < lo) || decide (a ≤ key)) = false
    rw [h1', h2']; rfl

theorem checkChain_eq {links : List (PageId × PageId)} (h : Linked invalidPage links) : checkChain links = true := by
  induction links with
  | nil => rfl
  | cons l rest ih =>
    have hstep : checkChain (l :: rest) = (decide (l.2 = start invalidPage rest) && checkChain rest) := by
      cases rest <;> rfl
    rw [hstep, ih h.2, h.1]
    simp

end Nodes

/-! The walk. -/

/-- What a part of the walk did: it only read, and passed, having seen `ps` and met the leaves `links`, or a
fetch failed and the answer is false. -/
structure Walked (s s' : PageStore) (w : Walk) (r : Option Walk) (ps : List PageId)
    (links : List (PageId × PageId)) : Prop where
  pages : s'.pages = s.pages
  guards : s'.guards = s.guards
  outcome : (s'.failures = s.failures ∧ ∃ seen, r = some ⟨seen, w.leaves ++ links⟩ ∧
      ∀ p, p ∈ seen ↔ p ∈ w.seen ∨ p ∈ ps) ∨
    (s.failures < s'.failures ∧ r = none)

namespace BPlusTree
variable {env : PoolEnv} {t : BPlusTree} {s : PageStore} {n : Nat}

/-- The loop over the children, given what a visit does. -/
theorem wp_checkChildren {visit : PageId → Key → Option Key → Walk → PoolM (Option Walk)} {hi : WithTop Key} :
    ∀ {rest : List (Key × KTree n)} {k x lo : Key} {c : KTree n} {w : Walk} {s : PageStore},
    KidsIn (fun a b c => BTree.Tree.Ordered leafKey a b c) lo hi ((k, c) :: rest) →
    (((k, c) :: rest).flatMap fun kc => kc.2.pages).Nodup →
    (∀ p ∈ ((k, c) :: rest).flatMap (fun kc => kc.2.pages), p ∉ w.seen) →
    (∀ kc ∈ (k, c) :: rest, ∀ a (b : WithTop Key) w s', s'.pages = s.pages → s'.guards = s.guards →
      kc.2.Ordered leafKey a b → (∀ p ∈ kc.2.pages, p ∉ w.seen) →
      wp (visit kc.2.page a b w) (fun r s'' => Walked s' s'' w r kc.2.pages kc.2.links) (fun _ _ => False) s') →
    wp (checkChildren visit hi lo (⟨x, c.page, 0⟩ :: rest.map fun kc => ⟨kc.1, kc.2.page, 0⟩) w)
      (fun r s' => Walked s s' w r (((k, c) :: rest).flatMap fun kc => kc.2.pages)
        (((k, c) :: rest).flatMap fun kc => kc.2.links)) (fun _ _ => False) s
  | [], k, x, lo, c, w, s, hk, hnd, hseen, hvisit => by
    simpa [checkChildren] using hvisit (k, c) (by simp) lo hi w s rfl rfl hk (by simpa using hseen)
  | (k', d) :: rest, k, x, lo, c, w, s, ⟨h1, h2, h3, h4⟩, hnd, hseen, hvisit => by
    rw [List.flatMap_cons, List.nodup_append] at hnd
    simp only [List.map_cons, checkChildren]
    refine wp_call (hvisit (k, c) (by simp) lo (k' : WithTop Key) w s rfl rfl h3 fun p hp => hseen p
      (List.mem_flatMap.mpr ⟨_, List.mem_cons_self, hp⟩)) (fun r s₁ h₁ => ?_) fun _ _ he => he
    rcases h₁.outcome with ⟨hf, seen, rfl, hin⟩ | ⟨hf, rfl⟩
    · have hnew : ∀ p ∈ ((k', d) :: rest).flatMap (fun kc => kc.2.pages), p ∉ seen := fun p hp hps => by
        rcases (hin p).mp hps with h | h
        · exact hseen p (by rw [List.flatMap_cons]; exact List.mem_append_right _ hp) h
        · exact hnd.2.2 p h p hp rfl
      refine wp_mono (wp_checkChildren (w := ⟨seen, w.leaves ++ c.links⟩) h4 hnd.2.1 hnew
        fun kc hkc a b w' s' hp hg ho hs => hvisit kc (List.mem_cons_of_mem _ hkc) a b w' s' (hp.trans h₁.pages)
          (hg.trans h₁.guards) ho hs) (fun r s₂ h₂ => ?_) fun _ _ he => he
      refine ⟨h₂.pages.trans h₁.pages, h₂.guards.trans h₁.guards, ?_⟩
      rcases h₂.outcome with ⟨hf₂, seen', rfl, hin'⟩ | ⟨hf₂, rfl⟩
      · refine .inl ⟨hf₂.trans hf, seen', by simp, fun p => ?_⟩
        simp only [hin', hin, List.flatMap_cons, List.mem_append, or_assoc]
      · exact .inr ⟨hf ▸ hf₂, rfl⟩
    · exact ⟨h₁.pages, h₁.guards, .inr ⟨hf, rfl⟩⟩

/-- What the tests of a subtree ask of it. -/
structure Checkable (pages : PageId → Option Page) (T : KTree n) : Prop where
  holds : Holds pages T
  nodup : T.pages.Nodup
  ids : ∀ p ∈ T.pages, catalogRootPageId < p
  rids : ∀ e ∈ T.toList, e.rid.isValid = true
  links : ∀ l ∈ T.links, l.2 = invalidPage ∨ catalogRootPageId < l.2

theorem Checkable.kid {pages : PageId → Option Page} {p : PageId} {kids : List (Key × KTree n)}
    (h : Checkable pages (.branch p kids)) {kc : Key × KTree n} (hkc : kc ∈ kids) : Checkable pages kc.2 where
  holds := (holds_branch.mp h.holds).2 kc hkc
  nodup := (List.nodup_flatMap.mp (List.nodup_cons.mp h.nodup).2).1 kc hkc
  ids q hq := h.ids q (List.mem_cons_of_mem _ (List.mem_flatMap.mpr ⟨kc, hkc, hq⟩))
  rids e he := h.rids e (List.mem_flatMap.mpr ⟨kc, hkc, he⟩)
  links l hl := h.links l (List.mem_flatMap.mpr ⟨kc, hkc, hl⟩)

/-- Its root page can be read. -/
theorem Checkable.wp_fetch {T : KTree n} (h : Checkable s.pages T) (hg : ∀ g ∈ s.guards, g.page ∉ T.pages) :
    wp (fetchPageRead env T.page) (fun _ s' => ReadTo [⟨T.page, .read⟩] s s') (fun _ s' => Refused s s') s :=
  have hroot := BTree.Tree.page_mem_pages T
  wp_fetchPage (s.not_conflicts (fun g hgs he => hg g hgs (he ▸ hroot)) .read) (h.holds.allocated _ hroot)

/-- The tests of a leaf pass. -/
theorem wp_checkLeaf (hr : t.InRange) {p next : PageId} {es : List LeafEntry}
    (h : Checkable s.pages (.leaf p next es : KTree 0)) {lo : Key} {hi : WithTop Key}
    (ho : EntriesIn leafKey lo hi es) {isRoot : Bool}
    (hmin : isRoot = false → (t.shape hr).leafMin ≤ es.length) (hmax : es.length ≤ (t.shape hr).leafMax)
    {Q : Option PageId → PageStore → Prop} {E : Status → PageStore → Prop} (hQ : Q (some next) s) :
    wp (checkLeaf t p lo hi isRoot) Q E s := by
  have hcap := hr.1.2
  simp only [nodeCapacity] at hcap
  unfold checkLeaf
  rw [wp_bind]
  refine wp_asLeaf (holds_leaf.mp h.holds) fun b hb => ?_
  rw [wp_bind, wp_lift]
  refine ⟨true, checkInvariants_leaf hb ho.1 h.rids (h.links (p, next) (by simp)), ?_⟩
  have hcount : LeafNode.count b = es.length := hb.count_eq
  have hnext : LeafNode.nextLeaf b = next := by
    rw [LeafNode.nextLeaf, show LeafNode.header b = _ from hb.header_eq]
  rw [if_neg (by simp), if_neg ?_, wp_bind, wp_lift]
  · refine ⟨true, checkKeys_eq hb (fun e he => not_outside (ho.2 e he).1 (ho.2 e he).2) _ _ (by simp [hcount]), ?_⟩
    rw [if_neg (by simp), wp_pure, hnext]
    exact hQ
  · rw [hcount, leafMinEntries, u16_of_lt (by omega)]
    cases isRoot with
    | true =>
      rw [if_pos rfl]
      have : es.length ≤ t.leafMax := hmax
      omega
    | false =>
      rw [if_neg (by simp)]
      have h1 : t.leafMax / 2 ≤ es.length := hmin rfl
      have h2 : es.length ≤ t.leafMax := hmax
      omega

/-- The tests of an internal node pass. -/
theorem wp_checkInternal (hr : t.InRange) {p : PageId} {kids : List (Key × KTree n)}
    (h : Checkable s.pages (.branch p kids : KTree (n + 1))) {lo : Key} {hi : WithTop Key}
    (ho : KidsIn (fun a b c => BTree.Tree.Ordered leafKey a b c) lo hi kids) {isRoot : Bool}
    (hmin : (if isRoot then 2 else (t.shape hr).branchMin) ≤ kids.length)
    (hmax : kids.length ≤ (t.shape hr).branchMax) {Q : Option (List InternalEntry) → PageStore → Prop}
    {E : Status → PageStore → Prop} (hQ : Q (some (kidEntries (kidPages kids))) s) :
    wp (checkInternal t p (n + 1) isRoot) Q E s := by
  obtain ⟨hinc, hbounds⟩ := KidsIn.separators ho
  have hcap := hr.2.2
  simp only [nodeCapacity] at hcap
  have htail : (kidPages kids).tail = kids.tail.map fun kc => (kc.1, kc.2.page) := by
    rw [kidPages, List.map_tail]
  unfold checkInternal
  rw [wp_bind]
  refine wp_asInternal (holds_branch.mp h.holds).1 fun b hb => ?_
  have hcount : InternalNode.count b = kids.length := by
    rw [show InternalNode.count b = _ from hb.count_eq, length_kidEntries, length_kidPages]
  have hlevel : InternalNode.level b = n + 1 := by
    rw [InternalNode.level, show InternalNode.header b = _ from hb.header_eq]
  rw [wp_bind, wp_lift]
  refine ⟨true, checkInvariants_internal hb (by omega) ?_ ?_ ?_, ?_⟩
  · intro kc hkc
    obtain ⟨kc', hkc', rfl⟩ := List.mem_map.mp hkc
    exact h.ids _ (List.mem_cons_of_mem _ (List.mem_flatMap.mpr ⟨kc', hkc', BTree.Tree.page_mem_pages _⟩))
  · rw [htail]
    intro kc hkc
    obtain ⟨kc', hkc', rfl⟩ := List.mem_map.mp hkc
    exact lt_of_le_of_lt (int64Min_le lo) (hbounds kc' hkc').1
  · rw [htail]
    exact List.pairwise_map.mpr hinc
  · rw [if_neg (by simp), if_neg (by simp [hlevel]), if_neg ?_, wp_bind, wp_lift]
    · refine ⟨_, copyEntries_eq hb _ 0 (by simp [hcount]), ?_⟩
      rw [wp_pure, List.drop_zero]
      exact hQ
    · rw [hcount, internalMinChildren, u16_of_lt (by omega)]
      have h1 : (if isRoot then 2 else (t.internalMax + 1) / 2) ≤ kids.length := hmin
      have h2 : kids.length ≤ t.internalMax := hmax
      omega

variable {lo : Key} {hi : Option Key} {T : KTree n}

/-- The walk over a subtree passes. -/
theorem wp_checkSubtree (hr : t.InRange) (h : Checkable s.pages T) (ho : T.Ordered leafKey lo hi) {isRoot : Bool}
    (hroot : T.PackedRoot (t.shape hr)) (hpacked : isRoot = false → T.Packed (t.shape hr))
    (hg : ∀ g ∈ s.guards, g.page ∉ T.pages) {w : Walk} (hseen : ∀ p ∈ T.pages, p ∉ w.seen) :
    wp (checkSubtree env t n isRoot T.page lo hi w) (fun r s' => Walked s s' w r T.pages T.links)
      (fun _ _ => False) s := by
  induction T using BTree.Tree.ind generalizing lo hi s w isRoot with
  | leaf p next es =>
    rw [BTree.Tree.page_leaf, checkSubtree, if_neg (hseen p (by simp)), wp_bind, wp_attempt, wp_inScope]
    refine wp_call (h.wp_fetch hg) (fun _ s₁ hr₁ => ?_) fun _ s₁ hr₁ => ?_
    · refine wp_checkLeaf hr (s := s₁) (hr₁.pages ▸ h) ho (fun hf => (hpacked hf).1) hroot ?_
      simp only [wp_pure]
      exact ⟨hr₁.pages, rfl, .inl ⟨hr₁.failures, _, rfl, fun q => by simp [or_comm]⟩⟩
    · simp only [wp_pure]
      exact ⟨hr₁.pages, rfl, .inr ⟨hr₁.failures, rfl⟩⟩
  | @branch n p kids ih =>
    have hk : KidsIn (fun a b c => BTree.Tree.Ordered leafKey a b c) lo hi kids := ho
    rw [BTree.Tree.page_branch, checkSubtree, if_neg (hseen p (by simp)), wp_bind, wp_attempt, wp_inScope]
    refine wp_call (h.wp_fetch hg) (fun _ s₁ hr₁ => ?_) fun _ s₁ hr₁ => ?_
    · have hmin : (if isRoot then 2 else (t.shape hr).branchMin) ≤ kids.length := by
        cases isRoot with
        | true => exact hroot.1.1
        | false => exact (hpacked rfl).1.1
      refine wp_checkInternal hr (s := s₁) (hr₁.pages ▸ h) hk hmin hroot.1.2 ?_
      have hsep := (KidsIn.separators hk).2
      have htail : ((kidEntries (kidPages kids)).tail.any fun e => outside lo hi e.key) = false := by
        rw [List.any_eq_false]
        intro e he
        rw [tail_kidEntries] at he
        obtain ⟨kc, hkc, rfl⟩ := List.mem_map.mp he
        rw [kidPages, ← List.map_tail] at hkc
        obtain ⟨kc', hkc', rfl⟩ := List.mem_map.mp hkc
        rw [not_outside (le_of_lt (hsep kc' hkc').1) (hsep kc' hkc').2]
        simp
      simp only [htail, Bool.false_eq_true, if_false]
      rcases kids with _ | ⟨⟨k, c⟩, rest⟩
      · exact absurd rfl (KidsIn.ne_nil hk)
      have hnd := List.nodup_cons.mp h.nodup
      have hentries : kidEntries (kidPages ((k, c) :: rest)) =
          ⟨int64Min, c.page, 0⟩ :: rest.map fun kc => ⟨kc.1, kc.2.page, 0⟩ := by
        simp [kidEntries, kidPages, InternalNode.canonical]
      rw [hentries]
      refine wp_mono (wp_checkChildren (w := ⟨p :: w.seen, w.leaves⟩) hk hnd.2 (fun q hq hin => ?_)
        fun kc hkc a b w' s' hp' hg' ho' hs' => ?_) (fun r s₂ h₂ => ?_) fun _ _ he => he
      · rcases List.mem_cons.mp hin with rfl | hin
        · exact hnd.1 hq
        · exact hseen q (List.mem_cons_of_mem _ hq) hin
      · have hkc' : ∀ q ∈ kc.2.pages, q ∈ (BTree.Tree.branch p ((k, c) :: rest) : KTree (n + 1)).pages := fun q hq =>
          List.mem_cons_of_mem _ (List.mem_flatMap.mpr ⟨kc, hkc, hq⟩)
        have hpg : s'.pages = s.pages := hp'.trans hr₁.pages
        have hgs : s'.guards = s.guards := hg'
        exact ih kc hkc (hpg ▸ h.kid hkc) ho' (hroot.2 kc hkc).root (fun _ => hroot.2 kc hkc)
          (fun g hgm hin => hg g (hgs ▸ hgm) (hkc' _ hin)) hs'
      · refine ⟨h₂.pages.trans hr₁.pages, h₂.guards, ?_⟩
        rcases h₂.outcome with ⟨hf₂, seen, rfl, hin⟩ | ⟨hf₂, rfl⟩
        · refine .inl ⟨hf₂.trans hr₁.failures, seen, rfl, fun q => ?_⟩
          rw [hin]
          simp only [BTree.Tree.pages_branch, List.mem_cons]
          tauto
        · exact .inr ⟨hr₁.failures ▸ hf₂, rfl⟩
    · simp only [wp_pure]
      exact ⟨hr₁.pages, rfl, .inr ⟨hr₁.failures, rfl⟩⟩

theorem TreeAt.checkable {T : Σ n, KTree n} (h : TreeAt t s.pages T) (hrids : ∀ e ∈ T.2.toList, e.rid.isValid = true) :
    Checkable s.pages T.2 where
  holds := h.holds
  nodup := h.valid.nodup
  ids p hp := h.ids p (List.mem_cons_of_mem _ hp)
  rids := hrids
  links l hl := (linked_mem h.valid.linked l hl).imp_right fun hin => by
    obtain ⟨l', hl', heq⟩ := List.mem_map.mp hin
    exact heq ▸ h.ids _ (List.mem_cons_of_mem _ (BTree.Tree.links_pages T.2 l' hl'))

/-- The check passes on a tree with valid record ids, unless a fetch fails. -/
theorem wp_checkInvariants {T : Σ n, KTree n} (h : TreeAt t s.pages T) (hg : Apart t s T)
    (hrids : ∀ e ∈ T.2.toList, e.rid.isValid = true) :
    wp (checkInvariants env t) (fun ok s' => s'.failures = s.failures → ok = true) (fun _ _ => False) s := by
  unfold checkInvariants
  rw [wp_bind, wp_attempt, wp_inScope]
  refine wp_call (wp_fetchPage (s.not_conflicts (fun g hgs => (hg g hgs).2.1) .read) h.header.some)
    (fun _ s₁ hr => ?_) fun _ s₁ hr => ?_
  · refine wp_readIndexHeader (h.header.congr (by rw [hr.pages])) ?_
    dsimp only
    rw [if_neg (by simp), Nat.add_sub_cancel]
    have hc : Checkable s₁.pages T.2 := hr.pages ▸ h.checkable hrids
    refine wp_call (wp_checkSubtree (s := { s₁ with guards := s.guards }) h.range hc h.valid.ordered h.valid.packed
      (fun hf : true = false => by cases hf)
      (fun g hgs => (hg g hgs).2.2) fun p hp hin => ?_) (fun r s₂ h₂ => ?_) fun _ _ he => he
    · rw [List.mem_singleton] at hin
      exact h.apart (hin ▸ hp)
    · rcases h₂.outcome with ⟨-, seen, rfl, -⟩ | ⟨hf, rfl⟩
      · rw [wp_pure]
        exact fun _ => checkChain_eq h.valid.linked
      · rw [wp_pure]
        have hf : s₁.failures < s₂.failures := hf
        rw [hr.failures] at hf
        exact fun he => absurd he (Nat.ne_of_gt hf)
  · simp only [wp_pure]
    exact fun he => absurd he (Nat.ne_of_gt hr.failures)

/-- After every operation of every run of inserts of valid record ids and deletes from `Create`, the pages hold a
tree with all that makes it one, and `CheckInvariants` answers true if it can read them. -/
theorem invariants_after_every_operation (hlaw : env.Lawful) (hlive : ∀ g ∈ s.guards, s.pages g.page ≠ none)
    {leafMax internalMax : Nat} (hleaf : minFanout ≤ leafMax ∧ leafMax ≤ nodeCapacity)
    (hinternal : minFanout ≤ internalMax ∧ internalMax ≤ nodeCapacity) (ops : List Op)
    (hops : ∀ op ∈ ops, op.binds fun rid => rid.isValid = true) :
    ∃ made s', (do
        let t ← create env leafMax internalMax
        let _ ← Refine.run (perform env t) ops
        pure t) s = some (made, s') ∧
      (s'.failures = s.failures → ∃ t, made = .ok t) ∧
      ∀ t, made = .ok t → (∃ T, TreeAt t s'.pages T) ∧
        ∃ ok s'', checkInvariants env t s' = some (.ok ok, s'') ∧ (s''.failures = s'.failures → ok = true) := by
  have hrun : wp (do
      let t ← create env leafMax internalMax
      let _ ← Refine.run (perform env t) ops
      pure t) (fun t s' => ∃ T, Reached t (fun rid => rid.isValid = true) s s' T)
      (fun _ s' => s.failures < s'.failures) s := by
    refine wp_call (wp_create hlaw hlive) (fun t s₁ hc => ?_) fun _ s₁ he => ?_
    · obtain ⟨root, hc⟩ := hc
      have hR : Reached t (fun rid => rid.isValid = true) s s₁ _ := hc.reached hlive
      obtain ⟨as, s₂, T, hrun, hR⟩ := hR.run hlaw hops
      rw [wp_bind]
      exact wp_of_ok hrun ⟨T, hR⟩
    · rcases he with ⟨-, -, hout⟩ | ⟨hr, -⟩
      · omega
      · exact hr.failures
  rcases wp_run hrun with ⟨t, s', hs', T, hR⟩ | ⟨e, s', hs', hlt⟩
  · refine ⟨_, s', hs', fun _ => ⟨t, rfl⟩, ?_⟩
    rintro t' ⟨⟩
    refine ⟨⟨T, hR.tree⟩, ?_⟩
    have hcheck : wp (checkInvariants env t) _ _ s' := wp_checkInvariants hR.tree hR.apart hR.rids
    rcases wp_run hcheck with ⟨ok, s'', hrun, hok⟩ | ⟨_, _, _, hf⟩
    · exact ⟨ok, s'', hrun, hok⟩
    · exact hf.elim
  · exact ⟨_, s', hs', fun hf => absurd hf (Nat.ne_of_gt hlt), fun t ht => by cases ht⟩

theorem invariants_after_every_operation_demo : ∃ made s', (do
        let t ← create PoolEnv.countUp 3 4
        let _ ← Refine.run (perform PoolEnv.countUp t) [.insert 7 ⟨9, 1⟩, .insert 8 ⟨9, 2⟩, .delete 7]
        pure t) PageStore.empty = some (made, s') ∧
      (s'.failures = 0 → ∃ t, made = .ok t) ∧
      ∀ t, made = .ok t → (∃ T, TreeAt t s'.pages T) ∧
        ∃ ok s'', checkInvariants PoolEnv.countUp t s' = some (.ok ok, s'') ∧ (s''.failures = s'.failures → ok = true) :=
  invariants_after_every_operation PoolEnv.countUp_lawful (by simp [PageStore.empty]) (by decide) (by decide) _
    (by simp [Op.binds, RID.isValid, invalidPage])

end BPlusTree
end KernSql
