import KernSql.Index.BPlusTree
import KernSql.Lib.BTree.Delete

/- How a tree lies on pages.

   `Holds pages t` says that every node of the abstract tree `t` is on its page:
   a leaf page holds the leaf's entries and link, an internal page the separators
   and the pages of the children, with `INT64_MIN` in the slot nothing reads. It
   looks at no page outside `t.pages`, so a computation that does not touch those
   keeps it.

   Below it, the accessors of the tree code on pages that hold a leaf or an
   internal node: reading gives the node, editing gives a page that holds the
   edited one. From here on no proof opens a page. -/
namespace KernSql
open Exec BTree

abbrev KTree := BTree.Tree PageId Key LeafEntry

def leafKey (e : LeafEntry) : Key := e.key

/-- Page `p` is a leaf with these entries and this link. -/
def LeafAt (pages : PageId → Option Page) (p next : PageId) (es : List LeafEntry) : Prop :=
  ∃ pg, pages p = some pg ∧ pg.header.pageType = .indexLeaf ∧ NodeIs pg.body 0 next es

/-- The entries of an internal node with these separators and children. -/
def kidEntries (kids : List (Key × PageId)) : List InternalEntry :=
  InternalNode.canonical (kids.map fun kc => ⟨kc.1, kc.2, 0⟩)

/-- Page `p` is an internal node with these separators and children. -/
def BranchAt (pages : PageId → Option Page) (p : PageId) (level : Nat) (kids : List (Key × PageId)) : Prop :=
  ∃ pg, pages p = some pg ∧ pg.header.pageType = .indexInternal ∧
    NodeIs pg.body level invalidPage (kidEntries kids)

def kidPages {n : Nat} (kids : List (Key × KTree n)) : List (Key × PageId) :=
  kids.map fun kc => (kc.1, kc.2.page)

/-- The nodes of `t` are on their pages. -/
def Holds (pages : PageId → Option Page) : {n : Nat} → KTree n → Prop
  | 0, t => LeafAt pages (Leaf.page t) (Leaf.next t) (Leaf.entries t)
  | n + 1, t => BranchAt pages (Branch.page t) (n + 1) (kidPages (Branch.kids t)) ∧
    ∀ kc ∈ Branch.kids t, Holds pages kc.2

@[simp] theorem holds_leaf {pages : PageId → Option Page} {p next : PageId} {es : List LeafEntry} :
    Holds pages (.leaf p next es : KTree 0) ↔ LeafAt pages p next es := Iff.rfl

@[simp] theorem holds_branch {pages : PageId → Option Page} {n : Nat} {p : PageId}
    {kids : List (Key × KTree n)} : Holds pages (.branch p kids) ↔
      BranchAt pages p (n + 1) (kidPages kids) ∧ ∀ kc ∈ kids, Holds pages kc.2 := Iff.rfl

/-- An entry without its reserved word. -/
def InternalEntry.bare (e : InternalEntry) : InternalEntry := { e with reserved := 0 }

/-- Page `p` reads as an internal node with these separators and children: what the reserved words hold does
not matter to a reader. -/
def BranchReads (pages : PageId → Option Page) (p : PageId) (level : Nat) (kids : List (Key × PageId)) : Prop :=
  ∃ pg es, pages p = some pg ∧ pg.header.pageType = .indexInternal ∧ NodeIs pg.body level invalidPage es ∧
    es.map InternalEntry.bare = kidEntries kids

/-- The pages of `t` read as its nodes. -/
def Reads (pages : PageId → Option Page) : {n : Nat} → KTree n → Prop
  | 0, t => LeafAt pages (Leaf.page t) (Leaf.next t) (Leaf.entries t)
  | n + 1, t => BranchReads pages (Branch.page t) (n + 1) (kidPages (Branch.kids t)) ∧
    ∀ kc ∈ Branch.kids t, Reads pages kc.2

theorem LeafAt.congr {pages pages' : PageId → Option Page} {p next : PageId} {es : List LeafEntry}
    (h : LeafAt pages p next es) (he : pages' p = pages p) : LeafAt pages' p next es := by
  obtain ⟨pg, hpg, h⟩ := h
  exact ⟨pg, he.trans hpg, h⟩

theorem BranchAt.congr {pages pages' : PageId → Option Page} {p : PageId} {level : Nat}
    {kids : List (Key × PageId)} (h : BranchAt pages p level kids) (he : pages' p = pages p) :
    BranchAt pages' p level kids := by
  obtain ⟨pg, hpg, h⟩ := h
  exact ⟨pg, he.trans hpg, h⟩

/-- Only the tree's own pages matter. -/
theorem Holds.congr {pages pages' : PageId → Option Page} {n : Nat} {t : KTree n} (h : Holds pages t)
    (he : ∀ p ∈ t.pages, pages' p = pages p) : Holds pages' t := by
  induction t using BTree.Tree.ind with
  | leaf p next es => exact LeafAt.congr h (he p (by simp))
  | branch p kids ih =>
    refine ⟨h.1.congr (he p (by simp)), fun kc hkc => ih kc hkc (h.2 kc hkc) fun q hq => he q ?_⟩
    exact List.mem_cons_of_mem _ (List.mem_flatMap.mpr ⟨kc, hkc, hq⟩)

theorem holds_kids_congr {pages pages' : PageId → Option Page} {n : Nat} {kids : List (Key × KTree n)}
    (h : ∀ kc ∈ kids, Holds pages kc.2)
    (he : ∀ q ∈ kids.flatMap (fun kc => kc.2.pages), pages' q = pages q) : ∀ kc ∈ kids, Holds pages' kc.2 :=
  fun kc hkc => (h kc hkc).congr fun q hq => he q (List.mem_flatMap.mpr ⟨kc, hkc, hq⟩)

/-- The pages of a tree on pages are allocated. -/
theorem Holds.allocated {pages : PageId → Option Page} {n : Nat} {t : KTree n} (h : Holds pages t) :
    ∀ p ∈ t.pages, pages p ≠ none := by
  induction t using BTree.Tree.ind with
  | leaf p next es =>
    obtain ⟨pg, hpg, -⟩ := holds_leaf.mp h
    simp [hpg]
  | branch p kids ih =>
    intro q hq
    rcases List.mem_cons.mp hq with rfl | hq
    · obtain ⟨pg, hpg, -⟩ := (holds_branch.mp h).1
      simp [hpg]
    · obtain ⟨kc, hkc, hq⟩ := List.mem_flatMap.mp hq
      exact ih kc hkc (h.2 kc hkc) q hq

/-! The entries of an internal node. -/

@[simp] theorem kidEntries_reserved (kids : List (Key × PageId)) :
    (kidEntries kids).map InternalEntry.bare = kidEntries kids := by
  cases kids with
  | nil => rfl
  | cons kc kids => simp [kidEntries, InternalNode.canonical, InternalEntry.bare]

theorem BranchAt.reads {pages : PageId → Option Page} {p : PageId} {level : Nat} {kids : List (Key × PageId)}
    (h : BranchAt pages p level kids) : BranchReads pages p level kids := by
  obtain ⟨pg, hpg, htype, hnode⟩ := h
  exact ⟨pg, _, hpg, htype, hnode, kidEntries_reserved kids⟩

theorem Holds.reads {pages : PageId → Option Page} {n : Nat} {t : KTree n} (h : Holds pages t) : Reads pages t := by
  induction t using BTree.Tree.ind with
  | leaf p next es => exact h
  | branch p kids ih => exact ⟨h.1.reads, fun kc hkc => ih kc hkc (h.2 kc hkc)⟩

@[simp] theorem length_kidEntries (kids : List (Key × PageId)) : (kidEntries kids).length = kids.length := by
  simp [kidEntries]

@[simp] theorem length_kidPages {n : Nat} (kids : List (Key × KTree n)) : (kidPages kids).length = kids.length := by
  simp [kidPages]

theorem kidEntries_cons (k : Key) (c : PageId) (kids : List (Key × PageId)) :
    kidEntries ((k, c) :: kids) = ⟨int64Min, c, 0⟩ :: kids.map fun kc => ⟨kc.1, kc.2, 0⟩ := rfl

theorem tail_kidEntries (kids : List (Key × PageId)) :
    (kidEntries kids).tail = kids.tail.map fun kc => ⟨kc.1, kc.2, 0⟩ := by
  cases kids <;> rfl

theorem routeIndex_kidEntries {n : Nat} (kids : List (Key × KTree n)) (key : Key) :
    routeIndex (kidEntries (kidPages kids)) key = route kids key := by
  rw [routeIndex, tail_kidEntries, route, kidPages, ← List.map_tail, List.countP_map, List.countP_map]
  rfl

theorem kidEntries_getElem? {kids : List (Key × PageId)} {i : Nat} {k : Key} {c : PageId}
    (h : kids[i]? = some (k, c)) :
    ∃ k', (kidEntries kids)[i]? = some ⟨k', c, 0⟩ ∧ (1 ≤ i → k' = k) := by
  cases kids with
  | nil => simp at h
  | cons kc kids =>
    cases i with
    | zero =>
      simp only [List.getElem?_cons_zero, Option.some.injEq] at h
      exact ⟨int64Min, by rw [h, kidEntries_cons]; rfl, by simp⟩
    | succ i =>
      simp only [List.getElem?_cons_succ] at h
      exact ⟨k, by rw [kidEntries_cons]; simp [h], fun _ => rfl⟩

section Canonical
open InternalNode
variable (es fs : List InternalEntry)

@[simp] theorem canonical_canonical : canonical (canonical es) = canonical es := by cases es <;> rfl

theorem canonical_append (h : es ≠ []) : canonical (es ++ fs) = canonical es ++ fs := by
  cases es with
  | nil => exact absurd rfl h
  | cons e es => rfl

theorem take_canonical (i : Nat) : (canonical es).take i = canonical (es.take i) := by
  cases es <;> cases i <;> rfl

theorem drop_canonical {i : Nat} (h : 1 ≤ i) : (canonical es).drop i = es.drop i := by
  cases es with
  | nil => rfl
  | cons e es =>
    cases i with
    | zero => omega
    | succ i => rfl

theorem canonical_set {i : Nat} (h : 1 ≤ i) (e : InternalEntry) : (canonical es).set i e = canonical (es.set i e) := by
  cases es with
  | nil => rfl
  | cons e es =>
    cases i with
    | zero => omega
    | succ i => rfl

@[simp] theorem withHeadKey_canonical (sep : Key) : withHeadKey sep (canonical es) = withHeadKey sep es := by
  cases es <;> rfl

end Canonical

section Kids
variable (kids kids' : List (Key × PageId))

theorem kidEntries_insert {i : Nat} (h : 1 ≤ i) (hi : i ≤ kids.length) (k : Key) (c : PageId) :
    (kidEntries kids).take i ++ ⟨k, c, 0⟩ :: (kidEntries kids).drop i
      = kidEntries (kids.take i ++ (k, c) :: kids.drop i) := by
  have hne : (kids.take i).map (fun kc : Key × PageId => (⟨kc.1, kc.2, 0⟩ : InternalEntry)) ≠ [] := by
    simp only [ne_eq, List.map_eq_nil_iff, List.take_eq_nil_iff]
    rintro (rfl | rfl)
    · omega
    · simp at hi; omega
  rw [kidEntries, kidEntries, take_canonical, drop_canonical _ h, List.map_append, canonical_append _ _ hne]
  simp

theorem kidEntries_erase {i : Nat} (h : 1 ≤ i) (hi : i < kids.length) :
    (kidEntries kids).take i ++ (kidEntries kids).drop (i + 1)
      = kidEntries (kids.take i ++ kids.drop (i + 1)) := by
  have hne : (kids.take i).map (fun kc : Key × PageId => (⟨kc.1, kc.2, 0⟩ : InternalEntry)) ≠ [] := by
    simp only [ne_eq, List.map_eq_nil_iff, List.take_eq_nil_iff]
    rintro (rfl | rfl)
    · omega
    · simp at hi
  rw [kidEntries, kidEntries, take_canonical, drop_canonical _ (by omega), List.map_append,
    canonical_append _ _ hne]
  simp

theorem kidEntries_set {i : Nat} (h : 1 ≤ i) (k : Key) (c : PageId) :
    (kidEntries kids).set i ⟨k, c, 0⟩ = kidEntries (kids.set i (k, c)) := by
  rw [kidEntries, kidEntries, canonical_set _ h, List.map_set]

theorem canonical_take_kidEntries (m : Nat) :
    InternalNode.canonical ((kidEntries kids).take m) = kidEntries (kids.take m) := by
  rw [kidEntries, kidEntries, take_canonical, canonical_canonical, List.map_take]

theorem canonical_drop_kidEntries (m : Nat) :
    InternalNode.canonical ((kidEntries kids).drop m) = kidEntries (kids.drop m) := by
  rcases Nat.eq_zero_or_pos m with rfl | h
  · simp [kidEntries]
  · rw [kidEntries, kidEntries, drop_canonical _ h, List.map_drop]

theorem kidEntries_join (h : kids ≠ []) (sep : Key) :
    kidEntries kids ++ withHeadKey sep (kidEntries kids') = kidEntries (kids ++ withHead sep kids') := by
  rw [kidEntries, kidEntries, kidEntries, withHeadKey_canonical, List.map_append,
    canonical_append _ _ (by simpa using h)]
  cases kids' <;> rfl

end Kids

theorem kidPages_withHead {n : Nat} (sep : Key) (kids : List (Key × KTree n)) :
    kidPages (withHead sep kids) = withHead sep (kidPages kids) := by
  cases kids <;> rfl

/-! The header page. -/

theorem IndexHeader.readFrom_writeTo {h : IndexHeader} (h1 : h.height < 65536) (h2 : h.leafMax < 65536)
    (h3 : h.internalMax < 65536) (h4 : h.reserved < 65536) (b : Body) :
    IndexHeader.readFrom (h.writeTo b) = h := by
  have hlen : h.bytes.length = 12 := by simp [IndexHeader.bytes, pageIdBytes]
  have hs : ∀ i w, i + w ≤ 12 → (h.writeTo b).slice i w = (h.bytes.drop i).take w := by
    intro i w hiw
    rw [IndexHeader.writeTo, Bytes.Region.slice_write_inside (by simp [pageBodySize]; omega) (by omega)
      (by omega), Nat.sub_zero]
  have hp : (pageIdBytes h.rootPageId).length = 4 := by simp [pageIdBytes]
  have e0 := Bytes.field_eq (a := []) (b := pageIdBytes h.rootPageId) (c := Bytes.leBytes 2 h.height ++
    Bytes.leBytes 2 h.leafMax ++ Bytes.leBytes 2 h.internalMax ++ Bytes.leBytes 2 h.reserved)
    (i := 0) (w := 4) rfl hp
  have e1 := Bytes.field_eq (a := pageIdBytes h.rootPageId) (b := Bytes.leBytes 2 h.height)
    (c := Bytes.leBytes 2 h.leafMax ++ Bytes.leBytes 2 h.internalMax ++ Bytes.leBytes 2 h.reserved)
    (i := 4) (w := 2) hp (by simp)
  have e2 := Bytes.field_eq (a := pageIdBytes h.rootPageId ++ Bytes.leBytes 2 h.height)
    (b := Bytes.leBytes 2 h.leafMax) (c := Bytes.leBytes 2 h.internalMax ++ Bytes.leBytes 2 h.reserved)
    (i := 6) (w := 2) (by simp [hp]) (by simp)
  have e3 := Bytes.field_eq (a := pageIdBytes h.rootPageId ++ Bytes.leBytes 2 h.height ++
    Bytes.leBytes 2 h.leafMax) (b := Bytes.leBytes 2 h.internalMax) (c := Bytes.leBytes 2 h.reserved)
    (i := 8) (w := 2) (by simp [hp]) (by simp)
  have e4 := Bytes.field_eq (a := pageIdBytes h.rootPageId ++ Bytes.leBytes 2 h.height ++
    Bytes.leBytes 2 h.leafMax ++ Bytes.leBytes 2 h.internalMax) (b := Bytes.leBytes 2 h.reserved) (c := [])
    (i := 10) (w := 2) (by simp [hp]) (by simp)
  simp only [List.append_assoc, List.append_nil, List.nil_append] at e0 e1 e2 e3 e4
  simp only [IndexHeader.readFrom, hs 0 4 (by omega), hs 4 2 (by omega), hs 6 2 (by omega),
    hs 8 2 (by omega), hs 10 2 (by omega)]
  simp only [IndexHeader.bytes, List.append_assoc]
  rw [e0, e1, e2, e3, e4, Bytes.leNat_leBytes_of_lt h1, Bytes.leNat_leBytes_of_lt h2,
    Bytes.leNat_leBytes_of_lt h3, Bytes.leNat_leBytes_of_lt h4, pageIdOf_bytes]

/-- Page `p` is an index header page with these fields. -/
def HeaderAt (pages : PageId → Option Page) (p : PageId) (h : IndexHeader) : Prop :=
  ∃ pg, pages p = some pg ∧ pg.header.pageType = .indexHeader ∧ IndexHeader.readFrom pg.body = h

theorem HeaderAt.congr {pages pages' : PageId → Option Page} {p : PageId} {h : IndexHeader}
    (hh : HeaderAt pages p h) (he : pages' p = pages p) : HeaderAt pages' p h := by
  obtain ⟨pg, hpg, hh⟩ := hh
  exact ⟨pg, he.trans hpg, hh⟩

/-! The accessors. -/

section Access
variable {s : PageStore} {p next next' : PageId} {es es' : List LeafEntry} {level : Nat}
  {kids kids' : List (Key × PageId)} {E : Status → PageStore → Prop}

theorem LeafAt.some (h : LeafAt s.pages p next es) : s.pages p ≠ none := by
  obtain ⟨pg, hpg, -⟩ := h
  simp [hpg]

theorem BranchAt.some (h : BranchAt s.pages p level kids) : s.pages p ≠ none := by
  obtain ⟨pg, hpg, -⟩ := h
  simp [hpg]

theorem BranchReads.some (h : BranchReads s.pages p level kids) : s.pages p ≠ none := by
  obtain ⟨pg, es, hpg, -⟩ := h
  simp [hpg]

theorem HeaderAt.some {h : IndexHeader} (hh : HeaderAt s.pages p h) : s.pages p ≠ none := by
  obtain ⟨pg, hpg, -⟩ := hh
  simp [hpg]

theorem wp_asLeaf {Q : Body → PageStore → Prop} (h : LeafAt s.pages p next es)
    (hQ : ∀ b, NodeIs b 0 next es → Q b s) : wp (asLeaf p) Q E s := by
  obtain ⟨pg, hpg, hty, hn⟩ := h
  unfold asLeaf
  rw [wp_bind, wp_guarded hpg, if_neg (by simp [hty]), wp_pure]
  exact hQ _ hn

theorem wp_asInternal {Q : Body → PageStore → Prop} (h : BranchAt s.pages p level kids)
    (hQ : ∀ b, NodeIs b level invalidPage (kidEntries kids) → Q b s) : wp (asInternal p) Q E s := by
  obtain ⟨pg, hpg, hty, hn⟩ := h
  unfold asInternal
  rw [wp_bind, wp_guarded hpg, if_neg (by simp [hty]), wp_pure]
  exact hQ _ hn

theorem wp_asInternal_reads {Q : Body → PageStore → Prop} (h : BranchReads s.pages p level kids)
    (hQ : ∀ b es, NodeIs b level invalidPage es → es.map InternalEntry.bare = kidEntries kids → Q b s) :
    wp (asInternal p) Q E s := by
  obtain ⟨pg, es, hpg, hty, hn, hes⟩ := h
  unfold asInternal
  rw [wp_bind, wp_guarded hpg, if_neg (by simp [hty]), wp_pure]
  exact hQ _ es hn hes

theorem wp_readIndexHeader {h : IndexHeader} {Q : IndexHeader → PageStore → Prop}
    (hh : HeaderAt s.pages p h) (hQ : Q h s) : wp (readIndexHeader p) Q E s := by
  obtain ⟨pg, hpg, hty, rfl⟩ := hh
  unfold readIndexHeader
  rw [wp_bind, wp_guarded hpg, if_neg (by simp [hty]), wp_pure]
  exact hQ

variable {Q : Unit → PageStore → Prop}

theorem wp_setLeaf {b : Body} (h : LeafAt s.pages p next es) (hb : NodeIs b 0 next' es')
    (hQ : ∀ s', Touches {p} s s' → LeafAt s'.pages p next' es' → Q () s') : wp (setBody p b) Q E s := by
  obtain ⟨pg, hpg, hty, -⟩ := h
  rw [wp_setBody hpg]
  exact hQ _ (.setPage hpg _) ⟨_, PageStore.setPage_same _ _ _, hty, hb⟩

theorem wp_setBranch {b : Body} {level' : Nat} (h : BranchAt s.pages p level kids)
    (hb : NodeIs b level' invalidPage (kidEntries kids'))
    (hQ : ∀ s', Touches {p} s s' → BranchAt s'.pages p level' kids' → Q () s') : wp (setBody p b) Q E s := by
  obtain ⟨pg, hpg, hty, -⟩ := h
  rw [wp_setBody hpg]
  exact hQ _ (.setPage hpg _) ⟨_, PageStore.setPage_same _ _ _, hty, hb⟩

theorem wp_editLeaf {f : Body → Option Body} (h : LeafAt s.pages p next es)
    (hf : ∀ b, NodeIs b 0 next es → ∃ b', f b = some b' ∧ NodeIs b' 0 next' es')
    (hQ : ∀ s', Touches {p} s s' → LeafAt s'.pages p next' es' → Q () s') : wp (editLeaf p f) Q E s := by
  unfold editLeaf
  rw [wp_bind, wp_orFault]
  refine wp_asLeaf h fun b hb => ?_
  obtain ⟨b', hb', hn⟩ := hf b hb
  rw [wp_bind, wp_lift]
  exact ⟨b', hb', wp_setLeaf h hn hQ⟩

theorem wp_editInternal {f : Body → Option Body} {level' : Nat} (h : BranchAt s.pages p level kids)
    (hf : ∀ b, NodeIs b level invalidPage (kidEntries kids) →
      ∃ b', f b = some b' ∧ NodeIs b' level' invalidPage (kidEntries kids'))
    (hQ : ∀ s', Touches {p} s s' → BranchAt s'.pages p level' kids' → Q () s') : wp (editInternal p f) Q E s := by
  unfold editInternal
  rw [wp_bind, wp_orFault]
  refine wp_asInternal h fun b hb => ?_
  obtain ⟨b', hb', hn⟩ := hf b hb
  rw [wp_bind, wp_lift]
  exact ⟨b', hb', wp_setBranch h hn hQ⟩

theorem wp_writeIndexHeader {h h' : IndexHeader} (hh : HeaderAt s.pages p h) (h1 : h'.height < 65536)
    (h2 : h'.leafMax < 65536) (h3 : h'.internalMax < 65536) (h4 : h'.reserved < 65536)
    (hQ : ∀ s', Touches {p} s s' → HeaderAt s'.pages p h' → Q () s') : wp (writeIndexHeader p h') Q E s := by
  obtain ⟨pg, hpg, hty, -⟩ := hh
  unfold writeIndexHeader
  rw [wp_bind, wp_guarded hpg, if_neg (by simp [hty]), wp_setBody hpg]
  exact hQ _ (.setPage hpg _)
    ⟨_, PageStore.setPage_same _ _ _, hty, IndexHeader.readFrom_writeTo h1 h2 h3 h4 _⟩

/-- Page `p` is allocated and typed `type`. -/
def TypedAt (pages : PageId → Option Page) (p : PageId) (type : PageType) : Prop :=
  ∃ pg, pages p = some pg ∧ pg.header.pageType = type

theorem wp_stamp {type : PageType} (h : s.pages p ≠ none)
    (hQ : ∀ s', Touches {p} s s' → TypedAt s'.pages p type → Q () s') : wp (setPageType p type) Q E s := by
  obtain ⟨pg, hpg⟩ := Option.ne_none_iff_exists'.mp h
  rw [wp_setPageType hpg]
  exact hQ _ (.setPage hpg _) ⟨_, PageStore.setPage_same _ _ _, rfl⟩

theorem LeafNode.init_is (b : Body) : NodeIs (LeafNode.init b) 0 invalidPage ([] : List LeafEntry) :=
  ⟨Node.header_writeHeader b (by simp) (by simp), by simp, by simp⟩

theorem InternalNode.init_eq (b : Body) (h1 : 1 ≤ level) (h2 : level < 65536) : ∃ b',
    InternalNode.init b level = some b' ∧ NodeIs b' level invalidPage (kidEntries []) := by
  refine ⟨Node.writeHeader b ⟨level, 0, invalidPage⟩, by simp [InternalNode.init, h1], ?_⟩
  exact ⟨Node.header_writeHeader b h2 (by simp), by simp, by simp⟩

/-- `Init` on a freshly typed page. -/
theorem wp_initLeaf (h : TypedAt s.pages p .indexLeaf)
    (hQ : ∀ s', Touches {p} s s' → LeafAt s'.pages p invalidPage [] → Q () s') :
    wp (editLeaf p fun b => some (LeafNode.init b)) Q E s := by
  obtain ⟨pg, hpg, hty⟩ := h
  unfold editLeaf asLeaf
  rw [wp_bind, wp_orFault, wp_bind, wp_guarded hpg, if_neg (by simp [hty]), wp_pure, wp_bind, wp_lift]
  refine ⟨_, rfl, ?_⟩
  rw [wp_setBody hpg]
  exact hQ _ (.setPage hpg _) ⟨_, PageStore.setPage_same _ _ _, hty, LeafNode.init_is _⟩

theorem wp_initInternal (h : TypedAt s.pages p .indexInternal) (h1 : 1 ≤ level) (h2 : level < 65536)
    (hQ : ∀ s', Touches {p} s s' → BranchAt s'.pages p level [] → Q () s') :
    wp (editInternal p fun b => InternalNode.init b level) Q E s := by
  obtain ⟨pg, hpg, hty⟩ := h
  unfold editInternal asInternal
  obtain ⟨b', hb', hn⟩ := InternalNode.init_eq pg.body h1 h2
  rw [wp_bind, wp_orFault, wp_bind, wp_guarded hpg, if_neg (by simp [hty]), wp_pure, wp_bind, wp_lift]
  refine ⟨b', hb', ?_⟩
  rw [wp_setBody hpg]
  exact hQ _ (.setPage hpg _) ⟨_, PageStore.setPage_same _ _ _, hty, hn⟩

end Access
end KernSql
