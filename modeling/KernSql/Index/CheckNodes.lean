import KernSql.Index.Check

/- What the node checks establish, for any bytes whatsoever.

   `CheckInvariants` of a node starts with the count, and from there on every
   access is inside the page: it has an answer on every body. Where it answers
   true, the body reads as a node with the entries that its bytes spell out, in
   order. The tests of the whole-tree check on one page inherit both: `wp_examineLeaf`
   and `wp_examineInternal` have no assumption but that there is a page. -/
namespace KernSql
open Exec

namespace Node
variable {E : Type} [NodeEntry E]

/-- The entries in use, as the bytes have them. -/
def entries (E : Type) [NodeEntry E] (b : Body) : List E := (List.range (count b)).map (raw E b)

theorem is_entries {b : Body} (h : count b ≤ nodeCapacity) :
    NodeIs b (header b).level (header b).nextPageId (entries E b) where
  header_eq := by
    have hcount : (header b).count = (entries E b).length := by simp [entries, count]
    rw [← hcount]
  cap := by simpa [entries] using h
  entry i hi := by simp [entries]

end Node

/-- A smaller key in front of keys that increase. -/
theorem increase_cons {E : Type} {key : E → Key} {a b : E} {l : List E} (hab : key a < key b)
    (h : (b :: l).Pairwise fun x y => key x < key y) : (a :: b :: l).Pairwise fun x y => key x < key y := by
  refine List.pairwise_cons.mpr ⟨fun c hc => ?_, h⟩
  cases List.mem_cons.mp hc with
  | inl hcb => exact hcb ▸ hab
  | inr hcl => exact lt_trans hab ((List.pairwise_cons.mp h).1 c hcl)

section Leaves
variable {b : Body} {level : Nat} {next : PageId} {es : List LeafEntry}

/-- The entry loop of a leaf has an answer; if it is true the ids are valid and the keys increase from the
entry before the first one looked at. -/
theorem checkEntries_leaf_inv (h : NodeIs b level next es) : ∀ left i, i + left = es.length →
    ∃ r, LeafNode.checkEntries b left i = some r ∧
      (r = true → (∀ e ∈ es.drop i, e.rid.isValid = true) ∧ KeysIncrease (es.drop (i - 1)))
  | 0, i, hi => by
    refine ⟨true, rfl, fun _ => ⟨?_, ?_⟩⟩
    · rw [List.drop_of_length_le (by omega)]
      simp
    · have hlen : (es.drop (i - 1)).length ≤ 1 := by rw [List.length_drop]; omega
      match hd : es.drop (i - 1), hlen with
      | [], _ => exact .nil
      | [e], _ => exact List.pairwise_singleton _ _
  | left + 1, i, hi => by
    have hcap := h.cap
    simp only [nodeCapacity] at hcap
    have hlt : i < es.length := by omega
    have hdrop := List.drop_eq_getElem_cons hlt
    obtain ⟨r, hr, hinv⟩ := checkEntries_leaf_inv h left (i + 1) (by omega)
    rw [Nat.add_sub_cancel] at hinv
    rw [LeafNode.checkEntries, LeafNode.entryAt, h.entryAt hlt]
    simp only [Option.bind_eq_bind, Option.bind_some, Option.pure_def]
    cases hv : es[i].rid.isValid with
    | false => exact ⟨false, by simp, by simp⟩
    | true =>
      have hvalid : (∀ e ∈ es.drop (i + 1), e.rid.isValid = true) → ∀ e ∈ es.drop i, e.rid.isValid = true := by
        intro hrest
        rw [hdrop]
        exact List.forall_mem_cons.mpr ⟨hv, hrest⟩
      rw [if_neg (by simp)]
      by_cases h0 : 0 < i
      · have hprev : i - 1 < es.length := by omega
        rw [if_pos h0, u16_of_lt (by omega), BPlusTree.leaf_keyAt h hprev]
        simp only [Option.bind_some]
        by_cases hle : es[i].key ≤ es[i - 1].key
        · exact ⟨false, if_pos hle, by simp⟩
        · refine ⟨r, by rw [if_neg hle]; exact hr, fun hrt => ?_⟩
          obtain ⟨hvs, hinc⟩ := hinv hrt
          refine ⟨hvalid hvs, ?_⟩
          have hstep : es.drop (i - 1) = es[i - 1] :: es.drop i := by
            rw [List.drop_eq_getElem_cons hprev, Nat.sub_add_cancel h0]
          rw [hstep, hdrop]
          rw [hdrop] at hinc
          exact increase_cons (not_le.mp hle) hinc
      · refine ⟨r, by rw [if_neg h0]; exact hr, fun hrt => ?_⟩
        obtain ⟨hvs, hinc⟩ := hinv hrt
        have hi0 : i = 0 := by omega
        subst hi0
        exact ⟨hvalid hvs, hinc⟩

theorem checkInvariants_leaf_inv (b : Body) : ∃ r, LeafNode.checkInvariants b = some r ∧
    (r = true → ∃ es, NodeIs b 0 (LeafNode.nextLeaf b) es ∧ KeysIncrease es ∧ (∀ e ∈ es, e.rid.isValid = true) ∧
      (LeafNode.nextLeaf b = invalidPage ∨ catalogRootPageId < LeafNode.nextLeaf b)) := by
  unfold LeafNode.checkInvariants
  dsimp only
  by_cases hcap : nodeCapacity < (LeafNode.header b).count
  · exact ⟨false, if_pos hcap, by simp⟩
  by_cases hlevel : (LeafNode.header b).level ≠ 0
  · exact ⟨false, by rw [if_neg hcap, if_pos hlevel], by simp⟩
  by_cases hnext : (LeafNode.header b).nextPageId ≠ invalidPage ∧ (LeafNode.header b).nextPageId ≤ catalogRootPageId
  · exact ⟨false, by rw [if_neg hcap, if_neg hlevel, if_pos hnext], by simp⟩
  have his : NodeIs b (Node.header b).level (Node.header b).nextPageId (Node.entries LeafEntry b) :=
    Node.is_entries (not_lt.mp hcap)
  have hlen : (LeafNode.header b).count = (Node.entries LeafEntry b).length := his.count_eq
  obtain ⟨r, hr, hinv⟩ := checkEntries_leaf_inv his _ 0 (Nat.zero_add _)
  refine ⟨r, by rw [if_neg hcap, if_neg hlevel, if_neg hnext, hlen]; exact hr, fun hrt => ?_⟩
  obtain ⟨hvalid, hinc⟩ := hinv hrt
  have hzero : (Node.header b).level = 0 := not_not.mp hlevel
  rw [hzero] at his
  refine ⟨_, his, hinc, hvalid, ?_⟩
  by_cases hend : LeafNode.nextLeaf b = invalidPage
  · exact .inl hend
  · exact .inr (Int32.not_le.mp fun hle => hnext ⟨hend, hle⟩)

theorem checkKeys_inv (lo : Key) (hi : Option Key) (h : NodeIs b level next es) : ∀ left i, i + left = es.length →
    ∃ r, checkKeys b lo hi left i = some r ∧ (r = true → ∀ e ∈ es.drop i, outside lo hi e.key = false)
  | 0, i, hi => ⟨true, rfl, fun _ => by rw [List.drop_of_length_le (by omega)]; simp⟩
  | left + 1, i, hi' => by
    have hcap := h.cap
    simp only [nodeCapacity] at hcap
    have hlt : i < es.length := by omega
    obtain ⟨r, hr, hinv⟩ := checkKeys_inv lo hi h left (i + 1) (by omega)
    rw [checkKeys, u16_of_lt (by omega), BPlusTree.leaf_keyAt h hlt]
    simp only [Option.bind_eq_bind, Option.bind_some, Option.pure_def]
    cases hout : outside lo hi es[i].key with
    | true => exact ⟨false, if_pos rfl, by simp⟩
    | false =>
      refine ⟨r, by rw [if_neg (by simp)]; exact hr, fun hrt => ?_⟩
      rw [List.drop_eq_getElem_cons hlt]
      exact List.forall_mem_cons.mpr ⟨hout, hinv hrt⟩

end Leaves

section Internals
variable {b : Body} {level : Nat} {next : PageId} {es : List InternalEntry}

theorem child_data {p : PageId} (h : ¬(p = invalidPage ∨ p ≤ catalogRootPageId)) : catalogRootPageId < p :=
  Int32.not_le.mp (not_or.mp h).2

/-- The entry loop past entry 0 has an answer; if it is true the children are data pages and the separators
increase from `prev`. -/
theorem checkEntries_internal_inv (h : NodeIs b level next es) : ∀ left i prev, 1 ≤ i → i + left = es.length →
    ∃ r, InternalNode.checkEntries b left i prev = some r ∧
      (r = true → (∀ e ∈ es.drop i, catalogRootPageId < e.child) ∧ (∀ e ∈ es.drop i, prev < e.key) ∧
        (es.drop i).Pairwise fun x y => x.key < y.key)
  | 0, i, prev, _, hi => ⟨true, rfl, fun _ => by rw [List.drop_of_length_le (by omega)]; simp⟩
  | left + 1, i, prev, h1, hi => by
    have hlt : i < es.length := by omega
    obtain ⟨r, hr, hinv⟩ := checkEntries_internal_inv h left (i + 1) es[i].key (by omega) (by omega)
    rw [InternalNode.checkEntries, InternalNode.entryAt, h.entryAt hlt]
    simp only [Option.bind_eq_bind, Option.bind_some, Option.pure_def]
    by_cases hchild : es[i].child = invalidPage ∨ es[i].child ≤ catalogRootPageId
    · exact ⟨false, if_pos hchild, by simp⟩
    by_cases hle : es[i].key ≤ prev
    · exact ⟨false, by rw [if_neg hchild, if_neg (by omega), if_pos hle], by simp⟩
    · refine ⟨r, by rw [if_neg hchild, if_neg (by omega), if_neg hle]; exact hr, fun hrt => ?_⟩
      obtain ⟨hids, hbelow, hinc⟩ := hinv hrt
      rw [List.drop_eq_getElem_cons hlt]
      refine ⟨List.forall_mem_cons.mpr ⟨child_data hchild, hids⟩, List.forall_mem_cons.mpr ⟨not_le.mp hle, ?_⟩,
        List.pairwise_cons.mpr ⟨hbelow, hinc⟩⟩
      exact fun e he => lt_trans (not_le.mp hle) (hbelow e he)

/-- What a node's own check says of an internal node. -/
structure SoundNode (b : Body) (es : List InternalEntry) : Prop where
  node : NodeIs b (InternalNode.level b) invalidPage es
  ids : ∀ e ∈ es, catalogRootPageId < e.child
  first : ∀ e ∈ es.head?, e.key = int64Min
  above : ∀ e ∈ es.tail, int64Min < e.key
  increase : es.tail.Pairwise fun x y => x.key < y.key

theorem checkInvariants_internal_inv (b : Body) : ∃ r, InternalNode.checkInvariants b = some r ∧
    (r = true → 1 ≤ InternalNode.level b ∧ ∃ es, SoundNode b es) := by
  unfold InternalNode.checkInvariants
  dsimp only
  by_cases hcap : nodeCapacity < (InternalNode.header b).count
  · exact ⟨false, if_pos hcap, by simp⟩
  by_cases hlevel : (InternalNode.header b).level < 1
  · exact ⟨false, by rw [if_neg hcap, if_pos hlevel], by simp⟩
  by_cases hnext : (InternalNode.header b).nextPageId ≠ invalidPage
  · exact ⟨false, by rw [if_neg hcap, if_neg hlevel, if_pos hnext], by simp⟩
  have his : NodeIs b (Node.header b).level (Node.header b).nextPageId (Node.entries InternalEntry b) :=
    Node.is_entries (not_lt.mp hcap)
  have hlen : (InternalNode.header b).count = (Node.entries InternalEntry b).length := his.count_eq
  rw [show (Node.header b).nextPageId = invalidPage from not_not.mp hnext] at his
  rw [if_neg hcap, if_neg hlevel, if_neg hnext, hlen]
  match hes : Node.entries InternalEntry b with
  | [] =>
    rw [hes] at his
    exact ⟨true, rfl, fun _ => ⟨not_lt.mp hlevel, [], his, by simp, by simp, by simp, .nil⟩⟩
  | e :: rest =>
    rw [hes] at his
    have hentry : InternalNode.entryAt b 0 = some e := his.entryAt (i := 0) (by simp)
    rw [List.length_cons, InternalNode.checkEntries, hentry]
    simp only [Option.bind_eq_bind, Option.bind_some, Option.pure_def, if_true]
    by_cases hchild : e.child = invalidPage ∨ e.child ≤ catalogRootPageId
    · exact ⟨false, if_pos hchild, by simp⟩
    by_cases hkey : e.key ≠ int64Min
    · exact ⟨false, by rw [if_neg hchild, if_pos hkey], by simp⟩
    obtain ⟨r, hr, hinv⟩ := checkEntries_internal_inv his rest.length 1 int64Min (le_refl _) (by simp; omega)
    refine ⟨r, by rw [if_neg hchild, if_neg hkey]; exact hr, fun hrt => ⟨not_lt.mp hlevel, e :: rest, his, ?_, ?_, ?_, ?_⟩⟩
    · exact List.forall_mem_cons.mpr ⟨child_data hchild, (hinv hrt).1⟩
    · simpa using not_not.mp hkey
    · exact (hinv hrt).2.1
    · exact (hinv hrt).2.2

end Internals

/-! The tests of the whole-tree check on one page. -/

namespace BPlusTree
variable {t : BPlusTree} {s : PageStore} {p : PageId} {pg : Page} {lo : Key} {hi : Option Key} {isRoot : Bool}

/-- What the tests of a leaf page establish. -/
structure PassedLeaf (t : BPlusTree) (pages : PageId → Option Page) (p : PageId) (lo : Key) (hi : Option Key)
    (isRoot : Bool) (next : PageId) (es : List LeafEntry) : Prop where
  leaf : LeafAt pages p next es
  increase : KeysIncrease es
  rids : ∀ e ∈ es, e.rid.isValid = true
  inside : ∀ e ∈ es, outside lo hi e.key = false
  min : (if isRoot then 0 else leafMinEntries t.leafMax) ≤ es.length
  max : es.length ≤ t.leafMax

/-- What the tests of an internal page establish. -/
structure PassedInternal (t : BPlusTree) (pages : PageId → Option Page) (p : PageId) (level : Nat) (isRoot : Bool)
    (es : List InternalEntry) : Prop where
  page : ∃ pg, pages p = some pg ∧ pg.header.pageType = .indexInternal ∧ SoundNode pg.body es ∧
    InternalNode.level pg.body = level
  min : (if isRoot then 2 else internalMinChildren t.internalMax) ≤ es.length
  max : es.length ≤ t.internalMax

/-- Whatever a page holds, the tests of a leaf come to an answer. -/
theorem wp_checkLeaf_any (hpg : s.pages p = some pg) :
    wp (checkLeaf t p lo hi isRoot)
      (fun r s' => s' = s ∧ ∀ next, r = some next → ∃ es, PassedLeaf t s.pages p lo hi isRoot next es)
      (fun _ s' => s' = s) s := by
  unfold checkLeaf asLeaf
  rw [wp_bind, wp_bind, wp_guarded hpg, wp_ite]
  refine ⟨fun _ => rfl, fun htype => ?_⟩
  have hleafType := not_not.mp htype
  obtain ⟨r, hr, hinv⟩ := checkInvariants_leaf_inv pg.body
  rw [wp_pure, wp_bind, wp_lift]
  refine ⟨r, hr, ?_⟩
  cases r with
  | false => exact ⟨rfl, by simp⟩
  | true =>
    obtain ⟨es, his, hinc, hvalid, -⟩ := hinv rfl
    have hcount : LeafNode.count pg.body = es.length := his.count_eq
    rw [if_neg (by simp), wp_ite]
    refine ⟨fun _ => ⟨rfl, by simp⟩, fun hsize => ?_⟩
    obtain ⟨k, hk, hin⟩ := checkKeys_inv lo hi his _ 0 (Nat.zero_add _)
    rw [wp_bind, wp_lift, hcount]
    refine ⟨k, hk, ?_⟩
    cases k with
    | false => exact ⟨rfl, by simp⟩
    | true =>
      rw [if_neg (by simp), wp_pure]
      refine ⟨rfl, fun next hnext => ⟨es, ⟨pg, hpg, hleafType, Option.some.inj hnext ▸ his⟩, hinc, hvalid, hin rfl, ?_, ?_⟩⟩
      · exact hcount ▸ not_lt.mp (not_or.mp hsize).1
      · exact hcount ▸ not_lt.mp (not_or.mp hsize).2

/-- Whatever a page holds, the tests of an internal node come to an answer. -/
theorem wp_checkInternal_any {level : Nat} (hpg : s.pages p = some pg) :
    wp (checkInternal t p level isRoot)
      (fun r s' => s' = s ∧ ∀ es, r = some es → PassedInternal t s.pages p level isRoot es)
      (fun _ s' => s' = s) s := by
  unfold checkInternal asInternal
  rw [wp_bind, wp_bind, wp_guarded hpg, wp_ite]
  refine ⟨fun _ => rfl, fun htype => ?_⟩
  obtain ⟨r, hr, hinv⟩ := checkInvariants_internal_inv pg.body
  rw [wp_pure, wp_bind, wp_lift]
  refine ⟨r, hr, ?_⟩
  cases r with
  | false => exact ⟨rfl, by simp⟩
  | true =>
    obtain ⟨-, es, hnode⟩ := hinv rfl
    have hcount : InternalNode.count pg.body = es.length := hnode.node.count_eq
    rw [if_neg (by simp), wp_ite]
    refine ⟨fun _ => ⟨rfl, by simp⟩, fun hlevel => ?_⟩
    rw [wp_ite]
    refine ⟨fun _ => ⟨rfl, by simp⟩, fun hsize => ?_⟩
    rw [wp_bind, wp_lift, hcount]
    refine ⟨es, copyEntries_eq hnode.node _ 0 (Nat.zero_add _), rfl, fun es' hes => ?_⟩
    rw [← Option.some.inj hes]
    refine ⟨⟨pg, hpg, not_not.mp htype, hnode, not_not.mp hlevel⟩, ?_, ?_⟩
    · exact hcount ▸ not_lt.mp (not_or.mp hsize).1
    · exact hcount ▸ not_lt.mp (not_or.mp hsize).2

theorem wp_readIndexHeader_any (hpg : s.pages p = some pg) :
    wp (readIndexHeader p) (fun h s' => s' = s ∧ HeaderAt s.pages p h) (fun _ s' => s' = s) s := by
  unfold readIndexHeader
  rw [wp_bind, wp_guarded hpg, wp_ite]
  exact ⟨fun _ => rfl, fun htype => ⟨rfl, pg, hpg, not_not.mp htype, rfl⟩⟩

end BPlusTree
end KernSql
