import KernSql.Lib.BTree.Insert

/- Deleting an entry.

   The entry leaves its leaf. A node left short of its minimum is made good from a
   neighbour under the same parent, the one on its left if there is one: a
   neighbour with items to spare lends one (`recut`), otherwise the two become one
   node (`join`) on the left one's page and the parent has lost a child. A root
   left with a single child is replaced by it.

   `deleteRec` returns the node, whether it lost an item, and the pages no longer
   used, lowest first. Lending and joining are the same thing for the order, the
   entries and the chain: the items of two neighbours put together and, when
   lending, cut again one further. -/
namespace BTree
variable {P K E C : Type}

/-- The separator comes down in front of the right node's first child. -/
def withHead (sep : K) : List (K × C) → List (K × C)
  | [] => []
  | (_, c) :: rest => (sep, c) :: rest

@[simp] theorem length_withHead (sep : K) (kids : List (K × C)) :
    (withHead sep kids).length = kids.length := by
  cases kids <;> rfl

@[simp] theorem flatMap_withHead {α : Type} (f : C → List α) (sep : K) (kids : List (K × C)) :
    ((withHead sep kids).flatMap fun kc => f kc.2) = kids.flatMap fun kc => f kc.2 := by
  cases kids <;> rfl

theorem forall_withHead {Q : C → Prop} {sep : K} {kids : List (K × C)} (h : ∀ kc ∈ kids, Q kc.2) :
    ∀ kc ∈ withHead sep kids, Q kc.2 := by
  cases kids with
  | nil => exact h
  | cons kc kids => simpa [withHead] using h

/-- Two neighbours as one node, on the left one's page. -/
def join (sep : K) : {n : Nat} → Tree P K E n → Tree P K E n → Tree P K E n
  | 0, l, r => .leaf (Leaf.page l) (Leaf.next r) (Leaf.entries l ++ Leaf.entries r)
  | _ + 1, l, r => .branch (Branch.page l) (Branch.kids l ++ withHead sep (Branch.kids r))

/-- Two neighbours' items shared out again, `m` of them on the left. -/
def recut (key : E → K) (sep : K) (m : Nat) : {n : Nat} → Tree P K E n → Tree P K E n →
    Tree P K E n × K × Tree P K E n
  | 0, l, r =>
    let es := Leaf.entries l ++ Leaf.entries r
    (.leaf (Leaf.page l) (Leaf.next l) (es.take m), (es[m]?).elim sep key,
      .leaf (Leaf.page r) (Leaf.next r) (es.drop m))
  | _ + 1, l, r =>
    let kids := Branch.kids l ++ withHead sep (Branch.kids r)
    (.branch (Branch.page l) (kids.take m), (kids[m]?).elim sep Prod.fst,
      .branch (Branch.page r) (kids.drop m))

section Operation
variable [LinearOrder K] (sh : Shape) (key : E → K)

/-- Make good child `i`, one item short: the children, whether one is gone, the page it was on. -/
def rebalance {n : Nat} (i : Nat) (kids : List (K × Tree P K E n)) :
    List (K × Tree P K E n) × Bool × List P :=
  match kids.drop (i - 1) with
  | (kl, l) :: (kr, r) :: after =>
    if (if 0 < i then l.size else r.size) ≤ sh.min n then
      (kids.take (i - 1) ++ (kl, join kr l r) :: after, true, [r.page])
    else
      let c := recut key kr (if 0 < i then l.size - 1 else l.size + 1) l r
      (kids.take (i - 1) ++ (kl, c.1) :: (c.2.1, c.2.2) :: after, false, [])
  | _ => (kids, false, [])

def deleteRec (x : K) : {n : Nat} → Tree P K E n → Tree P K E n × Bool × List P
  | 0, t =>
    let i := position key (Leaf.entries t) x
    (.leaf (Leaf.page t) (Leaf.next t) ((Leaf.entries t).take i ++ (Leaf.entries t).drop (i + 1)), true, [])
  | n + 1, t =>
    let i := route (Branch.kids t) x
    match (Branch.kids t)[i]? with
    | none => (t, false, [])
    | some (k, c) =>
      let d := deleteRec x c
      let kids := (Branch.kids t).take i ++ (k, d.1) :: (Branch.kids t).drop (i + 1)
      if d.2.1 ∧ c.size ≤ sh.min n then
        let b := rebalance sh key i kids
        (.branch (Branch.page t) b.1, b.2.1, d.2.2 ++ b.2.2)
      else (.branch (Branch.page t) kids, false, d.2.2)

/-- A root with a single child gives way to it. -/
def collapse : (t : Σ n, Tree P K E n) → (Σ n, Tree P K E n) × List P
  | ⟨0, t⟩ => (⟨0, t⟩, [])
  | ⟨n + 1, t⟩ =>
    match Branch.kids t with
    | [(_, c)] => (⟨n, c⟩, [Branch.page t])
    | _ => (⟨n + 1, t⟩, [])

/-- Delete from a whole tree: the tree left, and the pages no longer used. -/
def delete (x : K) (t : Σ n, Tree P K E n) : (Σ n, Tree P K E n) × List P :=
  ((collapse ⟨t.1, (deleteRec sh key x t.2).1⟩).1,
    (deleteRec sh key x t.2).2.2 ++ (collapse ⟨t.1, (deleteRec sh key x t.2).1⟩).2)

end Operation

/-! Neighbours. -/

section Neighbours
variable {n : Nat} (sep : K) (l r : Tree P K E n)

@[simp] theorem join_leaf (p q nx ny : P) (es fs : List E) :
    join sep (.leaf p nx es : Tree P K E 0) (.leaf q ny fs) = .leaf p ny (es ++ fs) := rfl

@[simp] theorem join_branch (p q : P) (ks ks' : List (K × Tree P K E n)) :
    join sep (.branch p ks) (.branch q ks') = .branch p (ks ++ withHead sep ks') := rfl

theorem recut_leaf (key : E → K) (m : Nat) (p q nx ny : P) (es fs : List E) :
    recut key sep m (.leaf p nx es : Tree P K E 0) (.leaf q ny fs) =
      (.leaf p nx ((es ++ fs).take m), ((es ++ fs)[m]?).elim sep key, .leaf q ny ((es ++ fs).drop m)) := rfl

theorem recut_branch (key : E → K) (m : Nat) (p q : P) (ks ks' : List (K × Tree P K E n)) :
    recut key sep m (.branch p ks) (.branch q ks') =
      (.branch p ((ks ++ withHead sep ks').take m), ((ks ++ withHead sep ks')[m]?).elim sep Prod.fst,
        .branch q ((ks ++ withHead sep ks').drop m)) := rfl

/-- Two trees of one height are both leaves or both branches. -/
theorem Tree.cases_two {motive : ∀ {n : Nat}, Tree P K E n → Tree P K E n → Prop}
    (leaf : ∀ p nx es q ny fs, motive (.leaf p nx es) (.leaf q ny fs))
    (branch : ∀ {n : Nat} p (ks : List (K × Tree P K E n)) q ks', motive (.branch p ks) (.branch q ks')) :
    ∀ {n : Nat} (l r : Tree P K E n), motive l r
  | 0, l, r => leaf (Leaf.page l) (Leaf.next l) (Leaf.entries l) (Leaf.page r) (Leaf.next r) (Leaf.entries r)
  | _ + 1, l, r => branch (Branch.page l) (Branch.kids l) (Branch.page r) (Branch.kids r)

@[simp] theorem page_join : (join sep l r).page = l.page := by
  induction l, r using Tree.cases_two <;> rfl

@[simp] theorem toList_join : (join sep l r).toList = l.toList ++ r.toList := by
  induction l, r using Tree.cases_two <;> simp

@[simp] theorem size_join : (join sep l r).size = l.size + r.size := by
  induction l, r using Tree.cases_two <;> simp

theorem links_join : Relinks (l.links ++ r.links) (join sep l r).links := by
  induction l, r using Tree.cases_two with
  | leaf p nx es q ny fs =>
    intro fin h
    simp only [Tree.links_leaf, List.singleton_append, Linked, start] at h
    simp [Linked, start, h.2]
  | branch p ks q ks' => simpa using Relinks.refl _

theorem pages_join : (l.pages ++ r.pages).Perm ((join sep l r).pages ++ [r.page]) := by
  induction l, r using Tree.cases_two with
  | leaf p nx es q ny fs => simp
  | branch p ks q ks' =>
    simp only [join_branch, Tree.pages_branch, Tree.page_branch, List.flatMap_append, flatMap_withHead,
      List.cons_append, List.append_assoc]
    exact (List.perm_middle.trans (List.perm_append_singleton _ _).symm).cons _ |>.trans
      (by simp)

theorem packedBelow_join {sh : Shape} (hl : l.PackedBelow sh) (hr : r.PackedBelow sh) :
    (join sep l r).PackedBelow sh := by
  induction l, r using Tree.cases_two with
  | leaf p nx es q ny fs => trivial
  | branch p ks q ks' =>
    intro kc hkc
    rcases List.mem_append.mp hkc with h | h
    · exact hl kc h
    · exact forall_withHead hr kc h

section Recut
variable (key : E → K) (m : Nat)

@[simp] theorem page_recut_left : (recut key sep m l r).1.page = l.page := by
  induction l, r using Tree.cases_two <;> rfl

@[simp] theorem page_recut_right : (recut key sep m l r).2.2.page = r.page := by
  induction l, r using Tree.cases_two <;> rfl

theorem toList_recut :
    (recut key sep m l r).1.toList ++ (recut key sep m l r).2.2.toList = l.toList ++ r.toList := by
  induction l, r using Tree.cases_two with
  | leaf p nx es q ny fs => simp only [recut_leaf, Tree.toList_leaf, List.take_append_drop]
  | branch p ks q ks' =>
    simp only [recut_branch, Tree.toList_branch, ← List.flatMap_append, List.take_append_drop]
    simp

theorem links_recut :
    (recut key sep m l r).1.links ++ (recut key sep m l r).2.2.links = l.links ++ r.links := by
  induction l, r using Tree.cases_two with
  | leaf p nx es q ny fs => rfl
  | branch p ks q ks' =>
    simp only [recut_branch, Tree.links_branch, ← List.flatMap_append, List.take_append_drop]
    simp

theorem pages_recut : (l.pages ++ r.pages).Perm
    ((recut key sep m l r).1.pages ++ (recut key sep m l r).2.2.pages) := by
  induction l, r using Tree.cases_two with
  | leaf p nx es q ny fs => exact .refl _
  | branch p ks q ks' =>
    have : ((ks ++ withHead sep ks').take m).flatMap (fun kc => kc.2.pages) ++
        ((ks ++ withHead sep ks').drop m).flatMap (fun kc => kc.2.pages)
        = ks.flatMap (fun kc => kc.2.pages) ++ ks'.flatMap fun kc => kc.2.pages := by
      rw [← List.flatMap_append, List.take_append_drop]; simp
    classical
    rw [List.perm_iff_count]
    intro a
    have hcount := congrArg (List.count a) this
    simp only [recut_branch, Tree.pages_branch, List.count_append, List.count_cons, List.cons_append] at hcount ⊢
    omega

theorem size_recut (hm : m ≤ l.size + r.size) : (recut key sep m l r).1.size = m ∧
    (recut key sep m l r).2.2.size = l.size + r.size - m := by
  induction l, r using Tree.cases_two with
  | leaf p nx es q ny fs => simpa [recut_leaf] using hm
  | branch p ks q ks' => simpa [recut_branch] using hm

theorem packedBelow_recut {sh : Shape} (hl : l.PackedBelow sh) (hr : r.PackedBelow sh) :
    (recut key sep m l r).1.PackedBelow sh ∧ (recut key sep m l r).2.2.PackedBelow sh := by
  induction l, r using Tree.cases_two with
  | leaf p nx es q ny fs => exact ⟨trivial, trivial⟩
  | branch p ks q ks' =>
    have hall : ∀ kc ∈ ks ++ withHead sep ks', kc.2.Packed sh := packedBelow_join sep _ _ hl hr
    exact ⟨fun kc hkc => hall kc (List.mem_of_mem_take hkc), fun kc hkc => hall kc (List.mem_of_mem_drop hkc)⟩

end Recut
end Neighbours

section Order
variable [LinearOrder K] {key : E → K} {lo : K} {hi : WithTop K} {n : Nat} {k sep : K} {l r : Tree P K E n}

/-- The children of two neighbours, put together, are in order. -/
theorem KidsIn.joined {B : K → WithTop K → C → Prop} {ks ks' : List (K × C)} (hl : KidsIn B lo sep ks)
    (hr : KidsIn B sep hi ks') (h1 : lo < sep) (h2 : (sep : WithTop K) < hi) :
    KidsIn B lo hi (ks ++ withHead sep ks') := by
  obtain ⟨⟨k', c⟩, rest, rfl⟩ := List.exists_cons_of_ne_nil hr.ne_nil
  exact (append_iff hl.ne_nil).mpr ⟨h1, h2, hl, hr.head_key⟩

theorem ordered_join (h : KidsIn (fun a b c => Tree.Ordered key a b c) lo hi [(k, l), (sep, r)]) :
    (join sep l r).Ordered key lo hi := by
  obtain ⟨h1, h2, hl, hr⟩ := h
  revert hl hr
  induction l, r using Tree.cases_two with
  | leaf p nx es q ny fs => exact fun hl hr => hl.append hr (le_of_lt h1) (le_of_lt h2)
  | branch p ks q ks' => exact fun hl hr => KidsIn.joined hl hr h1 h2

theorem ordered_recut {m : Nat} (h : KidsIn (fun a b c => Tree.Ordered key a b c) lo hi [(k, l), (sep, r)])
    (hm : 1 ≤ m) (hlt : m < l.size + r.size) :
    KidsIn (fun a b c => Tree.Ordered key a b c) lo hi
      [(k, (recut key sep m l r).1), ((recut key sep m l r).2.1, (recut key sep m l r).2.2)] := by
  have hj := ordered_join h
  revert hj hlt
  clear h
  induction l, r using Tree.cases_two with
  | leaf p nx es q ny fs =>
    intro hlt hj
    have hlt' : m < (es ++ fs).length := by simpa using hlt
    have hdrop := List.drop_eq_getElem_cons hlt'
    rw [join_leaf, Tree.ordered_leaf, ← List.take_append_drop m (es ++ fs), hdrop] at hj
    rw [recut_leaf, List.getElem?_eq_getElem hlt', Option.elim_some, hdrop]
    exact hj.cut (by rw [ne_eq, List.take_eq_nil_iff]; rintro (h | h) <;> simp_all)
  | branch p ks q ks' =>
    intro hlt hj
    have hlt' : m < (ks ++ withHead sep ks').length := by simpa using hlt
    have hdrop := List.drop_eq_getElem_cons hlt'
    rw [join_branch, Tree.ordered_branch, ← List.take_append_drop m (ks ++ withHead sep ks'), hdrop,
      KidsIn.append_iff (by rw [ne_eq, List.take_eq_nil_iff]; rintro (h | h) <;> simp_all)] at hj
    rw [recut_branch, List.getElem?_eq_getElem hlt', Option.elim_some, hdrop]
    exact hj

end Order

/-! Making a child good. -/

section Rebalance
variable {sh : Shape} {n : Nat}

/-- The pair of neighbours `rebalance` works on, and the two things it does to them. -/
theorem rebalance_cases (sh : Shape) (key : E → K) {i : Nat} {kids : List (K × Tree P K E n)}
    (h2 : 2 ≤ kids.length) (hi : i < kids.length) :
    ∃ before kl l kr r after, kids = before ++ (kl, l) :: (kr, r) :: after ∧ before.length = i - 1 ∧
      (((if 0 < i then l.size else r.size) ≤ sh.min n ∧
          rebalance sh key i kids = (before ++ (kl, join kr l r) :: after, true, [r.page])) ∨
        (sh.min n < (if 0 < i then l.size else r.size) ∧ ∃ m, (0 < i → m = l.size - 1) ∧
          (i = 0 → m = l.size + 1) ∧ rebalance sh key i kids =
            (before ++ (kl, (recut key kr m l r).1) ::
              ((recut key kr m l r).2.1, (recut key kr m l r).2.2) :: after, false, []))) := by
  have hlen : (kids.drop (i - 1)).length = kids.length - (i - 1) := List.length_drop
  rcases hd : kids.drop (i - 1) with _ | ⟨⟨kl, l⟩, _ | ⟨⟨kr, r⟩, after⟩⟩
  · rw [hd] at hlen; simp at hlen; omega
  · rw [hd] at hlen; simp at hlen; omega
  · refine ⟨kids.take (i - 1), kl, l, kr, r, after, ?_, by simp; omega, ?_⟩
    · rw [← hd, List.take_append_drop]
    · unfold rebalance
      rw [hd]
      by_cases hs : (if 0 < i then l.size else r.size) ≤ sh.min n
      · exact .inl ⟨hs, if_pos hs⟩
      · refine .inr ⟨Nat.lt_of_not_le hs, if 0 < i then l.size - 1 else l.size + 1, fun h => if_pos h,
          fun h => if_neg (by omega), if_neg hs⟩

variable (sh) (key : E → K) {i : Nat} {kids : List (K × Tree P K E n)}

theorem toList_rebalance (h2 : 2 ≤ kids.length) (hi : i < kids.length) :
    ((rebalance sh key i kids).1.flatMap fun kc => kc.2.toList) = kids.flatMap fun kc => kc.2.toList := by
  obtain ⟨before, kl, l, kr, r, after, hk, -, ⟨-, h⟩ | ⟨-, m, -, -, h⟩⟩ := rebalance_cases sh key h2 hi
  · rw [h, hk]; simp
  · have := toList_recut kr l r key m
    rw [h, hk]
    simp only [List.flatMap_append, List.flatMap_cons, ← List.append_assoc] at this ⊢
    rw [List.append_assoc _ _ (recut key kr m l r).2.2.toList, this]
    simp

theorem links_rebalance (h2 : 2 ≤ kids.length) (hi : i < kids.length) :
    Relinks (kids.flatMap fun kc => kc.2.links)
      ((rebalance sh key i kids).1.flatMap fun kc => kc.2.links) := by
  obtain ⟨before, kl, l, kr, r, after, hk, -, ⟨-, h⟩ | ⟨-, m, -, -, h⟩⟩ := rebalance_cases sh key h2 hi
  · rw [h, hk]
    simp only [List.flatMap_append, List.flatMap_cons, ← List.append_assoc]
    rw [List.append_assoc _ l.links]
    exact ((Relinks.refl _).append (links_join kr l r)).append (Relinks.refl _)
  · have := links_recut kr l r key m
    rw [h, hk]
    simp only [List.flatMap_append, List.flatMap_cons, ← List.append_assoc] at this ⊢
    rw [List.append_assoc _ _ (recut key kr m l r).2.2.links, this, ← List.append_assoc]
    exact Relinks.refl _

theorem pages_rebalance (h2 : 2 ≤ kids.length) (hi : i < kids.length) :
    (kids.flatMap fun kc => kc.2.pages).Perm
      (((rebalance sh key i kids).1.flatMap fun kc => kc.2.pages) ++ (rebalance sh key i kids).2.2) := by
  classical
  obtain ⟨before, kl, l, kr, r, after, hk, -, ⟨-, h⟩ | ⟨-, m, -, -, h⟩⟩ := rebalance_cases sh key h2 hi
  all_goals
    rw [List.perm_iff_count]
    intro a
  · have := List.perm_iff_count.mp (pages_join kr l r) a
    rw [h, hk]
    simp only [List.flatMap_append, List.flatMap_cons, List.count_append] at this ⊢
    omega
  · have := List.perm_iff_count.mp (pages_recut kr l r key m) a
    rw [h, hk]
    simp only [List.flatMap_append, List.flatMap_cons, List.count_append, List.count_nil] at this ⊢
    omega

theorem ordered_rebalance [LinearOrder K] {lo : K} {hi : WithTop K} (h2 : 2 ≤ kids.length)
    (hi' : i < kids.length) (ho : KidsIn (fun a b c => Tree.Ordered key a b c) lo hi kids) :
    KidsIn (fun a b c => Tree.Ordered key a b c) lo hi (rebalance sh key i kids).1 := by
  obtain ⟨before, kl, l, kr, r, after, hk, -, hcase⟩ := rebalance_cases sh key h2 hi'
  have hk' : kids = before ++ (kl, l) :: [(kr, r)] ++ after := by simp [hk]
  rw [hk'] at ho
  obtain ⟨a, b, hw, hrep⟩ := KidsIn.window ho
  rcases hcase with ⟨-, h⟩ | ⟨hs, m, hm1, hm2, h⟩
  · rw [h]
    have := hrep (join kr l r) [] (ordered_join hw)
    simpa using this
  · rw [h]
    have hpos := sh.min_pos n
    have hm : 1 ≤ m ∧ m < l.size + r.size := by
      rcases Nat.eq_zero_or_pos i with h0 | h0
      · rw [if_neg (by omega)] at hs
        have := hm2 h0
        omega
      · rw [if_pos h0] at hs
        have := hm1 h0
        omega
    have := hrep _ _ (ordered_recut hw hm.1 hm.2)
    simpa using this

/-- With every child packed but child `i`, one item short of it, all of them are packed after. -/
theorem packed_rebalance (h2 : 2 ≤ kids.length) (hi : i < kids.length)
    (hothers : ∀ j kc, kids[j]? = some kc → j ≠ i → kc.2.Packed sh)
    (hshort : ∀ kc, kids[i]? = some kc → kc.2.PackedBelow sh ∧ kc.2.size + 1 = sh.min n) :
    (∀ kc ∈ (rebalance sh key i kids).1, kc.2.Packed sh) ∧
      (rebalance sh key i kids).1.length + (if (rebalance sh key i kids).2.1 then 1 else 0) = kids.length := by
  obtain ⟨before, kl, l, kr, r, after, hk, hlen, hcase⟩ := rebalance_cases sh key h2 hi
  have hhalf := sh.half n
  have hlt := sh.min_lt_max n
  have hgl : kids[i - 1]? = some (kl, l) := by rw [hk, ← hlen]; simp
  have hgr : kids[i - 1 + 1]? = some (kr, r) := by rw [hk, ← hlen]; simp
  have hbefore : ∀ kc ∈ before, kc.2.Packed sh := by
    intro kc hkc
    obtain ⟨j, hj, rfl⟩ := List.mem_iff_getElem.mp hkc
    refine hothers j before[j] ?_ (by omega)
    rw [hk, List.getElem?_append_left hj, List.getElem?_eq_getElem hj]
  have hafter : ∀ kc ∈ after, kc.2.Packed sh := by
    intro kc hkc
    obtain ⟨j, hj, rfl⟩ := List.mem_iff_getElem.mp hkc
    refine hothers (before.length + 2 + j) after[j] ?_ (by omega)
    rw [hk, List.getElem?_append_right (by omega)]
    simp [show before.length + 2 + j - before.length = j + 2 by omega]
  -- the short child is the right one of the pair, or the left one when there is none on its left
  have hpair : l.PackedBelow sh ∧ r.PackedBelow sh ∧
      ((0 < i ∧ sh.min n ≤ l.size ∧ l.size ≤ sh.max n ∧ r.size + 1 = sh.min n) ∨
        (i = 0 ∧ l.size + 1 = sh.min n ∧ sh.min n ≤ r.size ∧ r.size ≤ sh.max n)) := by
    rcases Nat.eq_zero_or_pos i with h0 | h0
    · subst h0
      obtain ⟨hb, hs⟩ := hshort _ hgl
      obtain ⟨h1, h3, h4⟩ := Tree.packed_iff.mp (hothers _ _ hgr (by omega))
      exact ⟨hb, h4, .inr ⟨rfl, hs, h1, h3⟩⟩
    · rw [Nat.sub_add_cancel h0] at hgr
      obtain ⟨hb, hs⟩ := hshort _ hgr
      obtain ⟨h1, h3, h4⟩ := Tree.packed_iff.mp (hothers _ _ hgl (by omega))
      exact ⟨h4, hb, .inl ⟨h0, h1, h3, hs⟩⟩
  obtain ⟨hbl, hbr, hsizes⟩ := hpair
  rcases hcase with ⟨hs, h⟩ | ⟨hs, m, hm1, hm2, h⟩
  · rw [h]
    refine ⟨?_, by rw [hk]; simp; omega⟩
    have hj : (join kr l r).Packed sh := by
      refine Tree.packed_iff.mpr ⟨?_, ?_, packedBelow_join kr l r hbl hbr⟩
      all_goals rw [size_join]; rcases hsizes with ⟨h0, hsizes⟩ | ⟨h0, hsizes⟩
      all_goals first | rw [if_pos h0] at hs | rw [if_neg (by omega)] at hs
      all_goals omega
    simpa [or_imp, forall_and] using ⟨fun a b h => hbefore (a, b) h, hj, fun a b h => hafter (a, b) h⟩
  · rw [h]
    refine ⟨?_, by rw [hk]; simp⟩
    have hm : m ≤ l.size + r.size ∧ sh.min n ≤ m ∧ m ≤ sh.max n ∧ sh.min n ≤ l.size + r.size - m ∧
        l.size + r.size - m ≤ sh.max n := by
      rcases hsizes with ⟨h0, hsizes⟩ | ⟨h0, hsizes⟩
      · rw [if_pos h0] at hs
        have := hm1 h0
        omega
      · rw [if_neg (by omega)] at hs
        have := hm2 h0
        omega
    obtain ⟨hs1, hs2⟩ := size_recut kr l r key m hm.1
    obtain ⟨hb1, hb2⟩ := packedBelow_recut kr l r key m hbl hbr
    have hp1 : (recut key kr m l r).1.Packed sh := Tree.packed_iff.mpr ⟨by omega, by omega, hb1⟩
    have hp2 : (recut key kr m l r).2.2.Packed sh := Tree.packed_iff.mpr ⟨by omega, by omega, hb2⟩
    simpa [or_imp, forall_and] using ⟨fun a b h => hbefore (a, b) h, hp1, hp2, fun a b h => hafter (a, b) h⟩

end Rebalance

/-! The operation. -/

section Delete
variable [LinearOrder K] {sh : Shape} {key : E → K} {lo : K} {hi : WithTop K} {x : K}

theorem deleteRec_leaf (p next : P) (es : List E) : deleteRec sh key x (.leaf p next es : Tree P K E 0) =
    (.leaf p next (es.take (position key es x) ++ es.drop (position key es x + 1)), true, []) := rfl

/-- Deleting below child `c` of a branch, and making `c` good if it needs it. -/
theorem deleteRec_branch {n : Nat} (p : P) {kids before after : List (K × Tree P K E n)} {k : K}
    {c : Tree P K E n} (h : kids = before ++ (k, c) :: after) (hi : before.length = route kids x) :
    deleteRec sh key x (.branch p kids) =
      if (deleteRec sh key x c).2.1 ∧ c.size ≤ sh.min n then
        (.branch p (rebalance sh key before.length (before ++ (k, (deleteRec sh key x c).1) :: after)).1,
          (rebalance sh key before.length (before ++ (k, (deleteRec sh key x c).1) :: after)).2.1,
          (deleteRec sh key x c).2.2 ++
            (rebalance sh key before.length (before ++ (k, (deleteRec sh key x c).1) :: after)).2.2)
      else (.branch p (before ++ (k, (deleteRec sh key x c).1) :: after), false, (deleteRec sh key x c).2.2) := by
  have hget : kids[route kids x]? = some (k, c) := by rw [← hi, h]; simp
  have htake : kids.take (route kids x) = before := by rw [← hi, h]; simp
  have hdrop : kids.drop (route kids x + 1) = after := by rw [← hi, h]; simp
  have : deleteRec sh key x (.branch p kids) =
      match kids[route kids x]? with
      | none => (.branch p kids, false, [])
      | some (k, c) =>
        let d := deleteRec sh key x c
        let kids' := kids.take (route kids x) ++ (k, d.1) :: kids.drop (route kids x + 1)
        if d.2.1 ∧ c.size ≤ sh.min n then
          (.branch p (rebalance sh key (route kids x) kids').1,
            (rebalance sh key (route kids x) kids').2.1,
            d.2.2 ++ (rebalance sh key (route kids x) kids').2.2)
        else (.branch p kids', false, d.2.2) := rfl
  rw [this, hget]
  simp only [htake, hdrop, hi]

theorem page_deleteRec {n : Nat} (t : Tree P K E n) : (deleteRec sh key x t).1.page = t.page := by
  cases t using Tree.ind with
  | leaf p next es => rfl
  | @branch n p kids ih =>
    rcases hget : kids[route kids x]? with _ | ⟨k, c⟩
    · have : deleteRec sh key x (.branch p kids) = (.branch p kids, false, []) := by
        show (match kids[route kids x]? with
          | none => (_, false, [])
          | some (k, c) => _) = _
        rw [hget]
      rw [this]
    · obtain ⟨hlt, hc⟩ := List.getElem?_eq_some_iff.mp hget
      have hsplit : kids = kids.take (route kids x) ++ (k, c) :: kids.drop (route kids x + 1) := by
        rw [← hc, List.cons_getElem_drop_succ, List.take_append_drop]
      rw [deleteRec_branch p hsplit (by simp; omega)]
      split <;> rfl

/-- How `deleteRec` treats a branch: the children with the routed one replaced, then made good or not. -/
theorem deleteRec_branch_cases (sh : Shape) (key : E → K) {n : Nat} (p : P) {kids before after : List (K × Tree P K E n)} {k : K}
    {c : Tree P K E n} (h : kids = before ++ (k, c) :: after) (hi : before.length = route kids x)
    {kids' : List (K × Tree P K E n)} (hk : kids' = before ++ (k, (deleteRec sh key x c).1) :: after) :
    (((deleteRec sh key x c).2.1 = true ∧ c.size ≤ sh.min n) ∧ deleteRec sh key x (.branch p kids) =
      (.branch p (rebalance sh key before.length kids').1, (rebalance sh key before.length kids').2.1,
        (deleteRec sh key x c).2.2 ++ (rebalance sh key before.length kids').2.2)) ∨
    (¬((deleteRec sh key x c).2.1 = true ∧ c.size ≤ sh.min n) ∧
      deleteRec sh key x (.branch p kids) = (.branch p kids', false, (deleteRec sh key x c).2.2)) := by
  rw [deleteRec_branch p h hi, ← hk]
  by_cases hf : (deleteRec sh key x c).2.1 = true ∧ c.size ≤ sh.min n
  · exact .inl ⟨hf, if_pos hf⟩
  · exact .inr ⟨hf, if_neg hf⟩

variable (sh)

/-- Every part of the tree an induction over `deleteRec` needs at a branch. -/
theorem Tree.PackedRoot.routed {n : Nat} {p : P} {kids before after : List (K × Tree P K E n)} {k a : K}
    {c : Tree P K E n} {b : WithTop K} (hroot : (Tree.branch p kids).PackedRoot sh)
    (r : Routed (fun a b c => Tree.Ordered key a b c) lo hi x kids before k c after a b)
    (c' : Tree P K E n) : c.PackedRoot sh ∧ 2 ≤ (before ++ (k, c') :: after).length ∧
      before.length < (before ++ (k, c') :: after).length := by
  have hlen : kids.length = (before ++ (k, c') :: after).length := by rw [r.split]; simp
  exact ⟨(hroot.2 _ r.mem).root, hlen ▸ hroot.1.1, by simp⟩

theorem ordered_deleteRec {n : Nat} {t : Tree P K E n} (ht : t.Ordered key lo hi) (hlo : lo ≤ x)
    (hhi : (x : WithTop K) < hi) (hroot : t.PackedRoot sh) : (deleteRec sh key x t).1.Ordered key lo hi := by
  induction t generalizing lo hi with
  | leaf p next es =>
    refine EntriesIn.sublist ht ?_
    have := (List.Sublist.refl (es.take (position key es x))).append
      (List.drop_sublist_drop_left es (Nat.le_succ (position key es x)))
    rwa [List.take_append_drop] at this
  | branch p kids ih =>
    obtain ⟨before, k, c, after, a, b, r⟩ := ht.routed hlo hhi
    obtain ⟨hc, h2, hi'⟩ := hroot.routed sh r (deleteRec sh key x c).1
    have hkids := r.replace _ [] (ih _ r.mem r.child r.low r.high hc)
    rw [List.append_assoc, List.cons_append, List.nil_append] at hkids
    rcases deleteRec_branch_cases sh key p r.split r.index rfl with ⟨-, h⟩ | ⟨-, h⟩
    · rw [h]; exact ordered_rebalance sh key h2 hi' hkids
    · rw [h]; exact hkids

theorem toList_deleteRec {n : Nat} {t : Tree P K E n} (ht : t.Ordered key lo hi) (hlo : lo ≤ x)
    (hhi : (x : WithTop K) < hi) (hroot : t.PackedRoot sh) {e : E} (he : e ∈ t.toList) (hx : key e = x) :
    t.toList.Perm (e :: (deleteRec sh key x t).1.toList) := by
  induction t generalizing lo hi with
  | leaf p next es =>
    obtain ⟨xs, ys, hes, hlen⟩ := EntriesIn.at_position (Tree.ordered_leaf.mp ht) he hx
    rw [deleteRec_leaf, ← hlen, Tree.toList_leaf, Tree.toList_leaf, hes]
    simp
  | branch p kids ih =>
    obtain ⟨before, k, c, after, a, b, r⟩ := ht.routed hlo hhi
    obtain ⟨hc, h2, hi'⟩ := hroot.routed sh r (deleteRec sh key x c).1
    have hperm := ih _ r.mem r.child r.low r.high hc (r.entry he hx)
    have hkids : (kids.flatMap fun kc => kc.2.toList).Perm (e ::
        (before ++ (k, (deleteRec sh key x c).1) :: after).flatMap fun kc => kc.2.toList) := by
      rw [r.split]
      simp only [List.flatMap_append, List.flatMap_cons]
      exact perm_within hperm
    rcases deleteRec_branch_cases sh key p r.split r.index rfl with ⟨-, h⟩ | ⟨-, h⟩
    · rw [h]
      simp only [Tree.toList_branch]
      rw [toList_rebalance sh key h2 hi']
      exact hkids
    · rw [h]; exact hkids

theorem links_deleteRec {n : Nat} {t : Tree P K E n} (ht : t.Ordered key lo hi) (hlo : lo ≤ x)
    (hhi : (x : WithTop K) < hi) (hroot : t.PackedRoot sh) :
    Relinks t.links (deleteRec sh key x t).1.links := by
  induction t generalizing lo hi with
  | leaf p next es => exact Relinks.refl _
  | branch p kids ih =>
    obtain ⟨before, k, c, after, a, b, r⟩ := ht.routed hlo hhi
    obtain ⟨hc, h2, hi'⟩ := hroot.routed sh r (deleteRec sh key x c).1
    have hkids : Relinks (kids.flatMap fun kc => kc.2.links)
        ((before ++ (k, (deleteRec sh key x c).1) :: after).flatMap fun kc => kc.2.links) := by
      rw [r.split]
      simp only [List.flatMap_append, List.flatMap_cons]
      exact (Relinks.refl _).append ((ih _ r.mem r.child r.low r.high hc).append (Relinks.refl _))
    rcases deleteRec_branch_cases sh key p r.split r.index rfl with ⟨-, h⟩ | ⟨-, h⟩
    · rw [h]; exact hkids.trans (links_rebalance sh key h2 hi')
    · rw [h]; exact hkids

/-- The pages are those of the tree left and those freed. -/
theorem pages_deleteRec {n : Nat} {t : Tree P K E n} (ht : t.Ordered key lo hi) (hlo : lo ≤ x)
    (hhi : (x : WithTop K) < hi) (hroot : t.PackedRoot sh) :
    t.pages.Perm ((deleteRec sh key x t).1.pages ++ (deleteRec sh key x t).2.2) := by
  induction t generalizing lo hi with
  | leaf p next es => simp [deleteRec_leaf]
  | branch p kids ih =>
    obtain ⟨before, k, c, after, a, b, r⟩ := ht.routed hlo hhi
    obtain ⟨hc, h2, hi'⟩ := hroot.routed sh r (deleteRec sh key x c).1
    have hperm := ih _ r.mem r.child r.low r.high hc
    have hkids : (kids.flatMap fun kc => kc.2.pages).Perm
        (((before ++ (k, (deleteRec sh key x c).1) :: after).flatMap fun kc => kc.2.pages) ++
          (deleteRec sh key x c).2.2) := by
      classical
      rw [List.perm_iff_count] at hperm ⊢
      intro q
      have := hperm q
      rw [r.split]
      simp only [List.flatMap_append, List.flatMap_cons, List.count_append] at this ⊢
      omega
    rcases deleteRec_branch_cases sh key p r.split r.index rfl with ⟨-, h⟩ | ⟨-, h⟩
    · have hreb := pages_rebalance sh key h2 hi'
      rw [h]
      refine List.Perm.cons p (hkids.trans ?_)
      refine (hreb.append_right _).trans ?_
      rw [List.append_assoc]
      exact (List.perm_append_comm).append_left _
    · rw [h]; exact hkids.cons p

/-- The node is one item short if it lost one, and everything below it is packed. -/
theorem packed_deleteRec {n : Nat} {t : Tree P K E n} (ht : t.Ordered key lo hi) (hlo : lo ≤ x)
    (hhi : (x : WithTop K) < hi) (hroot : t.PackedRoot sh) {e : E} (he : e ∈ t.toList) (hx : key e = x) :
    (deleteRec sh key x t).1.PackedBelow sh ∧
      (deleteRec sh key x t).1.size + (if (deleteRec sh key x t).2.1 then 1 else 0) = t.size := by
  induction t generalizing lo hi with
  | leaf p next es =>
    obtain ⟨xs, ys, hes, hlen⟩ := EntriesIn.at_position (Tree.ordered_leaf.mp ht) he hx
    refine ⟨trivial, ?_⟩
    rw [deleteRec_leaf, ← hlen, Tree.size_leaf, Tree.size_leaf, hes]
    simp; omega
  | @branch n p kids ih =>
    obtain ⟨before, k, c, after, a, b, r⟩ := ht.routed hlo hhi
    obtain ⟨hc, h2, hi'⟩ := hroot.routed sh r (deleteRec sh key x c).1
    obtain ⟨hb, hsize⟩ := ih _ r.mem r.child r.low r.high hc (r.entry he hx)
    have hlen : kids.length = (before ++ (k, (deleteRec sh key x c).1) :: after).length := by
      rw [r.split]; simp
    have hpacked := hroot.2
    change ∀ kc ∈ kids, _ at hpacked
    rw [r.split] at hpacked
    have hcp := Tree.packed_iff.mp (hpacked (k, c) (by simp))
    simp only at hb hsize hcp
    rcases deleteRec_branch_cases sh key p r.split r.index rfl with ⟨⟨hlost, hfloor⟩, h⟩ | ⟨hok, h⟩
    · have hothers : ∀ j kc, (before ++ (k, (deleteRec sh key x c).1) :: after)[j]? = some kc →
          j ≠ before.length → kc.2.Packed sh := by
        intro j kc hj hne
        apply hpacked
        rcases Nat.lt_or_gt_of_ne hne with hlt | hgt
        · rw [List.getElem?_append_left hlt] at hj
          exact List.mem_append_left _ (List.mem_of_getElem? hj)
        · rw [List.getElem?_append_right (by omega), List.getElem?_cons, if_neg (by omega)] at hj
          exact List.mem_append_right _ (List.mem_cons_of_mem _ (List.mem_of_getElem? hj))
      have hshort : ∀ kc, (before ++ (k, (deleteRec sh key x c).1) :: after)[before.length]? = some kc →
          kc.2.PackedBelow sh ∧ kc.2.size + 1 = sh.min n := by
        intro kc hkc
        simp only [List.getElem?_append_right (le_refl _), Nat.sub_self, List.getElem?_cons_zero,
          Option.some.injEq] at hkc
        rw [hlost, if_pos rfl] at hsize
        rw [← hkc]
        exact ⟨hb, by simp only; omega⟩
      obtain ⟨hp, hl⟩ := packed_rebalance sh key h2 hi' hothers hshort
      rw [h]
      exact ⟨hp, hl.trans hlen.symm⟩
    · rw [h]
      refine ⟨?_, by simp [hlen]⟩
      have hc' : (deleteRec sh key x c).1.Packed sh := by
        refine Tree.packed_iff.mpr ⟨?_, ?_, hb⟩
        all_goals
          split at hsize
          · simp_all; omega
          · simp_all
      intro kc hkc
      rcases List.mem_append.mp hkc with hkc | hkc
      · exact hpacked kc (List.mem_append_left _ hkc)
      · rcases List.mem_cons.mp hkc with rfl | hkc
        · exact hc'
        · exact hpacked kc (by simp [hkc])

/-! The whole tree. -/

omit [LinearOrder K] in
theorem collapse_cases (t : Σ n, Tree P K E n) :
    (collapse t = (t, []) ∧ (t.1 = 0 ∨ t.2.size ≠ 1)) ∨
    (∃ n p k, ∃ c : Tree P K E n, t = ⟨n + 1, .branch p [(k, c)]⟩ ∧ collapse t = (⟨n, c⟩, [p])) := by
  obtain ⟨n, t⟩ := t
  cases t using Tree.ind with
  | leaf p next es => exact .inl ⟨rfl, .inl rfl⟩
  | @branch n p kids =>
    rcases kids with _ | ⟨⟨k, c⟩, _ | ⟨kc, rest⟩⟩
    · exact .inl ⟨rfl, .inr (by simp)⟩
    · exact .inr ⟨n, p, k, c, rfl, rfl⟩
    · exact .inl ⟨rfl, .inr (by simp)⟩

section Whole
variable {least : K} {nil : P} {t : Σ n, Tree P K E n}

theorem pages_delete (h : Valid sh key least nil t) (hlo : least ≤ x) :
    t.2.pages.Perm ((delete sh key x t).1.2.pages ++ (delete sh key x t).2) := by
  have hp := pages_deleteRec sh h.ordered hlo (WithTop.coe_lt_top _) h.packed
  unfold delete
  rcases collapse_cases ⟨t.1, (deleteRec sh key x t.2).1⟩ with ⟨hc, -⟩ | ⟨n, p, k, c, ht, hc⟩
  · rw [hc]; simpa using hp
  · have hpages : (deleteRec sh key x t.2).1.pages = p :: c.pages := by
      have := congrArg (fun t : Σ n, Tree P K E n => t.2.pages) ht
      simpa using this
    rw [hc]
    simp only
    rw [hpages] at hp
    refine hp.trans ?_
    rw [List.cons_append, ← List.append_assoc]
    exact (List.perm_append_singleton _ _).symm

variable {e : E}

theorem toList_delete (h : Valid sh key least nil t) (hlo : least ≤ x) (he : e ∈ t.2.toList)
    (hx : key e = x) : t.2.toList.Perm (e :: (delete sh key x t).1.2.toList) := by
  have hp := toList_deleteRec sh h.ordered hlo (WithTop.coe_lt_top _) h.packed he hx
  unfold delete
  rcases collapse_cases ⟨t.1, (deleteRec sh key x t.2).1⟩ with ⟨hc, -⟩ | ⟨n, p, k, c, ht, hc⟩
  · rw [hc]; exact hp
  · have hlist : (deleteRec sh key x t.2).1.toList = c.toList := by
      have := congrArg (fun t : Σ n, Tree P K E n => t.2.toList) ht
      simpa using this
    rw [hc]
    rwa [hlist] at hp

theorem valid_delete (h : Valid sh key least nil t) (hlo : least ≤ x) (he : e ∈ t.2.toList)
    (hx : key e = x) : Valid sh key least nil (delete sh key x t).1 := by
  have hord := ordered_deleteRec sh h.ordered hlo (WithTop.coe_lt_top _) h.packed
  have hlink := (links_deleteRec sh h.ordered hlo (WithTop.coe_lt_top _) h.packed nil h.linked).1
  have hnodup := ((pages_delete sh h hlo).nodup_iff.mp h.nodup).of_append_left
  obtain ⟨hb, hsize⟩ := packed_deleteRec sh h.ordered hlo (WithTop.coe_lt_top _) h.packed he hx
  unfold delete at hnodup ⊢
  rcases collapse_cases ⟨t.1, (deleteRec sh key x t.2).1⟩ with ⟨hc, hn⟩ | ⟨n, p, k, c, ht, hc⟩
  · rw [hc] at hnodup ⊢
    refine ⟨hord, ?_, hlink, hnodup⟩
    have hroot := h.packed
    obtain ⟨n, t⟩ := t
    simp only at hn hsize hb hroot ⊢
    cases n with
    | zero =>
      have h1 : t.size ≤ sh.leafMax := hroot
      have h2 : (deleteRec sh key x t).1.size ≤ t.size := by omega
      exact le_trans h2 h1
    | succ n =>
      have h1 : 2 ≤ t.size ∧ t.size ≤ sh.branchMax := hroot.1
      have h2 : 2 ≤ (deleteRec sh key x t).1.size ∧ (deleteRec sh key x t).1.size ≤ sh.branchMax := by
        split at hsize <;> omega
      exact ⟨h2, hb⟩
  · obtain ⟨m, t⟩ := t
    simp only at hord hlink hnodup hb ht hc ⊢
    obtain ⟨rfl, ht⟩ := Sigma.mk.inj ht
    rw [eq_of_heq ht] at hord hlink hb
    rw [hc] at hnodup ⊢
    refine ⟨hord, ?_, by simpa using hlink, hnodup⟩
    exact (Tree.packedBelow_branch.mp hb (k, c) (by simp)).root

end Whole
end Delete
end BTree
