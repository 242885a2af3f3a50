import KernSql.Lib.BTree.Basic
import KernSql.Lib.Search

/- Inserting an entry.

   The entry goes into the leaf its key is routed to. A node that grows past its
   maximum is cut in the middle and its right half becomes its parent's next
   child, on a fresh page, which is one page a level: `fresh i` for the node that
   splits at level `i`. A root that splits gets a new root above it.

   `insertRec` returns what takes the node's place in its parent: the node, and
   possibly a right half with the separator between them. Read as a list of
   children (`Grown.kids`) it satisfies whatever the node satisfied. -/
namespace BTree
variable {P K E C : Type}

/-- What takes a node's place in its parent. -/
abbrev Grown (P K E : Type) (n : Nat) := Tree P K E n × Option (K × Tree P K E n)

def Grown.kids {n : Nat} (k : K) (g : Grown P K E n) : List (K × Tree P K E n) := (k, g.1) :: g.2.toList

@[simp] theorem Grown.kids_one {n : Nat} (k : K) (t : Tree P K E n) :
    Grown.kids k (t, none) = [(k, t)] := rfl

@[simp] theorem Grown.kids_two {n : Nat} (k sep : K) (l r : Tree P K E n) :
    Grown.kids k (l, some (sep, r)) = [(k, l), (sep, r)] := rfl

/-- A leaf, cut in two if it holds too many entries. -/
def cutLeaf (sh : Shape) (key : E → K) (fresh p next : P) (es : List E) : Grown P K E 0 :=
  if es.length ≤ sh.leafMax then (.leaf p next es, none)
  else match es.drop ((es.length + 1) / 2) with
    | [] => (.leaf p next es, none)
    | e :: right =>
      (.leaf p fresh (es.take ((es.length + 1) / 2)), some (key e, .leaf fresh next (e :: right)))

/-- A branch, cut in two if it has too many children. -/
def cutBranch (sh : Shape) {n : Nat} (fresh p : P) (kids : List (K × Tree P K E n)) :
    Grown P K E (n + 1) :=
  if kids.length ≤ sh.branchMax then (.branch p kids, none)
  else match kids.drop ((kids.length + 1) / 2) with
    | [] => (.branch p kids, none)
    | kc :: right =>
      (.branch p (kids.take ((kids.length + 1) / 2)), some (kc.1, .branch fresh (kc :: right)))

section Operation
variable [LinearOrder K] (sh : Shape) (key : E → K)

/-- The position of key `x` among sorted entries. -/
def position (es : List E) (x : K) : Nat := es.countP fun e => key e < x

def insertRec (fresh : Nat → P) (e : E) : {n : Nat} → Tree P K E n → Grown P K E n
  | 0, t =>
    let i := position key (Leaf.entries t) (key e)
    cutLeaf sh key (fresh 0) (Leaf.page t) (Leaf.next t)
      ((Leaf.entries t).take i ++ e :: (Leaf.entries t).drop i)
  | n + 1, t =>
    let i := route (Branch.kids t) (key e)
    match (Branch.kids t)[i]? with
    | none => (t, none)
    | some (k, c) =>
      cutBranch sh (fresh (n + 1)) (Branch.page t)
        ((Branch.kids t).take i ++ (insertRec fresh e c).kids k ++ (Branch.kids t).drop (i + 1))

/-- How many nodes on the way to `x` split, from the leaf up. -/
def splits (x : K) : {n : Nat} → Tree P K E n → Nat
  | 0, t => if sh.leafMax ≤ (Leaf.entries t).length then 1 else 0
  | n + 1, t =>
    match (Branch.kids t)[route (Branch.kids t) x]? with
    | none => 0
    | some (_, c) =>
      if splits x c = n + 1 ∧ sh.branchMax ≤ (Branch.kids t).length then n + 2 else splits x c

/-- Insert into a whole tree; a root that splits is put under a new one. -/
def insert (least : K) (fresh : Nat → P) (e : E) (t : Σ n, Tree P K E n) : Σ n, Tree P K E n :=
  match insertRec sh key fresh e t.2 with
  | (l, none) => ⟨t.1, l⟩
  | (l, some (sep, r)) => ⟨t.1 + 1, .branch (fresh (t.1 + 1)) [(least, l), (sep, r)]⟩

end Operation

/-! Cutting a node. -/

section Cut
variable {sh : Shape}

/-- A list of two or more, cut in the middle. -/
theorem exists_half {α : Type} (xs : List α) (h : 2 ≤ xs.length) :
    ∃ ys x zs, xs = ys ++ x :: zs ∧ ys.length = (xs.length + 1) / 2 ∧
      xs.take ((xs.length + 1) / 2) = ys ∧ xs.drop ((xs.length + 1) / 2) = x :: zs := by
  obtain ⟨x, zs, hx⟩ : ∃ x zs, xs.drop ((xs.length + 1) / 2) = x :: zs :=
    List.exists_cons_of_ne_nil (by simp; omega)
  refine ⟨xs.take ((xs.length + 1) / 2), x, zs, ?_, ?_, rfl, hx⟩
  · rw [← hx, List.take_append_drop]
  · simp; omega

/-- The two ways a leaf leaves `cutLeaf`. -/
theorem cutLeaf_cases (sh : Shape) (key : E → K) (fresh p next : P) (es : List E) :
    (es.length ≤ sh.leafMax ∧ cutLeaf sh key fresh p next es = (.leaf p next es, none)) ∨
    (sh.leafMax < es.length ∧ ∃ xs e ys, es = xs ++ e :: ys ∧ xs.length = (es.length + 1) / 2 ∧
      cutLeaf sh key fresh p next es = (.leaf p fresh xs, some (key e, .leaf fresh next (e :: ys)))) := by
  unfold cutLeaf
  by_cases h : es.length ≤ sh.leafMax
  · exact .inl ⟨h, if_pos h⟩
  · have hmax := sh.leaf_lt
    obtain ⟨xs, e, ys, heq, hlen, ht, hd⟩ := exists_half es (by omega)
    exact .inr ⟨by omega, xs, e, ys, heq, hlen, by rw [if_neg h, hd, ht]⟩

theorem cutBranch_cases (sh : Shape) {n : Nat} (fresh p : P) (kids : List (K × Tree P K E n)) :
    (kids.length ≤ sh.branchMax ∧ cutBranch sh fresh p kids = (.branch p kids, none)) ∨
    (sh.branchMax < kids.length ∧ ∃ xs k c ys, kids = xs ++ (k, c) :: ys ∧
      xs.length = (kids.length + 1) / 2 ∧
      cutBranch sh fresh p kids = (.branch p xs, some (k, .branch fresh ((k, c) :: ys)))) := by
  unfold cutBranch
  by_cases h : kids.length ≤ sh.branchMax
  · exact .inl ⟨h, if_pos h⟩
  · have hmin := sh.branch_two
    have hmax := sh.branch_half
    obtain ⟨xs, ⟨k, c⟩, ys, heq, hlen, ht, hd⟩ := exists_half kids (by omega)
    exact .inr ⟨by omega, xs, k, c, ys, heq, hlen, by rw [if_neg h, hd, ht]⟩

section Parts
variable (key : E → K) (fresh p next : P) (es : List E) {n : Nat} (kids : List (K × Tree P K E n)) (k : K)

theorem toList_cutLeaf :
    (((cutLeaf sh key fresh p next es).kids k).flatMap fun kc => kc.2.toList) = es := by
  rcases cutLeaf_cases sh key fresh p next es with ⟨-, h⟩ | ⟨-, xs, e, ys, heq, -, h⟩
  · simp [h]
  · rw [h]; simp [heq]

theorem toList_cutBranch :
    (((cutBranch sh fresh p kids).kids k).flatMap fun kc => kc.2.toList)
      = kids.flatMap fun kc => kc.2.toList := by
  rcases cutBranch_cases sh fresh p kids with ⟨-, h⟩ | ⟨-, xs, k', c, ys, heq, -, h⟩
  · simp [h]
  · rw [h]; simp [heq]

theorem links_cutLeaf :
    Relinks [(p, next)] (((cutLeaf sh key fresh p next es).kids k).flatMap fun kc => kc.2.links) := by
  rcases cutLeaf_cases sh key fresh p next es with ⟨-, h⟩ | ⟨-, xs, e, ys, heq, -, h⟩
  · simpa [h] using Relinks.refl [(p, next)]
  · intro fin hl
    simpa [h, Linked, start] using hl

theorem links_cutBranch :
    (((cutBranch sh fresh p kids).kids k).flatMap fun kc => kc.2.links)
      = kids.flatMap fun kc => kc.2.links := by
  rcases cutBranch_cases sh fresh p kids with ⟨-, h⟩ | ⟨-, xs, k', c, ys, heq, -, h⟩
  · simp [h]
  · rw [h]; simp [heq]

theorem pages_cutLeaf :
    (((cutLeaf sh key fresh p next es).kids k).flatMap fun kc => kc.2.pages)
      = p :: if sh.leafMax < es.length then [fresh] else [] := by
  rcases cutLeaf_cases sh key fresh p next es with ⟨hle, h⟩ | ⟨hlt, xs, e, ys, heq, -, h⟩
  · simp [h, Nat.not_lt.mpr hle]
  · simp [h, hlt]

theorem pages_cutBranch :
    (((cutBranch sh fresh p kids).kids k).flatMap fun kc => kc.2.pages).Perm
      (p :: (kids.flatMap fun kc => kc.2.pages) ++
        if sh.branchMax < kids.length then [fresh] else []) := by
  rcases cutBranch_cases sh fresh p kids with ⟨hle, h⟩ | ⟨hlt, xs, k', c, ys, heq, -, h⟩
  · simp [h, Nat.not_lt.mpr hle]
  · classical
    rw [if_pos hlt, h, List.perm_iff_count]
    intro a
    simp only [Grown.kids_two, Tree.pages_branch, heq, List.flatMap_cons, List.flatMap_append,
      List.flatMap_nil, List.count_append, List.count_cons, List.cons_append, List.count_nil]
    omega

/-- A leaf of at most one entry too many is kept, or cut into two packed leaves. -/
theorem packed_cutLeaf (sh : Shape) (hmax : es.length ≤ sh.leafMax + 1) :
    (es.length ≤ sh.leafMax ∧ cutLeaf sh key fresh p next es = (.leaf p next es, none)) ∨
    (sh.leafMax < es.length ∧ ∃ l sep r, cutLeaf sh key fresh p next es = (l, some (sep, r)) ∧
      l.Packed sh ∧ r.Packed sh) := by
  have hhalf := sh.leaf_half
  have hlt := sh.leaf_lt
  rcases cutLeaf_cases sh key fresh p next es with h | ⟨hover, xs, e, ys, heq, hlen, h⟩
  · exact .inl h
  · have hys : es.length = xs.length + (ys.length + 1) := by rw [heq]; simp
    refine .inr ⟨hover, _, _, _, h, ?_, ?_⟩
    · rw [Tree.packed_leaf]; omega
    · rw [Tree.packed_leaf, List.length_cons]; omega

theorem packed_cutBranch (sh : Shape) (hmax : kids.length ≤ sh.branchMax + 1) (hkids : ∀ kc ∈ kids, kc.2.Packed sh) :
    (kids.length ≤ sh.branchMax ∧ cutBranch sh fresh p kids = (.branch p kids, none)) ∨
    (sh.branchMax < kids.length ∧ ∃ l sep r, cutBranch sh fresh p kids = (l, some (sep, r)) ∧
      l.Packed sh ∧ r.Packed sh) := by
  have hhalf := sh.branch_half
  rcases cutBranch_cases sh fresh p kids with h | ⟨hover, xs, k, c, ys, heq, hlen, h⟩
  · exact .inl h
  · have hys : kids.length = xs.length + (ys.length + 1) := by rw [heq]; simp
    rw [heq] at hkids
    refine .inr ⟨hover, _, _, _, h, ?_, ?_⟩
    · exact Tree.packed_branch.mpr ⟨by omega, fun kc hkc => hkids kc (List.mem_append_left _ hkc)⟩
    · exact Tree.packed_branch.mpr
        ⟨by simp only [List.length_cons]; omega, fun kc hkc => hkids kc (List.mem_append_right _ hkc)⟩

end Parts

section Order
variable [LinearOrder K] {key : E → K} {lo : K} {hi : WithTop K}

theorem ordered_cutLeaf (fresh p next : P) {es : List E} (k : K) (hes : EntriesIn key lo hi es) :
    KidsIn (fun a b c => Tree.Ordered key a b c) lo hi ((cutLeaf sh key fresh p next es).kids k) := by
  rcases cutLeaf_cases sh key fresh p next es with ⟨-, h⟩ | ⟨hlt, xs, e, ys, heq, hlen, h⟩
  · rw [h]; exact hes
  · have hne : xs ≠ [] := by
      rintro rfl
      have := sh.leaf_lt
      simp at hlen; omega
    rw [heq] at hes
    rw [h]
    exact hes.cut hne

theorem ordered_cutBranch {n : Nat} (fresh p : P) {kids : List (K × Tree P K E n)} (k : K)
    (hkids : KidsIn (fun a b c => Tree.Ordered key a b c) lo hi kids) :
    KidsIn (fun a b c => Tree.Ordered key a b c) lo hi ((cutBranch sh fresh p kids).kids k) := by
  rcases cutBranch_cases sh fresh p kids with ⟨-, h⟩ | ⟨hlt, xs, k', c, ys, heq, hlen, h⟩
  · rw [h]; exact hkids
  · have hne : xs ≠ [] := by
      rintro rfl
      have := sh.branch_two
      have := sh.branch_half
      simp at hlen; omega
    rw [heq, KidsIn.append_iff hne] at hkids
    rw [h]
    exact hkids

end Order
end Cut

/-! The operation. -/

section Insert
variable [LinearOrder K] {sh : Shape} {key : E → K} {lo : K} {hi : WithTop K} {fresh : Nat → P} {e : E}

theorem leading_position {es : List E} (h : EntriesIn key lo hi es) (x : K) :
    Search.Leading (fun e => decide (key e < x)) es := by
  refine h.1.imp ?_
  intro a b hab hb
  simp only [decide_eq_true_eq] at hb ⊢
  exact hab.trans hb

/-- The entry with key `x`, if there is one, is at its position. -/
theorem EntriesIn.at_position {es : List E} {x : K} (h : EntriesIn key lo hi es) {e : E} (he : e ∈ es)
    (hx : key e = x) : ∃ xs ys, es = xs ++ e :: ys ∧ xs.length = position key es x := by
  obtain ⟨xs, ys, rfl⟩ := List.append_of_mem he
  obtain ⟨-, hys, hxs⟩ := List.pairwise_append.mp h.1
  have h1 : xs.countP (fun e' => decide (key e' < x)) = xs.length :=
    List.countP_eq_length.mpr fun a ha => by simpa [← hx] using hxs a ha e (by simp)
  have h2 : ys.countP (fun e' => decide (key e' < x)) = 0 :=
    List.countP_eq_zero.mpr fun a ha => by
      simpa [← hx] using le_of_lt ((List.pairwise_cons.mp hys).1 a ha)
  exact ⟨xs, ys, rfl, by simp [position, h1, h2, hx]⟩

theorem EntriesIn.insert {es : List E} (h : EntriesIn key lo hi es) (hlo : lo ≤ key e)
    (hhi : (key e : WithTop K) < hi) (hnew : ∀ e' ∈ es, key e' ≠ key e) :
    EntriesIn key lo hi
      (es.take (position key es (key e)) ++ e :: es.drop (position key es (key e))) := by
  have hlead := leading_position h (key e)
  have hbelow : ∀ a ∈ es.take (position key es (key e)), key a < key e := fun a ha => by
    simpa using hlead.take a ha
  have habove : ∀ a ∈ es.drop (position key es (key e)), key e < key a := fun a ha =>
    lt_of_le_of_ne (by simpa using hlead.drop a ha) (hnew a (List.mem_of_mem_drop ha)).symm
  have hb : ∀ a ∈ es, lo ≤ key a ∧ (key a : WithTop K) < hi := h.2
  refine ⟨List.pairwise_append.mpr ⟨h.1.sublist (List.take_sublist _ _),
    List.pairwise_cons.mpr ⟨habove, h.1.sublist (List.drop_sublist _ _)⟩, fun a ha b hb => ?_⟩, fun a ha => ?_⟩
  · rcases List.mem_cons.mp hb with rfl | hb
    · exact hbelow a ha
    · exact (hbelow a ha).trans (habove b hb)
  · rcases List.mem_append.mp ha with ha | ha
    · exact hb a (List.mem_of_mem_take ha)
    · rcases List.mem_cons.mp ha with rfl | ha
      · exact ⟨hlo, hhi⟩
      · exact hb a (List.mem_of_mem_drop ha)

theorem insertRec_leaf (p next : P) (es : List E) :
    insertRec sh key fresh e (.leaf p next es) = cutLeaf sh key (fresh 0) p next
      (es.take (position key es (key e)) ++ e :: es.drop (position key es (key e))) := rfl

theorem insertRec_branch {n : Nat} (p : P) {kids before after : List (K × Tree P K E n)} {k : K}
    {c : Tree P K E n} (h : kids = before ++ (k, c) :: after) (hi : before.length = route kids (key e)) :
    insertRec sh key fresh e (.branch p kids) = cutBranch sh (fresh (n + 1)) p
      (before ++ (insertRec sh key fresh e c).kids k ++ after) := by
  have hget : kids[route kids (key e)]? = some (k, c) := by rw [← hi, h]; simp
  have htake : kids.take (route kids (key e)) = before := by rw [← hi, h]; simp
  have hdrop : kids.drop (route kids (key e) + 1) = after := by rw [← hi, h]; simp
  have : insertRec sh key fresh e (.branch p kids) =
      match kids[route kids (key e)]? with
      | none => (.branch p kids, none)
      | some (k, c) => cutBranch sh (fresh (n + 1)) p (kids.take (route kids (key e)) ++
          (insertRec sh key fresh e c).kids k ++ kids.drop (route kids (key e) + 1)) := rfl
  rw [this, hget, htake, hdrop]

theorem page_insertRec {n : Nat} (t : Tree P K E n) : (insertRec sh key fresh e t).1.page = t.page := by
  cases t using Tree.ind with
  | leaf p next es =>
    rw [insertRec_leaf]
    rcases cutLeaf_cases sh key (fresh 0) p next _ with ⟨-, h⟩ | ⟨-, _, _, _, -, -, h⟩ <;> rw [h] <;> rfl
  | @branch n p kids ih =>
    rcases hget : kids[route kids (key e)]? with _ | ⟨k, c⟩
    · have : insertRec sh key fresh e (.branch p kids) = (.branch p kids, none) := by
        show (match kids[route kids (key e)]? with
          | none => (_, none)
          | some (k, c) => _) = _
        rw [hget]
      rw [this]
    · obtain ⟨hlt, hc⟩ := List.getElem?_eq_some_iff.mp hget
      have hsplit : kids = kids.take (route kids (key e)) ++ (k, c) :: kids.drop (route kids (key e) + 1) := by
        rw [← hc, List.cons_getElem_drop_succ, List.take_append_drop]
      rw [insertRec_branch p hsplit (by simp; omega)]
      rcases cutBranch_cases sh (fresh (n + 1)) p _ with ⟨-, h⟩ | ⟨-, _, _, _, _, -, -, h⟩ <;> rw [h] <;> rfl

variable (sh fresh)

/-- The order is kept: what takes the node's place lies in its interval. -/
theorem ordered_insertRec {n : Nat} {t : Tree P K E n} (k : K) (ht : t.Ordered key lo hi) (hlo : lo ≤ key e)
    (hhi : (key e : WithTop K) < hi) (hnew : ∀ e' ∈ t.toList, key e' ≠ key e) :
    KidsIn (fun a b c => Tree.Ordered key a b c) lo hi ((insertRec sh key fresh e t).kids k) := by
  induction t generalizing lo hi k with
  | leaf p next es => exact ordered_cutLeaf _ _ _ _ (EntriesIn.insert ht hlo hhi hnew)
  | branch p kids ih =>
    obtain ⟨before, k', c, after, a, b, r⟩ := ht.routed hlo hhi
    have hnew' : ∀ e' ∈ c.toList, key e' ≠ key e := fun e' he' =>
      hnew e' (List.mem_flatMap.mpr ⟨(k', c), r.mem, he'⟩)
    rw [insertRec_branch p r.split r.index]
    exact ordered_cutBranch _ _ _ (r.replace _ _ (ih _ r.mem k' r.child r.low r.high hnew'))

theorem perm_within {α : Type} {xs ys ys' zs : List α} {a : α} (h : ys.Perm (a :: ys')) :
    (xs ++ (ys ++ zs)).Perm (a :: (xs ++ (ys' ++ zs))) :=
  ((h.append_right zs).append_left xs).trans List.perm_middle

/-- The entries are the old ones and the new one. -/
theorem toList_insertRec {n : Nat} {t : Tree P K E n} (k : K) (ht : t.Ordered key lo hi) (hlo : lo ≤ key e)
    (hhi : (key e : WithTop K) < hi) :
    (((insertRec sh key fresh e t).kids k).flatMap fun kc => kc.2.toList).Perm (e :: t.toList) := by
  induction t generalizing lo hi k with
  | leaf p next es =>
    rw [insertRec_leaf, toList_cutLeaf]
    refine List.perm_middle.trans ?_
    rw [List.take_append_drop]
    rfl
  | branch p kids ih =>
    obtain ⟨before, k', c, after, a, b, r⟩ := ht.routed hlo hhi
    rw [insertRec_branch p r.split r.index, toList_cutBranch, Tree.toList_branch, r.split]
    simp only [List.flatMap_append, List.flatMap_cons, List.append_assoc]
    exact perm_within (ih _ r.mem k' r.child r.low r.high)

/-- The chain goes through the new leaf. -/
theorem links_insertRec {n : Nat} {t : Tree P K E n} (k : K) (ht : t.Ordered key lo hi) (hlo : lo ≤ key e)
    (hhi : (key e : WithTop K) < hi) :
    Relinks t.links (((insertRec sh key fresh e t).kids k).flatMap fun kc => kc.2.links) := by
  induction t generalizing lo hi k with
  | leaf p next es => exact links_cutLeaf _ _ _ _ _ _
  | branch p kids ih =>
    obtain ⟨before, k', c, after, a, b, r⟩ := ht.routed hlo hhi
    rw [insertRec_branch p r.split r.index, links_cutBranch, Tree.links_branch, r.split]
    simp only [List.flatMap_append, List.flatMap_cons, List.append_assoc]
    exact (Relinks.refl _).append ((ih _ r.mem k' r.child r.low r.high).append (Relinks.refl _))

/-! Occupancy and pages. -/

theorem splits_branch {n : Nat} (p : P) {kids before after : List (K × Tree P K E n)} {k x : K}
    {c : Tree P K E n} (h : kids = before ++ (k, c) :: after) (hi : before.length = route kids x) :
    splits sh x (.branch p kids : Tree P K E (n + 1)) =
      if splits sh x c = n + 1 ∧ sh.branchMax ≤ kids.length then n + 2 else splits sh x c := by
  have hget : kids[route kids x]? = some (k, c) := by rw [← hi, h]; simp
  show (match kids[route kids x]? with
    | none => 0
    | some (_, c) => _) = _
  rw [hget]
  rfl

theorem splits_le {n : Nat} (x : K) (t : Tree P K E n) : splits sh x t ≤ n + 1 := by
  induction t with
  | leaf p next es =>
    show (if _ then 1 else 0) ≤ 1
    split <;> omega
  | @branch n p kids ih =>
    show (match kids[route kids x]? with
      | none => 0
      | some (_, c) => if splits sh x c = n + 1 ∧ sh.branchMax ≤ kids.length then n + 2 else splits sh x c) ≤ _
    rcases hget : kids[route kids x]? with _ | ⟨k, c⟩
    · simp
    · have : splits sh x c ≤ n + 1 := ih (k, c) (List.mem_of_getElem? hget)
      simp only
      split <;> omega

/-- What an insert does to a node: it stays one node, no smaller than before, or it is
replaced by two packed ones. -/
inductive Outcome (sh : Shape) (x : K) {n : Nat} (t : Tree P K E n) : Grown P K E n → Prop
  | one {t' : Tree P K E n} : splits sh x t ≤ n → t'.PackedBelow sh → t.size ≤ t'.size →
      t'.size ≤ sh.max n → Outcome sh x t (t', none)
  | two {l r : Tree P K E n} {sep : K} : splits sh x t = n + 1 → l.Packed sh → r.Packed sh →
      Outcome sh x t (l, some (sep, r))

theorem Outcome.packed {n : Nat} {t : Tree P K E n} {x k : K} {g : Grown P K E n} (h : Outcome sh x t g)
    (hmin : sh.min n ≤ t.size) : ∀ kc ∈ g.kids k, kc.2.Packed sh := by
  cases h with
  | one _ hb hle hmax => simpa using Tree.packed_iff.mpr ⟨le_trans hmin hle, hmax, hb⟩
  | two _ hl hr => simpa using ⟨hl, hr⟩

theorem outcome_insertRec {n : Nat} {t : Tree P K E n} (ht : t.Ordered key lo hi) (hlo : lo ≤ key e)
    (hhi : (key e : WithTop K) < hi) (hbelow : t.PackedBelow sh) (hsize : t.size ≤ sh.max n) :
    Outcome sh (key e) t (insertRec sh key fresh e t) := by
  induction t generalizing lo hi with
  | leaf p next es =>
    rw [Tree.size_leaf, Shape.max] at hsize
    have hlen : (es.take (position key es (key e)) ++ e :: es.drop (position key es (key e))).length
        = es.length + 1 := by simp; omega
    have hsplits : splits sh (key e) (.leaf p next es : Tree P K E 0)
        = if sh.leafMax ≤ es.length then 1 else 0 := rfl
    rw [insertRec_leaf]
    generalize es.take (position key es (key e)) ++ e :: es.drop (position key es (key e)) = es' at hlen ⊢
    rcases packed_cutLeaf key (fresh 0) p next es' sh (by omega) with
      ⟨hle, h⟩ | ⟨hlt, l, sep, r, h, hl, hr⟩
    · rw [h]
      rw [hlen] at hle
      exact .one (by rw [hsplits, if_neg (by omega)]) trivial (by simp only [Tree.size_leaf]; omega)
        (by simp only [Tree.size_leaf, Shape.max]; omega)
    · rw [h]
      exact .two (by rw [hsplits, if_pos (by omega)]) hl hr
  | @branch n p kids ih =>
    obtain ⟨before, k, c, after, a, b, r⟩ := ht.routed hlo hhi
    have hc := Tree.packed_iff.mp (hbelow _ r.mem)
    have hout : Outcome sh (key e) c (insertRec sh key fresh e c) :=
      ih _ r.mem r.child r.low r.high hc.2.2 hc.2.1
    have hkids : ∀ kc ∈ before ++ (insertRec sh key fresh e c).kids k ++ after, kc.2.Packed sh := by
      rw [Tree.packedBelow_branch, r.split] at hbelow
      intro kc hkc
      simp only [List.mem_append] at hkc
      rcases hkc with (hkc | hkc) | hkc
      · exact hbelow kc (by simp [hkc])
      · exact hout.packed _ hc.1 kc hkc
      · exact hbelow kc (by simp [hkc])
    have hlen : kids.length = before.length + (after.length + 1) := by rw [r.split]; simp
    rw [Tree.size_branch, Shape.max] at hsize
    rw [insertRec_branch p r.split r.index]
    have hsplits := splits_branch sh p r.split r.index
    generalize insertRec sh key fresh e c = g at hkids hout
    cases hout with
    | @one t' hs =>
      have hlen' : (before ++ Grown.kids k (t', none) ++ after).length = kids.length := by simp; omega
      rcases packed_cutBranch (fresh (n + 1)) p _ sh (by omega) hkids with ⟨-, h⟩ | ⟨hlt, -⟩
      · rw [h]
        refine .one ?_ hkids (by simp only [Tree.size_branch]; omega)
          (by simp only [Tree.size_branch, Shape.max]; omega)
        rw [hsplits, if_neg (by omega)]
        omega
      · omega
    | @two l r' sep hs =>
      have hlen' : (before ++ Grown.kids k (l, some (sep, r')) ++ after).length = kids.length + 1 := by
        simp; omega
      rcases packed_cutBranch (fresh (n + 1)) p _ sh (by omega) hkids with
        ⟨hle, h⟩ | ⟨hlt, l', sep', r'', h, hl, hr⟩
      · rw [h]
        refine .one ?_ hkids (by simp only [Tree.size_branch]; omega)
          (by simp only [Tree.size_branch, Shape.max]; omega)
        rw [hsplits, if_neg (by omega), hs]
      · rw [h]
        exact .two (by rw [hsplits, if_pos ⟨hs, by omega⟩]) hl hr

/-- The pages are the old ones and a fresh one for each split. -/
theorem pages_insertRec {n : Nat} {t : Tree P K E n} (k : K) (ht : t.Ordered key lo hi) (hlo : lo ≤ key e)
    (hhi : (key e : WithTop K) < hi) (hbelow : t.PackedBelow sh) (hsize : t.size ≤ sh.max n) :
    (((insertRec sh key fresh e t).kids k).flatMap fun kc => kc.2.pages).Perm
      (t.pages ++ (List.range (splits sh (key e) t)).map fresh) := by
  induction t generalizing lo hi k with
  | leaf p next es =>
    have hsplits : splits sh (key e) (.leaf p next es : Tree P K E 0)
        = if sh.leafMax ≤ es.length then 1 else 0 := rfl
    have hlen : (es.take (position key es (key e)) ++ e :: es.drop (position key es (key e))).length
        = es.length + 1 := by simp; omega
    rw [insertRec_leaf, pages_cutLeaf, hsplits, hlen]
    by_cases h : sh.leafMax ≤ es.length
    · rw [if_pos (by omega), if_pos h]; exact .refl _
    · rw [if_neg (by omega), if_neg h]; exact .refl _
  | @branch n p kids ih =>
    obtain ⟨before, k', c, after, a, b, r⟩ := ht.routed hlo hhi
    have hc := Tree.packed_iff.mp (hbelow _ r.mem)
    have hout : Outcome sh (key e) c (insertRec sh key fresh e c) :=
      outcome_insertRec sh fresh r.child r.low r.high hc.2.2 hc.2.1
    have hperm := ih _ r.mem k' r.child r.low r.high hc.2.2 hc.2.1
    have hlen : kids.length = before.length + (after.length + 1) := by rw [r.split]; simp
    rw [Tree.size_branch, Shape.max] at hsize
    rw [insertRec_branch p r.split r.index, splits_branch sh p r.split r.index]
    refine (pages_cutBranch _ _ _ _).trans ?_
    generalize insertRec sh key fresh e c = g at hperm hout
    have hperm' : ∀ extra : List P, (p :: ((before ++ g.kids k' ++ after).flatMap fun kc => kc.2.pages) ++
        extra).Perm ((Tree.branch p kids).pages ++
          ((List.range (splits sh (key e) c)).map fresh ++ extra)) := by
      classical
      intro extra
      rw [List.perm_iff_count] at hperm ⊢
      intro q
      have hq := hperm q
      rw [Tree.pages_branch, r.split]
      simp only [List.flatMap_append, List.flatMap_cons, List.count_cons, List.count_append,
        List.cons_append] at hq ⊢
      omega
    cases hout with
    | @one t' hs =>
      have hle : ¬ sh.branchMax < (before ++ Grown.kids k' (t', none) ++ after).length := by
        simp; omega
      rw [if_neg hle, if_neg (by omega)]
      simpa using hperm' []
    | @two l r' sep hs =>
      have hlen' : (before ++ Grown.kids k' (l, some (sep, r')) ++ after).length = kids.length + 1 := by
        simp; omega
      rw [hlen']
      by_cases hfull : sh.branchMax ≤ kids.length
      · rw [hs] at hperm'
        rw [if_pos (by omega), if_pos ⟨hs, hfull⟩, List.range_succ (n := n + 1), List.map_append]
        exact hperm' _
      · rw [if_neg (by omega), if_neg (by omega)]
        simpa using hperm' []

/-! The whole tree. -/

/-- The fresh pages an insert of `x` takes: one a split, and one for a new root. -/
def newPages (sh : Shape) (x : K) (t : Σ n, Tree P K E n) : Nat :=
  splits sh x t.2 + if splits sh x t.2 = t.1 + 1 then 1 else 0

/-- The two ways an insert into a whole tree ends. -/
theorem insert_cases {least : K} {nil : P} {t : Σ n, Tree P K E n} (h : Valid sh key least nil t)
    (hlo : least ≤ key e) :
    (∃ t', insertRec sh key fresh e t.2 = (t', none) ∧ insert sh key least fresh e t = ⟨t.1, t'⟩ ∧
      splits sh (key e) t.2 ≤ t.1 ∧ t'.PackedBelow sh ∧ t.2.size ≤ t'.size ∧ t'.size ≤ sh.max t.1) ∨
    (∃ l sep r, insertRec sh key fresh e t.2 = (l, some (sep, r)) ∧
      insert sh key least fresh e t = ⟨t.1 + 1, .branch (fresh (t.1 + 1)) [(least, l), (sep, r)]⟩ ∧
      splits sh (key e) t.2 = t.1 + 1 ∧ l.Packed sh ∧ r.Packed sh) := by
  have hout : Outcome sh (key e) t.2 (insertRec sh key fresh e t.2) :=
    outcome_insertRec sh fresh h.ordered hlo (WithTop.coe_lt_top _) h.packed.below.1 h.packed.below.2
  unfold insert
  generalize insertRec sh key fresh e t.2 = g at hout
  cases hout with
  | one h1 h2 h3 h4 => exact .inl ⟨_, rfl, rfl, h1, h2, h3, h4⟩
  | two h1 h2 h3 => exact .inr ⟨_, _, _, rfl, rfl, h1, h2, h3⟩

section Whole
variable {least : K} {nil : P} {t : Σ n, Tree P K E n}

theorem toList_insert (h : Valid sh key least nil t) (hlo : least ≤ key e) :
    (insert sh key least fresh e t).2.toList.Perm (e :: t.2.toList) := by
  have := toList_insertRec sh fresh least h.ordered hlo (WithTop.coe_lt_top _)
  rcases insert_cases sh fresh h hlo with ⟨t', hrec, hins, -⟩ | ⟨l, sep, r, hrec, hins, -⟩
  · rw [hins]; simpa [hrec] using this
  · rw [hins]; simpa [hrec] using this

theorem pages_insert (h : Valid sh key least nil t) (hlo : least ≤ key e) :
    (insert sh key least fresh e t).2.pages.Perm
      (t.2.pages ++ (List.range (newPages sh (key e) t)).map fresh) := by
  have := pages_insertRec sh fresh least h.ordered hlo (WithTop.coe_lt_top _)
    h.packed.below.1 h.packed.below.2
  rcases insert_cases sh fresh h hlo with
    ⟨t', hrec, hins, hs, -⟩ | ⟨l, sep, r, hrec, hins, hs, -⟩
  · rw [hins, newPages, if_neg (by omega)]; simpa [hrec] using this
  · rw [hins, newPages, if_pos hs, hs, List.range_succ (n := t.1 + 1), List.map_append, ← List.append_assoc]
    rw [hrec, hs] at this
    simp only [Tree.pages_branch, List.map_singleton]
    exact (List.perm_append_singleton _ _).symm.trans (this.append_right _)

theorem valid_insert (h : Valid sh key least nil t) (hlo : least ≤ key e)
    (hnew : ∀ e' ∈ t.2.toList, key e' ≠ key e)
    (hfresh : (t.2.pages ++ (List.range (newPages sh (key e) t)).map fresh).Nodup) :
    Valid sh key least nil (insert sh key least fresh e t) := by
  have hord := ordered_insertRec sh fresh least h.ordered hlo (WithTop.coe_lt_top _) hnew
  have hlink := (links_insertRec sh fresh least h.ordered hlo
    (WithTop.coe_lt_top _) nil h.linked).1
  have hnodup := (pages_insert sh fresh h hlo).nodup_iff.mpr hfresh
  rcases insert_cases sh fresh h hlo with
    ⟨t', hrec, hins, hs, hb, hle, hmax⟩ | ⟨l, sep, r, hrec, hins, hs, hl, hr⟩
  · rw [hrec] at hord hlink
    rw [hins] at hnodup ⊢
    refine ⟨hord, ?_, by simpa using hlink, hnodup⟩
    obtain ⟨n, t⟩ := t
    have hroot := h.packed
    simp only at hle hmax hb
    cases n with
    | zero => exact hmax
    | succ n =>
      have h2 : 2 ≤ t.size := hroot.1.1
      exact ⟨⟨le_trans h2 hle, hmax⟩, hb⟩
  · rw [hrec] at hord hlink
    rw [hins] at hnodup ⊢
    have hmax : 2 ≤ sh.branchMax := by have := sh.branch_two; have := sh.branch_half; omega
    exact ⟨hord, Tree.packedRoot_branch.mpr ⟨⟨le_refl _, hmax⟩, by simpa using ⟨hl, hr⟩⟩,
      by simpa using hlink, hnodup⟩

end Whole
end Insert
end BTree
