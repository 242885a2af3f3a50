import Mathlib

/- B+trees of a fixed height, as values.

   `Tree P K E n` is a tree whose leaves are `n` levels down: a leaf holds entries
   and a link to the next leaf, a branch holds its children, each with the
   separator on its left. The first child's separator is not read by anything.
   Nodes carry the page they live on. Height is in the type, so a tree cannot be
   uneven, and every function on trees is a recursion on it.

   What a search tree must satisfy is stated in three separate parts, because
   the operations keep them for different reasons: `Ordered` (keys lie in the
   interval their separators give), `Packed` (every node holds a number of items in
   range), `Linked` (the leaf links spell out the leaves in order). -/
namespace BTree

structure Leaf (P E : Type) where
  page : P
  next : P
  entries : List E
  deriving DecidableEq, Repr

structure Branch (P K C : Type) where
  page : P
  kids : List (K × C)
  deriving DecidableEq, Repr

/-- Trees with leaves `n` levels below the root. -/
def Tree (P K E : Type) : Nat → Type
  | 0 => Leaf P E
  | n + 1 => Branch P K (Tree P K E n)

variable {P K E C : Type}

namespace Tree

def leaf (page next : P) (entries : List E) : Tree P K E 0 := Leaf.mk page next entries

def branch {n : Nat} (page : P) (kids : List (K × Tree P K E n)) : Tree P K E (n + 1) :=
  Branch.mk page kids

/-- Induction over the levels: a leaf, or a branch all of whose children satisfy it. -/
@[elab_as_elim, induction_eliminator]
theorem ind {motive : ∀ {n : Nat}, Tree P K E n → Prop}
    (leaf : ∀ page next entries, motive (Tree.leaf page next entries))
    (branch : ∀ {n : Nat} page (kids : List (K × Tree P K E n)), (∀ kc ∈ kids, motive kc.2) →
      motive (Tree.branch page kids)) : ∀ {n : Nat} (t : Tree P K E n), motive t
  | 0, t => leaf (Leaf.page t) (Leaf.next t) (Leaf.entries t)
  | _ + 1, t => branch (Branch.page t) (Branch.kids t) fun kc _ => ind leaf branch kc.2

def page : {n : Nat} → Tree P K E n → P
  | 0, t => Leaf.page t
  | _ + 1, t => Branch.page t

/-- The entries in key order. -/
def toList : {n : Nat} → Tree P K E n → List E
  | 0, t => Leaf.entries t
  | _ + 1, t => (Branch.kids t).flatMap fun kc => toList kc.2

/-- Every page of the tree, a node before its children. -/
def pages : {n : Nat} → Tree P K E n → List P
  | 0, t => [Leaf.page t]
  | _ + 1, t => Branch.page t :: (Branch.kids t).flatMap fun kc => pages kc.2

/-- Each leaf's page and link, in order. -/
def links : {n : Nat} → Tree P K E n → List (P × P)
  | 0, t => [(Leaf.page t, Leaf.next t)]
  | _ + 1, t => (Branch.kids t).flatMap fun kc => links kc.2

/-- The leaves, left to right. -/
def leaves : {n : Nat} → Tree P K E n → List (Leaf P E)
  | 0, t => [t]
  | _ + 1, t => (Branch.kids t).flatMap fun kc => leaves kc.2

/-- Entries of a leaf, children of a branch. -/
def size : {n : Nat} → Tree P K E n → Nat
  | 0, t => (Leaf.entries t).length
  | _ + 1, t => (Branch.kids t).length

section Equations
variable {n : Nat} (p next : P) (es : List E) (kids : List (K × Tree P K E n))

@[simp] theorem page_leaf : (leaf p next es : Tree P K E 0).page = p := rfl
@[simp] theorem page_branch : (branch p kids).page = p := rfl
@[simp] theorem toList_leaf : (leaf p next es : Tree P K E 0).toList = es := rfl
@[simp] theorem toList_branch : (branch p kids).toList = kids.flatMap fun kc => kc.2.toList := rfl
@[simp] theorem pages_leaf : (leaf p next es : Tree P K E 0).pages = [p] := rfl
@[simp] theorem pages_branch : (branch p kids).pages = p :: kids.flatMap fun kc => kc.2.pages := rfl
@[simp] theorem links_leaf : (leaf p next es : Tree P K E 0).links = [(p, next)] := rfl
@[simp] theorem links_branch : (branch p kids).links = kids.flatMap fun kc => kc.2.links := rfl
@[simp] theorem leaves_leaf : (leaf p next es : Tree P K E 0).leaves = [⟨p, next, es⟩] := rfl
@[simp] theorem leaves_branch : (branch p kids).leaves = kids.flatMap fun kc => kc.2.leaves := rfl
@[simp] theorem size_leaf : (leaf p next es : Tree P K E 0).size = es.length := rfl
@[simp] theorem size_branch : (branch p kids).size = kids.length := rfl

end Equations

theorem page_mem_pages {n : Nat} (t : Tree P K E n) : t.page ∈ t.pages := by
  cases t using ind <;> simp

theorem toList_eq_leaves {n : Nat} (t : Tree P K E n) : t.toList = t.leaves.flatMap Leaf.entries := by
  induction t with
  | leaf p next es => simp
  | branch p kids ih =>
    rw [toList_branch, leaves_branch, List.flatMap_assoc]
    exact List.flatMap_congr ih

theorem mem_toList {n : Nat} {t : Tree P K E n} {l : Leaf P E} {e : E} (hl : l ∈ t.leaves) (he : e ∈ l.entries) :
    e ∈ t.toList := by
  rw [toList_eq_leaves]
  exact List.mem_flatMap.mpr ⟨l, hl, he⟩

theorem links_eq_leaves {n : Nat} (t : Tree P K E n) : t.links = t.leaves.map fun l => (l.page, l.next) := by
  induction t with
  | leaf p next es => simp
  | branch p kids ih =>
    rw [links_branch, leaves_branch, List.map_flatMap]
    exact List.flatMap_congr ih

theorem links_pages {n : Nat} (t : Tree P K E n) : ∀ l ∈ t.links, l.1 ∈ t.pages := by
  induction t with
  | leaf p next es => simp
  | branch p kids ih =>
    intro l h
    obtain ⟨kc, hkc, hl⟩ := List.mem_flatMap.mp h
    exact List.mem_cons_of_mem _ (List.mem_flatMap.mpr ⟨kc, hkc, ih kc hkc l hl⟩)

end Tree

/-! Order. -/

section Order
variable [LinearOrder K]

/-- Keys increase and lie in `[lo, hi)`. -/
def EntriesIn (key : E → K) (lo : K) (hi : WithTop K) (es : List E) : Prop :=
  (es.Pairwise fun a b => key a < key b) ∧ ∀ e ∈ es, lo ≤ key e ∧ (key e : WithTop K) < hi

/-- Child `i` satisfies `B` on `[separator i, separator i + 1)`; the ends inherit `lo` and `hi`. -/
def KidsIn (B : K → WithTop K → C → Prop) : K → WithTop K → List (K × C) → Prop
  | _, _, [] => False
  | lo, hi, [(_, c)] => B lo hi c
  | lo, hi, (_, c) :: (k, d) :: rest =>
    lo < k ∧ (k : WithTop K) < hi ∧ B lo k c ∧ KidsIn B k hi ((k, d) :: rest)

/-- The search-tree order within `[lo, hi)`. -/
def Tree.Ordered (key : E → K) : {n : Nat} → K → WithTop K → Tree P K E n → Prop
  | 0, lo, hi, t => EntriesIn key lo hi (Leaf.entries t)
  | _ + 1, lo, hi, t => KidsIn (fun a b c => Tree.Ordered key a b c) lo hi (Branch.kids t)

/-- The child a key belongs to: the number of separators at or below it. -/
def route (kids : List (K × C)) (x : K) : Nat := kids.tail.countP fun kc => kc.1 ≤ x

variable {B : K → WithTop K → C → Prop} {key : E → K} {lo : K} {hi : WithTop K}

namespace EntriesIn

theorem nil : EntriesIn key lo hi [] := ⟨.nil, by simp⟩

theorem append {m : K} {xs ys : List E} (hx : EntriesIn key lo m xs) (hy : EntriesIn key m hi ys)
    (hlo : lo ≤ m) (hhi : (m : WithTop K) ≤ hi) : EntriesIn key lo hi (xs ++ ys) := by
  refine ⟨List.pairwise_append.mpr ⟨hx.1, hy.1, fun a ha b hb => ?_⟩, fun e he => ?_⟩
  · exact lt_of_lt_of_le (WithTop.coe_lt_coe.mp (hx.2 a ha).2) (hy.2 b hb).1
  · rcases List.mem_append.mp he with h | h
    · exact ⟨(hx.2 e h).1, lt_of_lt_of_le (hx.2 e h).2 hhi⟩
    · exact ⟨le_trans hlo (hy.2 e h).1, (hy.2 e h).2⟩

/-- A proper cut: the key at it separates the two parts. -/
theorem cut {xs ys : List E} {e : E} (h : EntriesIn key lo hi (xs ++ e :: ys)) (hx : xs ≠ []) :
    lo < key e ∧ (key e : WithTop K) < hi ∧ EntriesIn key lo (key e) xs ∧
      EntriesIn key (key e) hi (e :: ys) := by
  obtain ⟨hp, hb⟩ := h
  obtain ⟨hxp, hyp, hxy⟩ := List.pairwise_append.mp hp
  have he : ∀ a ∈ xs, key a < key e := fun a ha => hxy a ha e (by simp)
  have hlo : ∀ a ∈ xs, lo ≤ key a := fun a ha => (hb a (by simp [ha])).1
  obtain ⟨x, hx'⟩ := List.exists_mem_of_ne_nil xs hx
  refine ⟨lt_of_le_of_lt (hlo x hx') (he x hx'), (hb e (by simp)).2,
    ⟨hxp, fun a ha => ⟨hlo a ha, WithTop.coe_lt_coe.mpr (he a ha)⟩⟩, hyp, fun a ha => ⟨?_, ?_⟩⟩
  · rcases List.mem_cons.mp ha with rfl | ha
    · exact le_refl _
    · exact le_of_lt ((List.pairwise_cons.mp hyp).1 a ha)
  · exact (hb a (List.mem_append_right _ ha)).2

theorem sublist {xs ys : List E} (h : EntriesIn key lo hi ys) (hs : xs.Sublist ys) :
    EntriesIn key lo hi xs :=
  ⟨h.1.sublist hs, fun e he => h.2 e (hs.subset he)⟩

end EntriesIn

namespace KidsIn

theorem ne_nil {kids : List (K × C)} (h : KidsIn B lo hi kids) : kids ≠ [] := by
  rintro rfl
  exact h

/-- The first child's separator is not read. -/
theorem head_key {k k' : K} {c : C} {rest : List (K × C)} (h : KidsIn B lo hi ((k, c) :: rest)) :
    KidsIn B lo hi ((k', c) :: rest) := by
  cases rest with
  | nil => exact h
  | cons d rest => exact h

/-- A proper cut at a child: its separator bounds both parts. -/
theorem append_iff {k : K} {c : C} {ys : List (K × C)} : ∀ {lo : K} {xs : List (K × C)}, xs ≠ [] →
    (KidsIn B lo hi (xs ++ (k, c) :: ys) ↔
      lo < k ∧ (k : WithTop K) < hi ∧ KidsIn B lo k xs ∧ KidsIn B k hi ((k, c) :: ys))
  | _, [], h => absurd rfl h
  | lo, [(_, d)], _ => by simp [KidsIn]
  | lo, (_, d) :: (m, d') :: xs, _ => by
    have ih : KidsIn B m hi ((m, d') :: xs ++ (k, c) :: ys) ↔
        m < k ∧ (k : WithTop K) < hi ∧ KidsIn B m k ((m, d') :: xs) ∧ KidsIn B k hi ((k, c) :: ys) :=
      append_iff (by simp)
    simp only [List.cons_append] at ih
    simp only [List.cons_append, KidsIn]
    rw [ih]
    constructor
    · rintro ⟨hlm, -, hd, hmk, hk, hxs, hys⟩
      exact ⟨hlm.trans hmk, hk, ⟨hlm, WithTop.coe_lt_coe.mpr hmk, hd, hxs⟩, hys⟩
    · rintro ⟨-, hk, ⟨hlm, hmk, hd, hxs⟩, hys⟩
      exact ⟨hlm, hmk.trans hk, hd, WithTop.coe_lt_coe.mp hmk, hk, hxs, hys⟩

theorem mono {B' : K → WithTop K → C → Prop} : ∀ {lo : K} {kids : List (K × C)},
    KidsIn B lo hi kids → (∀ kc ∈ kids, ∀ a b, B a b kc.2 → B' a b kc.2) → KidsIn B' lo hi kids
  | _, [kc], h, hB => hB kc (by simp) _ _ h
  | _, (k₀, c) :: (k, d) :: rest, ⟨h1, h2, h3, h4⟩, hB =>
    ⟨h1, h2, hB (k₀, c) (by simp) _ _ h3, mono h4 fun kc hkc => hB kc (by simp [hkc])⟩

/-- Separators after the first increase, above `lo` and below `hi`. -/
theorem separators : ∀ {lo : K} {kids : List (K × C)}, KidsIn B lo hi kids →
    (kids.tail.Pairwise fun a b => a.1 < b.1) ∧ ∀ kc ∈ kids.tail, lo < kc.1 ∧ (kc.1 : WithTop K) < hi
  | _, [(_, _)], _ => by simp
  | lo, (_, _) :: (k, d) :: rest, ⟨h1, h2, _, h4⟩ => by
    obtain ⟨hp, hb⟩ := separators h4
    simp only [List.tail_cons] at hp hb ⊢
    refine ⟨List.pairwise_cons.mpr ⟨fun kc hkc => (hb kc hkc).1, hp⟩, fun kc hkc => ?_⟩
    rcases List.mem_cons.mp hkc with rfl | hkc
    · exact ⟨h1, h2⟩
    · exact ⟨h1.trans (hb kc hkc).1, (hb kc hkc).2⟩

/-- Every child has bounds of its own. -/
theorem child : ∀ {lo : K} {kids : List (K × C)}, KidsIn B lo hi kids → ∀ kc ∈ kids, ∃ a b, B a b kc.2
  | lo, [(_, c)], h, kc, hkc => by
    rw [List.mem_singleton.mp hkc]
    exact ⟨lo, hi, h⟩
  | lo, (_, c) :: (k, d) :: rest, ⟨_, _, h3, h4⟩, kc, hkc => by
    rcases List.mem_cons.mp hkc with rfl | hkc
    · exact ⟨lo, k, h3⟩
    · exact child h4 kc hkc

/-- A window of children has bounds within which it can be replaced. -/
theorem window {k : K} {c : C} {ws ys : List (K × C)} {xs : List (K × C)}
    (h : KidsIn B lo hi (xs ++ (k, c) :: ws ++ ys)) :
    ∃ a b, KidsIn B a b ((k, c) :: ws) ∧
      ∀ c' ws', KidsIn B a b ((k, c') :: ws') → KidsIn B lo hi (xs ++ (k, c') :: ws' ++ ys) := by
  -- the right end first: either the window reaches `hi` or the next separator bounds it
  have right : ∀ a, KidsIn B a hi ((k, c) :: ws ++ ys) → ∃ b, KidsIn B a b ((k, c) :: ws) ∧
      ∀ c' ws', KidsIn B a b ((k, c') :: ws') → KidsIn B a hi ((k, c') :: ws' ++ ys) := by
    intro a ha
    rcases ys with _ | ⟨⟨m, d⟩, ys⟩
    · exact ⟨hi, by simpa using ha, fun c' ws' h' => by simpa using h'⟩
    · obtain ⟨h1, h2, h3, h4⟩ := (append_iff (by simp)).mp ha
      exact ⟨m, h3, fun c' ws' h' => (append_iff (by simp)).mpr ⟨h1, h2, h', h4⟩⟩
  rcases eq_or_ne xs [] with rfl | hne
  · obtain ⟨b, hb, hrep⟩ := right lo (by simpa using h)
    exact ⟨lo, b, hb, fun c' ws' h' => by simpa using hrep c' ws' h'⟩
  · rw [List.append_assoc, List.cons_append] at h
    obtain ⟨h1, h2, h3, h4⟩ := (append_iff hne).mp h
    obtain ⟨b, hb, hrep⟩ := right k h4
    refine ⟨k, b, hb, fun c' ws' h' => ?_⟩
    rw [List.append_assoc, List.cons_append]
    exact (append_iff hne).mpr ⟨h1, h2, h3, hrep c' ws' h'⟩

/-- The children's entries together are in order. -/
theorem entries {f : C → List E} (hf : ∀ a b c, B a b c → EntriesIn key a b (f c)) :
    ∀ {lo : K} {kids : List (K × C)}, KidsIn B lo hi kids →
      EntriesIn key lo hi (kids.flatMap fun kc => f kc.2)
  | _, [(_, c)], h => by simpa using hf _ _ c h
  | _, (_, c) :: (k, d) :: rest, ⟨h1, h2, h3, h4⟩ => by
    rw [List.flatMap_cons]
    exact (hf _ _ c h3).append (entries hf h4) (le_of_lt h1) (le_of_lt h2)

end KidsIn

/-- The child `c` a key is routed to, the children around it, and its bounds. -/
structure Routed (B : K → WithTop K → C → Prop) (lo : K) (hi : WithTop K) (x : K) (kids : List (K × C))
    (before : List (K × C)) (k : K) (c : C) (after : List (K × C)) (a : K) (b : WithTop K) : Prop where
  split : kids = before ++ (k, c) :: after
  index : before.length = route kids x
  low : a ≤ x
  high : (x : WithTop K) < b
  child : B a b c
  left : ∀ kc ∈ before, ∃ a' b' : K, B a' b' kc.2 ∧ b' ≤ x
  right : ∀ kc ∈ after, ∃ (a' : K) (b' : WithTop K), B a' b' kc.2 ∧ x < a'
  replace : ∀ c' rest, KidsIn B a b ((k, c') :: rest) →
    KidsIn B lo hi (before ++ (k, c') :: rest ++ after)

/-- Routing: a key within the bounds goes to a child whose own bounds contain it. -/
theorem KidsIn.routed {x : K} (hhi : (x : WithTop K) < hi) : ∀ {lo : K} {kids : List (K × C)},
    KidsIn B lo hi kids → lo ≤ x →
    ∃ before k c after a b, Routed B lo hi x kids before k c after a b
  | lo, [(k, c)], h, hlo =>
    ⟨[], k, c, [], lo, hi, rfl, rfl, hlo, hhi, h, by simp, by simp, fun c' rest h' => by simpa using h'⟩
  | lo, (k₀, c) :: (k, d) :: rest, h, hlo => by
    obtain ⟨h1, h2, h3, h4⟩ := h
    by_cases hk : k ≤ x
    · -- at or past the first separator: route among the others
      obtain ⟨before, m, e, after, a, b, r⟩ := routed hhi h4 hk
      refine ⟨(k₀, c) :: before, m, e, after, a, b, by simp [r.split], ?_, r.low, r.high, r.child, ?_,
        r.right, ?_⟩
      · simp [r.index, route, hk]
      · intro kc hkc
        rcases List.mem_cons.mp hkc with rfl | hkc
        · exact ⟨lo, k, h3, hk⟩
        · exact r.left kc hkc
      · intro c' rest' h'
        have := r.replace c' rest' h'
        rcases before with _ | ⟨⟨m', e'⟩, before⟩
        · have hm : m = k := by have := r.split; simp at this; exact this.1.1.symm
          subst hm
          exact ⟨h1, h2, h3, by simpa using this⟩
        · have hm : m' = k := by have := r.split; simp at this; exact this.1.1.symm
          subst hm
          exact ⟨h1, h2, h3, by simpa using this⟩
    · -- below the first separator, so below all of them
      have hsep := separators h4
      have hlt : x < k := not_le.mp hk
      refine ⟨[], k₀, c, (k, d) :: rest, lo, k, rfl, ?_, hlo, WithTop.coe_lt_coe.mpr hlt, h3, by simp, ?_, ?_⟩
      · have : rest.countP (fun kc => decide (kc.1 ≤ x)) = 0 := by
          rw [List.countP_eq_zero]
          intro kc hkc
          simpa using lt_trans hlt (hsep.2 kc hkc).1
        simp [route, hk, this]
      · exact after_bounds hlt h4
      · intro c' rest' h'
        exact (append_iff (by simp)).mpr ⟨h1, h2, h', h4⟩
where
  after_bounds {x : K} : ∀ {k : K} {kids : List (K × C)}, x < k → KidsIn B k hi kids →
      ∀ kc ∈ kids, ∃ (a' : K) (b' : WithTop K), B a' b' kc.2 ∧ x < a'
    | k, [(_, c)], hlt, h, kc, hkc => by
      rw [List.mem_singleton.mp hkc]
      exact ⟨k, hi, h, hlt⟩
    | k, (_, c) :: (m, d) :: rest, hlt, ⟨h1, _, h3, h4⟩, kc, hkc => by
      rcases List.mem_cons.mp hkc with rfl | hkc
      · exact ⟨k, m, h3, hlt⟩
      · exact after_bounds (hlt.trans h1) h4 kc hkc

theorem Routed.mem {x : K} {kids before after : List (K × C)} {k a : K} {c : C} {b : WithTop K}
    (r : Routed B lo hi x kids before k c after a b) : (k, c) ∈ kids := by
  rw [r.split]; simp

@[simp] theorem Tree.ordered_leaf {p next : P} {es : List E} :
    (Tree.leaf p next es : Tree P K E 0).Ordered key lo hi ↔ EntriesIn key lo hi es := Iff.rfl

@[simp] theorem Tree.ordered_branch {n : Nat} {p : P} {kids : List (K × Tree P K E n)} :
    (Tree.branch p kids).Ordered key lo hi ↔
      KidsIn (fun a b c => Tree.Ordered key a b c) lo hi kids := Iff.rfl

theorem Tree.Ordered.routed {n : Nat} {p : P} {kids : List (K × Tree P K E n)} {x : K}
    (h : (Tree.branch p kids).Ordered key lo hi) (hlo : lo ≤ x) (hhi : (x : WithTop K) < hi) :
    ∃ before k c after a b,
      Routed (fun a b c => Tree.Ordered key a b c) lo hi x kids before k c after a b :=
  KidsIn.routed hhi h hlo

/-- The entries of an ordered tree increase and lie within its bounds. -/
theorem Tree.Ordered.entries {n : Nat} {t : Tree P K E n} (h : t.Ordered key lo hi) :
    EntriesIn key lo hi t.toList := by
  induction t generalizing lo hi with
  | leaf p next es => exact h
  | branch p kids ih =>
    have h' : KidsIn (fun a b c => EntriesIn key a b (Tree.toList c)) lo hi kids :=
      KidsIn.mono h fun kc hkc a b hc => ih kc hkc hc
    exact KidsIn.entries (fun _ _ _ hc => hc) h'

/-- An entry with the routed key is below the child the key is routed to. -/
theorem Routed.entry {n : Nat} {p : P} {x : K} {kids before after : List (K × Tree P K E n)} {k a : K}
    {c : Tree P K E n} {b : WithTop K}
    (r : Routed (fun a b c => Tree.Ordered key a b c) lo hi x kids before k c after a b)
    {e : E} (he : e ∈ (Tree.branch p kids).toList) (hx : key e = x) : e ∈ c.toList := by
  obtain ⟨kc, hkc, hmem⟩ := List.mem_flatMap.mp he
  rw [r.split] at hkc
  rcases List.mem_append.mp hkc with hkc | hkc
  · obtain ⟨a', b', ho, hb⟩ := r.left kc hkc
    have := WithTop.coe_lt_coe.mp (ho.entries.2 e hmem).2
    exact absurd hx (ne_of_lt (lt_of_lt_of_le this hb))
  · rcases List.mem_cons.mp hkc with rfl | hkc
    · exact hmem
    · obtain ⟨a', b', ho, ha⟩ := r.right kc hkc
      exact absurd hx (ne_of_gt (lt_of_lt_of_le ha (ho.entries.2 e hmem).1))

end Order

/-! Occupancy. -/

/-- Fewest and most items a node may hold, and what makes splits and merges possible. -/
structure Shape where
  leafMin : Nat
  leafMax : Nat
  branchMin : Nat
  branchMax : Nat
  leaf_pos : 1 ≤ leafMin
  leaf_half : 2 * leafMin ≤ leafMax + 1
  leaf_lt : leafMin < leafMax
  branch_two : 2 ≤ branchMin
  branch_half : 2 * branchMin ≤ branchMax + 1

namespace Shape

def min (sh : Shape) : Nat → Nat
  | 0 => sh.leafMin
  | _ + 1 => sh.branchMin

def max (sh : Shape) : Nat → Nat
  | 0 => sh.leafMax
  | _ + 1 => sh.branchMax

theorem min_pos (sh : Shape) : ∀ n, 1 ≤ sh.min n
  | 0 => sh.leaf_pos
  | _ + 1 => le_trans (by decide) sh.branch_two

theorem half (sh : Shape) : ∀ n, 2 * sh.min n ≤ sh.max n + 1
  | 0 => sh.leaf_half
  | _ + 1 => sh.branch_half

theorem min_lt_max (sh : Shape) : ∀ n, sh.min n < sh.max n
  | 0 => sh.leaf_lt
  | _ + 1 => by have := sh.branch_two; have := sh.branch_half; simp only [min, max]; omega

end Shape

/-- The node and every node below it hold a number of items in range. -/
def Tree.Packed (sh : Shape) : {n : Nat} → Tree P K E n → Prop
  | 0, t => sh.leafMin ≤ (Leaf.entries t).length ∧ (Leaf.entries t).length ≤ sh.leafMax
  | _ + 1, t => (sh.branchMin ≤ (Branch.kids t).length ∧ (Branch.kids t).length ≤ sh.branchMax) ∧
    ∀ kc ∈ Branch.kids t, Tree.Packed sh kc.2

/-- Every node below it does; the node itself is not looked at. -/
def Tree.PackedBelow (sh : Shape) : {n : Nat} → Tree P K E n → Prop
  | 0, _ => True
  | _ + 1, t => ∀ kc ∈ Branch.kids t, Tree.Packed sh kc.2

/-- A root: at most full, and a branch has two children. -/
def Tree.PackedRoot (sh : Shape) : {n : Nat} → Tree P K E n → Prop
  | 0, t => (Leaf.entries t).length ≤ sh.leafMax
  | _ + 1, t => (2 ≤ (Branch.kids t).length ∧ (Branch.kids t).length ≤ sh.branchMax) ∧
    ∀ kc ∈ Branch.kids t, Tree.Packed sh kc.2

namespace Tree
variable {sh : Shape} {n : Nat} {p next : P} {es : List E} {kids : List (K × Tree P K E n)}

@[simp] theorem packed_leaf : (leaf p next es : Tree P K E 0).Packed sh ↔
    sh.leafMin ≤ es.length ∧ es.length ≤ sh.leafMax := Iff.rfl

@[simp] theorem packed_branch : (branch p kids).Packed sh ↔
    (sh.branchMin ≤ kids.length ∧ kids.length ≤ sh.branchMax) ∧ ∀ kc ∈ kids, kc.2.Packed sh := Iff.rfl

@[simp] theorem packedBelow_leaf : (leaf p next es : Tree P K E 0).PackedBelow sh := trivial

@[simp] theorem packedBelow_branch :
    (branch p kids).PackedBelow sh ↔ ∀ kc ∈ kids, kc.2.Packed sh := Iff.rfl

@[simp] theorem packedRoot_leaf :
    (leaf p next es : Tree P K E 0).PackedRoot sh ↔ es.length ≤ sh.leafMax := Iff.rfl

@[simp] theorem packedRoot_branch : (branch p kids).PackedRoot sh ↔
    (2 ≤ kids.length ∧ kids.length ≤ sh.branchMax) ∧ ∀ kc ∈ kids, kc.2.Packed sh := Iff.rfl

theorem packed_iff {t : Tree P K E n} :
    t.Packed sh ↔ sh.min n ≤ t.size ∧ t.size ≤ sh.max n ∧ t.PackedBelow sh := by
  cases t using ind <;> simp [Shape.min, Shape.max, and_assoc]

theorem PackedRoot.below {t : Tree P K E n} (h : t.PackedRoot sh) :
    t.PackedBelow sh ∧ t.size ≤ sh.max n := by
  cases t using ind with
  | leaf p next es => exact ⟨trivial, h⟩
  | branch p kids => exact ⟨h.2, h.1.2⟩

theorem Packed.root {t : Tree P K E n} (h : t.Packed sh) : t.PackedRoot sh := by
  cases t using ind with
  | leaf p next es => exact h.2
  | branch p kids => exact ⟨⟨le_trans sh.branch_two h.1.1, h.1.2⟩, h.2⟩

/-- A packed tree of height `n` has at least `2 ^ n` leaves. -/
theorem Packed.pow_le_links {t : Tree P K E n} (h : t.Packed sh) : 2 ^ n ≤ t.links.length := by
  induction t with
  | leaf p next es => simp
  | @branch n p kids ih =>
    have hsum : ∀ ks : List (K × Tree P K E n), (∀ kc ∈ ks, 2 ^ n ≤ kc.2.links.length) →
        ks.length * 2 ^ n ≤ (ks.flatMap fun kc => kc.2.links).length := by
      intro ks
      induction ks with
      | nil => simp
      | cons kc ks ihk =>
        intro h
        have h1 := h kc (by simp)
        have h2 := ihk fun d hd => h d (by simp [hd])
        simp only [List.length_cons, List.flatMap_cons, List.length_append, Nat.succ_mul]
        omega
    obtain ⟨⟨h1, -⟩, h3⟩ := packed_branch.mp h
    calc 2 ^ (n + 1) = 2 * 2 ^ n := by rw [pow_succ, Nat.mul_comm]
      _ ≤ kids.length * 2 ^ n := Nat.mul_le_mul_right _ (le_trans sh.branch_two h1)
      _ ≤ _ := hsum kids fun kc hkc => ih kc hkc (h3 kc hkc)

theorem PackedRoot.pow_le_links {t : Tree P K E n} (h : t.PackedRoot sh) : 2 ^ n ≤ t.links.length := by
  cases t using ind with
  | leaf p next es => simp
  | @branch n p kids =>
    obtain ⟨⟨h1, -⟩, h3⟩ := packedRoot_branch.mp h
    obtain ⟨kc, kd, rest, rfl⟩ : ∃ kc kd rest, kids = kc :: kd :: rest := by
      match kids, h1 with
      | kc :: kd :: rest, _ => exact ⟨kc, kd, rest, rfl⟩
    have hc := (h3 kc (by simp)).pow_le_links
    have hd := (h3 kd (by simp)).pow_le_links
    simp only [links_branch, List.flatMap_cons, List.length_append, pow_succ]
    omega

theorem length_links_le {t : Tree P K E n} : t.links.length ≤ t.pages.length := by
  induction t with
  | leaf p next es => simp
  | branch p kids ih =>
    have hsum : (kids.flatMap fun kc => kc.2.links).length ≤ (kids.flatMap fun kc => kc.2.pages).length := by
      rw [List.length_flatMap, List.length_flatMap]
      exact List.sum_le_sum fun kc hkc => ih kc hkc
    simp only [links_branch, pages_branch, List.length_cons]
    omega

/-- Every leaf of a packed tree has an entry. -/
theorem Packed.length_links_le_toList {t : Tree P K E n} (h : t.Packed sh) : t.links.length ≤ t.toList.length := by
  induction t with
  | leaf p next es => exact le_trans sh.leaf_pos h.1
  | branch p kids ih =>
    rw [links_branch, toList_branch, List.length_flatMap, List.length_flatMap]
    exact List.sum_le_sum fun kc hkc => ih kc hkc ((packed_branch.mp h).2 kc hkc)

/-- A tree with a branch at its root has at least `2 ^ n` entries, where `n` is its height. -/
theorem PackedRoot.pow_le_toList {t : Tree P K E n} (h : t.PackedRoot sh) (hn : 1 ≤ n) : 2 ^ n ≤ t.toList.length := by
  cases t using ind with
  | leaf p next es => omega
  | @branch n p kids =>
    refine le_trans (PackedRoot.pow_le_links h) ?_
    rw [links_branch, toList_branch, List.length_flatMap, List.length_flatMap]
    exact List.sum_le_sum fun kc hkc => ((packedRoot_branch.mp h).2 kc hkc).length_links_le_toList

end Tree

/-! The leaf chain. -/

/-- The page a chain starts on, `fin` if it is empty. -/
def start (fin : P) : List (P × P) → P
  | [] => fin
  | l :: _ => l.1

/-- Each link names the next leaf, the last one `fin`. -/
def Linked (fin : P) : List (P × P) → Prop
  | [] => True
  | l :: rest => l.2 = start fin rest ∧ Linked fin rest

theorem start_append {fin : P} (xs ys : List (P × P)) :
    start fin (xs ++ ys) = start (start fin ys) xs := by
  cases xs <;> rfl

theorem linked_append {fin : P} : ∀ {xs ys : List (P × P)},
    Linked fin (xs ++ ys) ↔ Linked (start fin ys) xs ∧ Linked fin ys
  | [], _ => by simp [Linked]
  | l :: xs, ys => by
    have ih : Linked fin (xs ++ ys) ↔ Linked (start fin ys) xs ∧ Linked fin ys := linked_append
    simp only [List.cons_append, Linked, start_append, ih, and_assoc]

/-- Wherever the first chain is linked the second is too, from the same first leaf. -/
def Relinks (xs ys : List (P × P)) : Prop :=
  ∀ fin, Linked fin xs → Linked fin ys ∧ start fin ys = start fin xs

namespace Relinks

theorem refl (xs : List (P × P)) : Relinks xs xs := fun _ h => ⟨h, rfl⟩

theorem trans {xs ys zs : List (P × P)} (h : Relinks xs ys) (h' : Relinks ys zs) : Relinks xs zs := by
  intro fin hx
  obtain ⟨hy, e⟩ := h fin hx
  obtain ⟨hz, e'⟩ := h' fin hy
  exact ⟨hz, e'.trans e⟩

theorem append {xs ys xs' ys' : List (P × P)} (hx : Relinks xs xs') (hy : Relinks ys ys') :
    Relinks (xs ++ ys) (xs' ++ ys') := by
  intro fin h
  obtain ⟨h1, h2⟩ := linked_append.mp h
  obtain ⟨h2', e2⟩ := hy fin h2
  obtain ⟨h1', e1⟩ := hx _ h1
  rw [← e2] at h1' e1
  exact ⟨linked_append.mpr ⟨h1', h2'⟩, by rw [start_append, start_append, e1, e2]⟩

end Relinks

/-- A whole search tree: ordered from `least` up, packed, its leaf chain ending in `nil`, and no
page used twice. -/
structure Valid [LinearOrder K] (sh : Shape) (key : E → K) (least : K) (nil : P)
    (t : Σ n, Tree P K E n) : Prop where
  ordered : t.2.Ordered key least ⊤
  packed : t.2.PackedRoot sh
  linked : Linked nil t.2.links
  nodup : t.2.pages.Nodup

end BTree
