import KernSql.Index.Insert

/- Delete, against the abstract tree.

   The code first plans: it walks up from the leaf, fetching the sibling of every
   node that will be short, and records for each whether it lends or merges. Then
   it writes, following the plan. On the tree the plan is `planOf`: the siblings
   and fixes `deleteRec` will use, read off before anything is removed. The two
   halves of the code are proved separately (`wp_planSteps`: the plan is
   `planOf`, and the pages are as before; `wp_applyPath`: following `planOf` leaves
   `deleteRec` on the pages and returns the pages it frees), both by induction on
   the height of the subtree, the loop over the path inside it being the loop over
   the path inside its child followed by one more round. -/
namespace KernSql
open Exec BTree

namespace BPlusTree

/-- The siblings and fixes of a delete, lowest first, and whether the top node loses an item. -/
def planOf (sh : Shape) (key : Key) : {n : Nat} → KTree n → List DeleteStep × Bool
  | 0, _ => ([], true)
  | n + 1, t =>
    let i := route (Branch.kids t) key
    match (Branch.kids t)[i]?, (Branch.kids t)[if 0 < i then i - 1 else i + 1]? with
    | some (_, c), some (_, sibling) =>
      if (planOf sh key c).2 ∧ c.size ≤ sh.min n then
        if sibling.size ≤ sh.min n then
          ((planOf sh key c).1 ++ [⟨sibling.page, decide (0 < i), .merge⟩], true)
        else ((planOf sh key c).1 ++ [⟨sibling.page, decide (0 < i), .redistribute⟩], false)
      else ((planOf sh key c).1, false)
    | _, _ => ([], false)

/-- The neighbour a short child is made good from. -/
structure Beside {n : Nat} (kids before : List (Key × KTree n)) (k : Key) (c : KTree n)
    (after : List (Key × KTree n)) (sibling : KTree n) : Prop where
  split : kids = before ++ (k, c) :: after
  get : ∃ k', kids[if 0 < before.length then before.length - 1 else before.length + 1]? = some (k', sibling)
  mem : ∃ k', (k', sibling) ∈ before ∨ (k', sibling) ∈ after

theorem exists_beside {n : Nat} {kids before after : List (Key × KTree n)} {k : Key} {c : KTree n}
    (h : kids = before ++ (k, c) :: after) (h2 : 2 ≤ kids.length) :
    ∃ sibling, Beside kids before k c after sibling := by
  by_cases hb : 0 < before.length
  · have hlt : before.length - 1 < before.length := by omega
    refine ⟨before[before.length - 1].2, h, ⟨before[before.length - 1].1, ?_⟩, before[before.length - 1].1,
      .inl (List.getElem_mem hlt)⟩
    rw [if_pos hb, h, List.getElem?_append_left hlt, List.getElem?_eq_getElem hlt]
  · have hb0 : before = [] := List.eq_nil_of_length_eq_zero (by omega)
    subst hb0
    have hlen : 0 < after.length := by rw [h] at h2; simp at h2; omega
    refine ⟨after[0].2, h, ⟨after[0].1, ?_⟩, after[0].1, .inr (List.getElem_mem hlen)⟩
    rw [h]
    simp [List.getElem?_eq_getElem hlen]

theorem planOf_branch {sh : Shape} {key : Key} {n : Nat} {p : PageId} {kids before after : List (Key × KTree n)}
    {k : Key} {c sibling : KTree n} (h : Beside kids before k c after sibling)
    (hi : before.length = route kids key) :
    planOf sh key (.branch p kids : KTree (n + 1)) =
      if (planOf sh key c).2 ∧ c.size ≤ sh.min n then
        if sibling.size ≤ sh.min n then
          ((planOf sh key c).1 ++ [⟨sibling.page, decide (0 < before.length), .merge⟩], true)
        else ((planOf sh key c).1 ++ [⟨sibling.page, decide (0 < before.length), .redistribute⟩], false)
      else ((planOf sh key c).1, false) := by
  obtain ⟨k', hget⟩ := h.get
  have hc : kids[before.length]? = some (k, c) := by rw [h.split]; simp
  have hkids : Branch.kids (.branch p kids : KTree (n + 1)) = kids := rfl
  rw [planOf, hkids, ← hi, hc, hget]

/-! Where the loops stop and start again. -/

/-- The last page of a path that starts at `p`. -/
def topOf (p : PageId) : List (PageId × Nat) → PageId
  | [] => p
  | (q, _) :: up => topOf q up

theorem topOf_append (q : PageId) (i : Nat) : ∀ (p : PageId) (up : List (PageId × Nat)),
    topOf p (up ++ [(q, i)]) = q
  | _, [] => rfl
  | _, (p, _) :: up => topOf_append q i p up

theorem topOf_upPath {key lo : Key} {hi : WithTop Key} {n : Nat} {T : KTree n} (ht : T.Ordered leafKey lo hi)
    (hlo : lo ≤ key) (hhi : (key : WithTop Key) < hi) :
    topOf (pathLeaf key T).page (upPath key T) = T.page ∧ (upPath key T).isEmpty = decide (n = 0) := by
  cases T using BTree.Tree.ind with
  | leaf p next es => exact ⟨rfl, rfl⟩
  | branch p kids =>
    obtain ⟨before, k, c, after, a, b, r⟩ := BTree.Tree.Ordered.routed ht hlo hhi
    rw [upPath_branch r.split r.index]
    exact ⟨topOf_append _ _ _ _, by simp⟩

section Loops
variable {env : PoolEnv} {t : BPlusTree} {E : Status → PageStore → Prop}

theorem wp_planSteps_append {ys : List (PageId × Nat)} :
    ∀ {xs : List (PageId × Nat)} {isLeaf : Bool} {p : PageId} {Q : List DeleteStep × Bool → PageStore → Prop}
      {s : PageStore},
    wp (planSteps env t isLeaf p xs) (fun r s' =>
      (r.2 = true → wp (planSteps env t (isLeaf && xs.isEmpty) (topOf p xs) ys)
        (fun r' => Q (r.1 ++ r'.1, r'.2)) E s') ∧ (r.2 = false → Q (r.1, false) s')) E s →
    wp (planSteps env t isLeaf p (xs ++ ys)) Q E s
  | [], isLeaf, p, Q, s, h => by
    have := h.1 rfl
    simpa [topOf] using this
  | (q, i) :: xs, isLeaf, p, Q, s, h => by
    rw [List.cons_append, planSteps] at *
    rw [wp_bind] at h ⊢
    refine wp_mono h (fun o s₁ h₁ => ?_) fun _ _ he => he
    cases o with
    | none => exact h₁.2 rfl
    | some step =>
      simp only at h₁ ⊢
      by_cases hf : step.fix = .redistribute
      · rw [if_pos hf] at h₁ ⊢
        exact h₁.2 rfl
      · rw [if_neg hf] at h₁ ⊢
        rw [wp_bind] at h₁ ⊢
        refine wp_planSteps_append (wp_mono h₁ (fun r s₂ h₂ => ?_) fun _ _ he => he)
        simp only [wp_pure, List.isEmpty_cons, Bool.and_false, Bool.false_and] at h₂ ⊢
        exact ⟨h₂.1, h₂.2⟩

theorem applySteps_stop {ys : List (PageId × Nat)} : ∀ {xs : List (PageId × Nat)} {steps : List DeleteStep}
    {isLeaf : Bool} {p : PageId}, steps.length ≤ xs.length →
    applySteps isLeaf p (xs ++ ys) steps = applySteps isLeaf p xs steps
  | xs, [], isLeaf, p, _ => by cases xs <;> simp [applySteps]
  | [], _ :: _, _, _, h => by simp at h
  | (q, i) :: xs, step :: steps, isLeaf, p, h => by
    have ih : applySteps false q (xs ++ ys) steps = applySteps false q xs steps :=
      applySteps_stop (by simpa using h)
    simp only [List.cons_append, applySteps, ih]

/-- Following a plan of merges over the lower part of a path, then the rest. -/
theorem wp_applySteps_append {ys : List (PageId × Nat)} {steps' : List DeleteStep} :
    ∀ {xs : List (PageId × Nat)} {steps : List DeleteStep} {isLeaf : Bool} {p : PageId}
      {Q : List PageId → PageStore → Prop} {s : PageStore},
    steps.length = xs.length → (∀ st ∈ steps, st.fix = .merge) →
    wp (applySteps isLeaf p xs steps) (fun f s' =>
      wp (applySteps (isLeaf && xs.isEmpty) (topOf p xs) ys steps') (fun f' => Q (f ++ f')) E s') E s →
    wp (applySteps isLeaf p (xs ++ ys) (steps ++ steps')) Q E s
  | [], [], isLeaf, p, Q, s, _, _, h => by
    rw [applySteps, wp_pure] at h
    simpa [topOf] using h
  | [], _ :: _, _, _, _, _, hlen, _, _ => by simp at hlen
  | _ :: _, [], _, _, _, _, hlen, _, _ => by simp at hlen
  | (q, i) :: xs, step :: steps, isLeaf, p, Q, s, hlen, hm, h => by
    have hf : step.fix = .merge := hm step (by simp)
    rw [List.cons_append, List.cons_append, applySteps]
    rw [applySteps] at h
    simp only [hf] at h ⊢
    rw [wp_bind] at h ⊢
    refine wp_mono h (fun freed s₁ h₁ => ?_) fun _ _ he => he
    rw [wp_bind] at h₁ ⊢
    refine wp_applySteps_append (by simpa using hlen) (fun st hst => hm st (by simp [hst]))
      (wp_mono h₁ (fun f s₂ h₂ => ?_) fun _ _ he => he)
    simp only [wp_pure, List.isEmpty_cons, Bool.and_false, Bool.false_and] at h₂ ⊢
    exact h₂

end Loops

/-! Planning. -/

section Plan
variable {env : PoolEnv} {t : BPlusTree} {s : PageStore} {E : Status → PageStore → Prop} {n : Nat}

theorem isLeafAtFloor_eq (hr : t.InRange) {b : Body} {level : Nat} {next : PageId} {es : List LeafEntry}
    (h : NodeIs b level next es) : t.isLeafAtFloor b = decide (es.length ≤ (t.shape hr).leafMin) := by
  have hmax := hr.1.2
  simp only [nodeCapacity] at hmax
  rw [isLeafAtFloor, show LeafNode.count b = es.length from h.count_eq, leafMinEntries, u16_of_lt (by omega)]
  rfl

theorem isInternalAtFloor_eq (hr : t.InRange) {b : Body} {level : Nat} {next : PageId} {es : List InternalEntry}
    (h : NodeIs b level next es) : t.isInternalAtFloor b = decide (es.length ≤ (t.shape hr).branchMin) := by
  have hmax := hr.2.2
  simp only [nodeCapacity] at hmax
  rw [isInternalAtFloor, show InternalNode.count b = es.length from h.count_eq, internalMinChildren,
    u16_of_lt (by omega)]
  rfl

theorem wp_atFloor (hr : t.InRange) {c : KTree n} (hc : Holds s.pages c) {Q : Bool → PageStore → Prop}
    (hQ : Q (decide (c.size ≤ (t.shape hr).min n)) s) : wp (atFloor t (decide (n = 0)) c.page) Q E s := by
  unfold atFloor
  cases c using BTree.Tree.ind with
  | leaf p next es =>
    rw [if_pos (by simp), wp_bind, wp_orFault]
    refine wp_asLeaf (holds_leaf.mp hc) fun b hb => ?_
    rw [wp_pure, isLeafAtFloor_eq hr hb]
    exact hQ
  | branch p kids =>
    rw [if_neg (by simp), wp_bind, wp_orFault]
    refine wp_asInternal (holds_branch.mp hc).1 fun b hb => ?_
    rw [wp_pure, isInternalAtFloor_eq hr hb, length_kidEntries, length_kidPages]
    exact hQ

theorem wp_siblingAtFloor (hr : t.InRange) {c sibling : KTree n} (hc : Holds s.pages c)
    (hs : Holds s.pages sibling) {Q : Bool → PageStore → Prop}
    (hQ : Q (decide (sibling.size ≤ (t.shape hr).min n)) s) :
    wp (siblingAtFloor t (decide (n = 0)) c.page sibling.page) Q E s := by
  unfold siblingAtFloor
  revert hc hs hQ
  induction c, sibling using BTree.Tree.cases_two with
  | leaf p nx es q ny fs =>
    intro hc hs hQ
    rw [if_pos (by simp), wp_bind]
    refine wp_asLeaf (holds_leaf.mp hs) fun b hb => ?_
    rw [wp_pure, isLeafAtFloor_eq hr hb]
    exact hQ
  | branch p ks q ks' =>
    intro hc hs hQ
    rw [if_neg (by simp), wp_bind]
    refine wp_asInternal (holds_branch.mp hs).1 fun b hb => ?_
    rw [wp_bind, wp_orFault]
    refine wp_asInternal (holds_branch.mp hc).1 fun b' hb' => ?_
    have hl : InternalNode.level b = InternalNode.level b' := by
      rw [InternalNode.level, InternalNode.level, show InternalNode.header b = _ from hb.header_eq,
        show InternalNode.header b' = _ from hb'.header_eq]
    rw [if_neg (by simp [hl]), wp_pure, isInternalAtFloor_eq hr hb, length_kidEntries, length_kidPages]
    exact hQ

/-- A child's page, read from its parent's. -/
theorem read_child {body : Body} {level i : Nat} {kids : List (Key × KTree n)} {k : Key} {c : KTree n}
    (hb : NodeIs body level invalidPage (kidEntries (kidPages kids))) (hget : kids[i]? = some (k, c)) :
    InternalNode.childAt body i = some c.page := by
  have hget' : (kidPages kids)[i]? = some (k, c.page) := by simp [kidPages, hget]
  obtain ⟨k', hk', -⟩ := kidEntries_getElem? hget'
  obtain ⟨hlt, he⟩ := List.getElem?_eq_some_iff.mp hk'
  rw [InternalNode.childAt, InternalNode.entryAt, hb.entryAt hlt, he]
  rfl

/-- One round of planning. -/
theorem wp_planStep (hr : t.InRange) {p : PageId} {kids before after : List (Key × KTree n)} {k : Key}
    {c sibling : KTree n} (hb : Beside kids before k c after sibling) (hh : Holds s.pages (.branch p kids))
    (hfree : ∀ g ∈ s.guards, g.page ≠ sibling.page) :
    wp (planStep env t (decide (n = 0)) c.page p before.length)
      (fun o s' => (¬c.size ≤ (t.shape hr).min n ∧ o = none ∧ ReadTo [] s s') ∨
        (c.size ≤ (t.shape hr).min n ∧ o = some ⟨sibling.page, decide (0 < before.length),
            if sibling.size ≤ (t.shape hr).min n then .merge else .redistribute⟩ ∧
          ReadTo [⟨sibling.page, .write⟩] s s')) (fun e s' => RefusedUnder env (s.guards.length + 1) e s s') s := by
  rw [holds_branch] at hh
  have hcap : kids.length ≤ nodeCapacity := by
    obtain ⟨pg, -, -, hn⟩ := hh.1
    simpa using hn.cap
  have hc : Holds s.pages c := hh.2 (k, c) (by rw [hb.split]; simp)
  obtain ⟨k', hget⟩ := hb.get
  have hs : Holds s.pages sibling := hh.2 _ (List.mem_of_getElem? hget)
  obtain ⟨hlt, -⟩ := List.getElem?_eq_some_iff.mp hget
  unfold planStep
  rw [wp_bind]
  refine wp_atFloor hr hc ?_
  by_cases hfloor : c.size ≤ (t.shape hr).min n
  · rw [if_neg (by simpa using hfloor), wp_bind, wp_orFault]
    refine wp_asInternal hh.1 fun body hbody => ?_
    have hu : u16 (if decide (0 < before.length) = true then before.length - 1 else before.length + 1)
        = if 0 < before.length then before.length - 1 else before.length + 1 := by
      simp only [decide_eq_true_eq]
      refine u16_of_lt ?_
      simp only [nodeCapacity] at hcap
      omega
    simp only [hu]
    rw [wp_bind, wp_lift]
    refine ⟨_, read_child hbody hget, ?_⟩
    refine wp_call (wp_fetchPage_under (s.not_conflicts hfree _) (hs.allocated _ (BTree.Tree.page_mem_pages _)))
      (fun _ s₁ h₁ => ?_) fun _ _ he => he
    rw [wp_bind]
    refine wp_siblingAtFloor hr (h₁.pages ▸ hc) (h₁.pages ▸ hs) ?_
    by_cases hsf : sibling.size ≤ (t.shape hr).min n
    · rw [if_neg (by simpa using hsf), wp_pure]
      exact .inr ⟨hfloor, by rw [if_pos hsf], h₁⟩
    · rw [if_pos (by simpa using hsf), wp_pure]
      exact .inr ⟨hfloor, by rw [if_neg hsf], h₁⟩
  · rw [if_pos (by simpa using hfloor), wp_pure]
    exact .inl ⟨hfloor, rfl, .refl s⟩

variable {key lo : Key} {hi : WithTop Key} {T : KTree n}

/-- The planning loop reads off `planOf`, taking guards only inside the tree. -/
theorem wp_planSteps (hr : t.InRange) (hh : Holds s.pages T) (ht : T.Ordered leafKey lo hi) (hlo : lo ≤ key)
    (hhi : (key : WithTop Key) < hi) (hroot : T.PackedRoot (t.shape hr)) (hnodup : T.pages.Nodup)
    (hg : ∀ g ∈ s.guards, g.page ∈ T.pages → g.page ∈ pathNodes key T) :
    wp (planSteps env t true (pathLeaf key T).page (upPath key T))
      (fun r s' => r = planOf (t.shape hr) key T ∧
        ∃ taken, ReadTo taken s s' ∧ taken.length ≤ n ∧ ∀ g ∈ taken, g.page ∈ T.pages)
      (fun e s' => RefusedUnder env (s.guards.length + n) e s s') s := by
  induction T using BTree.Tree.ind generalizing lo hi with
  | leaf p next es => exact ⟨rfl, [], .refl s, Nat.le_refl 0, by simp⟩
  | @branch n p kids ih =>
    obtain ⟨before, k, c, after, a, b, r⟩ := BTree.Tree.Ordered.routed ht hlo hhi
    obtain ⟨sibling, hb⟩ := exists_beside r.split hroot.1.1
    obtain ⟨htop, hempty⟩ := topOf_upPath r.child r.low r.high
    have hcsub : ∀ q ∈ c.pages, q ∈ (BTree.Tree.branch p kids : KTree (n + 1)).pages := fun q hq =>
      List.mem_cons_of_mem _ (List.mem_flatMap.mpr ⟨_, r.mem, hq⟩)
    obtain ⟨k', hmem⟩ := hb.mem
    have hsmem : (k', sibling) ∈ kids := by rw [r.split]; rcases hmem with h | h <;> simp [h]
    have hssub : sibling.page ∈ (BTree.Tree.branch p kids : KTree (n + 1)).pages :=
      List.mem_cons_of_mem _ (List.mem_flatMap.mpr ⟨_, hsmem, BTree.Tree.page_mem_pages _⟩)
    have hnd := hnodup
    rw [r.split] at hnd
    obtain ⟨hpc, hcnd, hsib⟩ := apart_of_nodup hnd
    obtain ⟨hps, hsc⟩ := hsib _ hmem
    have hpath := pathNodes_branch (p := p) r.split r.index
    have hgc : ∀ g ∈ s.guards, g.page ∈ c.pages → g.page ∈ pathNodes key c := fun g hgs hgp => by
      have := hg g hgs (hcsub _ hgp)
      rw [hpath] at this
      rcases List.mem_cons.mp this with he | hin
      · exact absurd (he ▸ hgp) hpc
      · exact hin
    rw [pathLeaf_branch r.split r.index, upPath_branch r.split r.index, planOf_branch hb r.index]
    refine wp_planSteps_append (wp_mono (ih _ r.mem ((holds_branch.mp hh).2 _ r.mem) r.child r.low r.high
      (hroot.2 _ r.mem).root hcnd hgc) (fun pl s₁ h₁ => ?_) fun _ _ he => he.mono (by omega))
    obtain ⟨rfl, taken, h₁, hlen, htaken⟩ := h₁
    simp only at h₁ htaken ⊢
    refine ⟨fun hlost => ?_, fun hlost => ?_⟩
    · have hfree : ∀ g ∈ s₁.guards, g.page ≠ sibling.page := fun g hgs he => by
        rw [h₁.guards] at hgs
        rcases List.mem_append.mp hgs with hgs | hgs
        · exact hsc _ (BTree.Tree.page_mem_pages _) (he ▸ htaken g hgs)
        · have := hg g hgs (he ▸ hssub)
          rw [hpath, he] at this
          rcases List.mem_cons.mp this with he' | hin
          · exact hps (he' ▸ BTree.Tree.page_mem_pages _)
          · exact hsc _ (BTree.Tree.page_mem_pages _) (pathNodes_subset key c _ hin)
      rw [htop, hempty, Bool.true_and, planSteps]
      refine wp_call (wp_planStep hr hb (h₁.pages ▸ hh) hfree) (fun o s₂ h₂ => ?_)
        fun _ _ he => (h₁.refusedUnder he).mono (by omega)
      have hlen' : (([⟨sibling.page, .write⟩] : List Guard) ++ taken).length ≤ n + 1 := by
        rw [List.length_append, List.length_singleton]
        omega
      have hin : ∀ g ∈ ([⟨sibling.page, .write⟩] : List Guard) ++ taken,
          g.page ∈ (BTree.Tree.branch p kids : KTree (n + 1)).pages := fun g hgs => by
        rcases List.mem_append.mp hgs with hgs | hgs
        · rw [List.mem_singleton.mp hgs]; exact hssub
        · exact hcsub _ (htaken g hgs)
      rcases h₂ with ⟨hfloor, rfl, h₂⟩ | ⟨hfloor, rfl, h₂⟩
      · rw [if_neg (by simp [hfloor])]
        exact ⟨by simp, taken, by simpa using h₁.trans h₂, by omega, fun g hgs => hcsub _ (htaken g hgs)⟩
      · by_cases hsf : sibling.size ≤ (t.shape hr).min n
        · simp only [hsf, hlost, hfloor, and_self, if_true, reduceCtorEq, if_false, wp_bind, planSteps, wp_pure]
          exact ⟨trivial, _, h₁.trans h₂, hlen', hin⟩
        · simp only [hsf, hlost, hfloor, and_self, if_true, if_false, wp_pure]
          exact ⟨trivial, _, h₁.trans h₂, hlen', hin⟩
    · rw [if_neg (by simp [hlost])]
      exact ⟨rfl, taken, h₁, by omega, fun g hgs => hcsub _ (htaken g hgs)⟩

end Plan

/-! Writing. -/

section Apply
variable {s : PageStore} {E : Status → PageStore → Prop} {n : Nat}

/-- The joined entries of two internal nodes, on their pages. -/
theorem kidEntries_joined {ks ks' : List (Key × KTree n)} (h : ks ≠ []) (sep : Key) :
    kidEntries (kidPages (ks ++ withHead sep ks')) =
      kidEntries (kidPages ks) ++ withHeadKey sep (kidEntries (kidPages ks')) := by
  have hne : kidPages ks ≠ [] := by simpa [kidPages] using h
  rw [kidEntries_join _ _ hne, ← kidPages_withHead]
  simp [kidPages]

/-- The key at a cut past the first child. -/
theorem key_at_cut {ks : List (Key × KTree n)} {m : Nat} {e : InternalEntry} (sep : Key) (h1 : 1 ≤ m)
    (h : (kidEntries (kidPages ks))[m]? = some e) : e.key = (ks[m]?).elim sep Prod.fst := by
  have hlt : m < ks.length := by
    obtain ⟨hlt, -⟩ := List.getElem?_eq_some_iff.mp h
    simpa using hlt
  have hget : (kidPages ks)[m]? = some (ks[m].1, ks[m].2.page) := by simp [kidPages, hlt]
  obtain ⟨k', hk', he⟩ := kidEntries_getElem? hget
  rw [hk'] at h
  rw [← Option.some.inj h, List.getElem?_eq_getElem hlt]
  exact he h1

theorem rotateLeaf_eq {left right : Body} {next next' : PageId} {les res : List LeafEntry}
    (hl : NodeIs left 0 next les) (hr : NodeIs right 0 next' res) (sibLeft : Bool)
    (h : if sibLeft then 2 ≤ les.length ∧ res.length < nodeCapacity else 2 ≤ res.length ∧ les.length < nodeCapacity)
    {m : Nat} (hm : m = if sibLeft then les.length - 1 else les.length + 1) :
    ∃ left' right' sep, (if sibLeft then rotateLeafRight left right else rotateLeafLeft left right)
        = some (left', right', sep.key) ∧ (les ++ res)[m]? = some sep ∧
      NodeIs left' 0 next ((les ++ res).take m) ∧ NodeIs right' 0 next' ((les ++ res).drop m) := by
  cases sibLeft with
  | true =>
    simp only [if_true] at h hm ⊢
    subst hm
    exact rotateLeafRight_eq hl hr h.1 h.2
  | false =>
    simp only [Bool.false_eq_true, if_false] at h hm ⊢
    subst hm
    exact rotateLeafLeft_eq hl hr h.1 h.2

theorem rotateInternal_eq {left right : Body} {level : Nat} {next next' : PageId} {les res temp : List InternalEntry}
    (hl : NodeIs left level next les) (hr : NodeIs right level next' res) (sep : Key) (sibLeft : Bool)
    (h : if sibLeft then 2 ≤ les.length ∧ 1 ≤ res.length ∧ res.length < nodeCapacity
      else 2 ≤ res.length ∧ 1 ≤ les.length ∧ les.length < nodeCapacity)
    {m : Nat} (hm : m = if sibLeft then les.length - 1 else les.length + 1)
    (ht : temp = les ++ withHeadKey sep res) :
    ∃ left' right' up, (if sibLeft then rotateInternalRight left right sep else rotateInternalLeft left right sep)
        = some (left', right', up.key) ∧ temp[m]? = some up ∧
      NodeIs left' level next (InternalNode.canonical (temp.take m)) ∧
      NodeIs right' level next' (InternalNode.canonical (temp.drop m)) := by
  cases sibLeft with
  | true =>
    simp only [if_true] at h hm ⊢
    subst hm
    exact rotateInternalRight_eq hl hr sep h.1 h.2.1 h.2.2 ht
  | false =>
    simp only [Bool.false_eq_true, if_false] at h hm ⊢
    subst hm
    exact rotateInternalLeft_eq hl hr sep h.1 h.2.1 h.2.2 ht

/-- Lending: the two nodes hold what `recut` shares out. -/
theorem wp_redistribute {l r : KTree n} (hl : Holds s.pages l) (hr : Holds s.pages r)
    (hnd : (l.pages ++ r.pages).Nodup) {sep : Key} {sibLeft : Bool}
    (hs : if sibLeft then 2 ≤ l.size ∧ r.size < nodeCapacity else 2 ≤ r.size ∧ l.size < nodeCapacity)
    (hn : n ≠ 0 → 1 ≤ l.size ∧ 1 ≤ r.size) {m : Nat} (hm : m = if sibLeft then l.size - 1 else l.size + 1)
    {Q : Key → PageStore → Prop}
    (hQ : ∀ s', Touches {l.page, r.page} s s' → Holds s'.pages (recut leafKey sep m l r).1 →
      Holds s'.pages (recut leafKey sep m l r).2.2 → Q (recut leafKey sep m l r).2.1 s') :
    wp (redistribute (decide (n = 0)) sibLeft l.page r.page sep) Q E s := by
  unfold redistribute
  revert hl hr hnd hs hn hm hQ
  induction l, r using BTree.Tree.cases_two with
  | leaf p nx es q ny fs =>
    intro hl hr hnd hs hn hm hQ
    rw [holds_leaf] at hl hr
    have hqp : q ≠ p := by
      rintro rfl
      simp at hnd
    rw [if_pos (by simp), wp_bind, wp_orFault]
    refine wp_asLeaf hl fun b hb => ?_
    rw [wp_bind, wp_orFault]
    refine wp_asLeaf hr fun b' hb' => ?_
    obtain ⟨l', r', e, hrot, he, hln, hrn⟩ := rotateLeaf_eq hb hb' sibLeft hs hm
    rw [wp_bind, wp_lift]
    refine ⟨_, hrot, ?_⟩
    rw [wp_bind]
    refine wp_setLeaf hl hln fun s₁ ht₁ hl₁ => ?_
    rw [wp_bind]
    refine wp_setLeaf (hr.congr (ht₁.pages q (by simpa using hqp))) hrn fun s₂ ht₂ hr₂ => ?_
    rw [recut_leaf, he, Option.elim_some] at hQ
    exact hQ s₂ ((ht₁.mono (by simp)).trans (ht₂.mono (by simp)))
      (hl₁.congr (ht₂.pages p (by simpa using hqp.symm))) hr₂
  | @branch n p ks q ks' =>
    intro hl hr hnd hs hn hm hQ
    rw [holds_branch] at hl hr
    obtain ⟨hn1, hn2⟩ := hn (by omega)
    rw [BTree.Tree.size_branch] at hn1 hn2
    have hne : ks ≠ [] := List.ne_nil_of_length_pos hn1
    simp only [BTree.Tree.pages_branch, List.cons_append, List.nodup_cons, List.mem_append, List.mem_cons, not_or,
      List.nodup_append] at hnd
    obtain ⟨⟨hpk, hpq, hpk'⟩, hks, ⟨hqk', hks'⟩, hcross⟩ := hnd
    have hqk : q ∉ ks.flatMap fun kc => kc.2.pages := fun hin => hcross q hin q (.inl rfl) rfl
    rw [if_neg (by simp), wp_bind, wp_orFault]
    refine wp_asInternal hl.1 fun b hb => ?_
    rw [wp_bind, wp_orFault]
    refine wp_asInternal hr.1 fun b' hb' => ?_
    have hs' : if sibLeft then 2 ≤ (kidEntries (kidPages ks)).length ∧ 1 ≤ (kidEntries (kidPages ks')).length ∧
          (kidEntries (kidPages ks')).length < nodeCapacity
        else 2 ≤ (kidEntries (kidPages ks')).length ∧ 1 ≤ (kidEntries (kidPages ks)).length ∧
          (kidEntries (kidPages ks)).length < nodeCapacity := by
      simp only [length_kidEntries, length_kidPages]
      cases sibLeft with
      | true => exact ⟨hs.1, hn2, hs.2⟩
      | false => exact ⟨hs.1, hn1, hs.2⟩
    obtain ⟨l', r', e, hrot, he, hln, hrn⟩ := rotateInternal_eq hb hb' sep sibLeft hs' (m := m)
      (by simpa using hm) (kidEntries_joined hne sep)
    have h1m : 1 ≤ m := by
      rw [hm]
      cases sibLeft with
      | true => have : 2 ≤ ks.length := hs.1; simp; omega
      | false => simp
    rw [canonical_take_kidEntries] at hln
    rw [canonical_drop_kidEntries] at hrn
    rw [wp_bind, wp_lift]
    refine ⟨_, hrot, ?_⟩
    rw [wp_bind]
    refine wp_setBranch hl.1 hln fun s₁ ht₁ hl₁ => ?_
    rw [wp_bind]
    refine wp_setBranch (hr.1.congr (ht₁.pages q (by simpa using fun h => hpq h.symm))) hrn fun s₂ ht₂ hr₂ => ?_
    have htouch : Touches {p, q} s s₂ := (ht₁.mono (by simp)).trans (ht₂.mono (by simp))
    rw [wp_pure, key_at_cut sep h1m he]
    rw [recut_branch] at hQ
    have hkept : ∀ kc ∈ ks ++ withHead sep ks', Holds s₂.pages kc.2 := by
      have hk := holds_kids_congr hl.2 fun x hx => htouch.pages x (by
        rintro (rfl | h)
        · exact hpk hx
        · exact hqk (Set.mem_singleton_iff.mp h ▸ hx))
      have hk' := holds_kids_congr hr.2 fun x hx => htouch.pages x (by
        rintro (rfl | h)
        · exact hpk' hx
        · exact hqk' (Set.mem_singleton_iff.mp h ▸ hx))
      intro kc hkc
      rcases List.mem_append.mp hkc with h | h
      · exact hk kc h
      · exact forall_withHead hk' kc h
    refine hQ s₂ htouch (holds_branch.mpr ⟨?_, fun kc hkc => hkept kc (List.mem_of_mem_take hkc)⟩)
      (holds_branch.mpr ⟨?_, fun kc hkc => hkept kc (List.mem_of_mem_drop hkc)⟩)
    · have := hl₁.congr (ht₂.pages p (by simpa using hpq))
      simpa [kidPages] using this
    · simpa [kidPages] using hr₂

/-- Merging: the left page holds the two nodes joined. -/
theorem wp_mergeInto {l r : KTree n} (hl : Holds s.pages l) (hr : Holds s.pages r)
    (hnd : (l.pages ++ r.pages).Nodup) {sep : Key} (hs : l.size + r.size ≤ nodeCapacity)
    (hn : n ≠ 0 → 1 ≤ l.size ∧ 1 ≤ r.size) {Q : Unit → PageStore → Prop}
    (hQ : ∀ s', Touches {l.page} s s' → Holds s'.pages (join sep l r) → Q () s') :
    wp (mergeInto (decide (n = 0)) l.page r.page sep) Q E s := by
  unfold mergeInto
  revert hl hr hnd hs hn hQ
  induction l, r using BTree.Tree.cases_two with
  | leaf p nx es q ny fs =>
    intro hl hr hnd hs hn hQ
    rw [if_pos (by simp), wp_bind, wp_orFault]
    refine wp_asLeaf (holds_leaf.mp hr) fun b' hb' => ?_
    exact wp_editLeaf (holds_leaf.mp hl) (fun b hb => mergeLeaf_eq hb hb' hs) fun s₁ ht₁ hl₁ => hQ s₁ ht₁ hl₁
  | @branch n p ks q ks' =>
    intro hl hr hnd hs hn hQ
    rw [holds_branch] at hl hr
    obtain ⟨hn1, hn2⟩ := hn (by omega)
    rw [BTree.Tree.size_branch] at hn1 hn2
    have hne : ks ≠ [] := List.ne_nil_of_length_pos hn1
    simp only [BTree.Tree.pages_branch, List.cons_append, List.nodup_cons, List.mem_append, List.mem_cons,
      not_or] at hnd
    rw [if_neg (by simp), wp_bind, wp_orFault]
    refine wp_asInternal hr.1 fun b' hb' => ?_
    rw [join_branch, BTree.Tree.page_branch] at hQ
    refine wp_editInternal hl.1 (fun b hb => ?_) fun s₁ ht₁ hl₁ => hQ s₁ ht₁ (holds_branch.mpr ⟨hl₁, fun kc hkc => ?_⟩)
    · obtain ⟨b₁, hb₁, hn₁⟩ := mergeInternal_eq hb hb' sep (by simpa using hn1) (by simpa using hn2)
        (by simpa using hs)
      refine ⟨b₁, hb₁, ?_⟩
      rw [← kidEntries_joined hne] at hn₁
      simpa [kidEntries] using hn₁
    · have ht₁ : Touches {p} s s₁ := ht₁
      have hk := holds_kids_congr hl.2 fun x hx => ht₁.pages x fun h =>
        hnd.1.1 (Set.mem_singleton_iff.mp h ▸ hx)
      have hk' := holds_kids_congr hr.2 fun x hx => ht₁.pages x fun h =>
        hnd.1.2.2 (Set.mem_singleton_iff.mp h ▸ hx)
      rcases List.mem_append.mp hkc with h | h
      · exact hk kc h
      · exact forall_withHead hk' kc h

/-- The pair of neighbours a step at child `i` of `p` works on. -/
structure PairAt (s : PageStore) (p : PageId) (kids before : List (Key × KTree n)) (kl : Key) (l : KTree n)
    (kr : Key) (r : KTree n) (after : List (Key × KTree n)) : Prop where
  split : kids = before ++ (kl, l) :: (kr, r) :: after
  node : BranchAt s.pages p (n + 1) (kidPages kids)
  held : ∀ kc ∈ kids, Holds s.pages kc.2
  nodup : (BTree.Tree.branch p kids : KTree (n + 1)).pages.Nodup

/-- The step names the pair: the sibling on the left of child `q`, or on its right. -/
def StepNames (step : DeleteStep) (q : PageId) (i : Nat) (l r : PageId) (j : Nat) : Prop :=
  (step.siblingIsLeft = true ∧ step.sibling = l ∧ q = r ∧ i = j + 1) ∨
    (step.siblingIsLeft = false ∧ q = l ∧ step.sibling = r ∧ i = j)

section Pair
variable {p : PageId} {kids before after : List (Key × KTree n)} {kl kr : Key} {l r : KTree n}

theorem PairAt.mem (h : PairAt s p kids before kl l kr r after) : (kl, l) ∈ kids ∧ (kr, r) ∈ kids := by
  rw [h.split]; simp

/-- Pages apart from each other: the parent's, the pair's, the other children's. -/
theorem PairAt.apart (h : PairAt s p kids before kl l kr r after) :
    p ∉ l.pages ∧ p ∉ r.pages ∧ (l.pages ++ r.pages).Nodup ∧
      ∀ kc, kc ∈ before ∨ kc ∈ after → p ∉ kc.2.pages ∧ ∀ q ∈ kc.2.pages, q ∉ l.pages ∧ q ∉ r.pages := by
  have hnd := h.nodup
  rw [h.split] at hnd
  have h1 := apart_of_nodup hnd
  have hnd' : (BTree.Tree.branch p ((before ++ [(kl, l)]) ++ (kr, r) :: after) : KTree (n + 1)).pages.Nodup := by
    simpa using hnd
  have h2 := apart_of_nodup hnd'
  refine ⟨h1.1, h2.1, ?_, fun kc hkc => ?_⟩
  · refine List.nodup_append.mpr ⟨h1.2.1, h2.2.1, fun a ha b hb hab => ?_⟩
    exact (h1.2.2 (kr, r) (.inr (by simp))).2 b hb (hab ▸ ha)
  · have ha := h1.2.2 kc (hkc.imp_right fun h => by simp [h])
    have hb := h2.2.2 kc (hkc.imp_left fun h => by simp [h])
    exact ⟨ha.1, fun q hq => ⟨ha.2 q hq, hb.2 q hq⟩⟩

theorem wp_stepPair (h : PairAt s p kids before kl l kr r after) {step : DeleteStep} {q : PageId} {i : Nat}
    (hstep : StepNames step q i l.page r.page before.length) {Q : StepPair → PageStore → Prop}
    (hQ : Q ⟨l.page, r.page, before.length + 1, kr⟩ s) : wp (stepPair q p i step) Q E s := by
  unfold stepPair
  rw [wp_bind, wp_orFault]
  refine wp_asInternal h.node fun b hb => ?_
  have hcap := hb.cap
  have hlen : kids.length = before.length + (after.length + 2) := by rw [h.split]; simp
  have hslot : u16 (if step.siblingIsLeft = true then i else i + 1) = before.length + 1 := by
    simp only [length_kidEntries, length_kidPages, nodeCapacity] at hcap
    rcases hstep with ⟨h1, -, -, h4⟩ | ⟨h1, -, -, h4⟩
    · rw [if_pos h1, h4]; exact u16_of_lt (by omega)
    · rw [if_neg (by simp [h1]), h4]; exact u16_of_lt (by omega)
  have hget : (kidPages kids)[before.length + 1]? = some (kr, r.page) := by
    rw [h.split]; simp [kidPages]
  obtain ⟨k', hk', hkey⟩ := kidEntries_getElem? hget
  obtain ⟨hlt, he⟩ := List.getElem?_eq_some_iff.mp hk'
  rw [wp_bind, wp_lift, hslot]
  refine ⟨kr, ?_, ?_⟩
  · rw [InternalNode.keyAt_eq hb (by omega) hlt, he, hkey (by omega)]
  · rw [wp_pure]
    rcases hstep with ⟨h1, h2, h3, -⟩ | ⟨h1, h2, h3, -⟩
    · rw [if_pos h1, if_pos h1, h2, h3]; exact hQ
    · rw [if_neg (by simp [h1]), if_neg (by simp [h1]), h2, h3]; exact hQ

/-- What a step on the pair leaves alone. -/
theorem PairAt.keep (h : PairAt s p kids before kl l kr r after) {s' : PageStore}
    (ht : Touches {p, l.page, r.page} s s') {kc : Key × KTree n} (hkc : kc ∈ before ∨ kc ∈ after) :
    Holds s'.pages kc.2 := by
  obtain ⟨-, -, -, hothers⟩ := h.apart
  obtain ⟨hp, hpair⟩ := hothers kc hkc
  refine (h.held kc (by rw [h.split]; rcases hkc with h | h <;> simp [h])).congr fun x hx => ht.pages x ?_
  rintro (rfl | rfl | rfl)
  · exact hp hx
  · exact (hpair _ hx).1 (BTree.Tree.page_mem_pages l)
  · exact (hpair _ hx).2 (BTree.Tree.page_mem_pages r)

/-- A merge step leaves the parent with the joined child and returns the right one's page. -/
theorem wp_applyMerge (h : PairAt s p kids before kl l kr r after) {step : DeleteStep} {q : PageId} {i : Nat}
    (hstep : StepNames step q i l.page r.page before.length) (hs : l.size + r.size ≤ nodeCapacity)
    (hn : n ≠ 0 → 1 ≤ l.size ∧ 1 ≤ r.size) {Q : PageId → PageStore → Prop}
    (hQ : ∀ s', Touches {p, l.page} s s' →
      Holds s'.pages (.branch p (before ++ (kl, join kr l r) :: after)) → Q r.page s') :
    wp (applyMerge (decide (n = 0)) q p i step) Q E s := by
  obtain ⟨hpl, hpr, hnd, hothers⟩ := h.apart
  have hlmem := BTree.Tree.page_mem_pages l
  have hlp : l.page ≠ p := fun he => hpl (he ▸ hlmem)
  unfold applyMerge
  rw [wp_bind]
  refine wp_stepPair h hstep ?_
  rw [wp_bind]
  refine wp_mergeInto (h.held _ h.mem.1) (h.held _ h.mem.2) hnd hs hn fun s₁ ht₁ hj => ?_
  have hnode₁ := h.node.congr (ht₁.pages p (by simpa using hlp.symm))
  have hlen : kids.length = before.length + (after.length + 2) := by rw [h.split]; simp
  rw [wp_bind]
  refine wp_editInternal hnode₁ (fun b hb => ?_) fun s₂ ht₂ hp₂ =>
    hQ s₂ ((ht₁.mono (by simp)).trans (ht₂.mono (by simp))) (holds_branch.mpr ⟨hp₂, fun kc hkc => ?_⟩)
  · obtain ⟨b', hb', hn'⟩ := hb.removeAt (show 1 ≤ before.length + 1 by omega) (by simp; omega)
    refine ⟨b', hb', ?_⟩
    rw [kidEntries_erase _ (by omega) (by simp; omega)] at hn'
    have hk : kidPages (before ++ (kl, join kr l r) :: after)
        = (kidPages kids).take (before.length + 1) ++ (kidPages kids).drop (before.length + 1 + 1) := by
      have e : kidPages kids = kidPages (before ++ [(kl, l)]) ++ (kr, r.page) :: kidPages after := by
        rw [h.split]; simp [kidPages]
      rw [e, List.take_left' (by simp), ← List.drop_drop, List.drop_left' (by simp)]
      simp [kidPages]
    rw [hk]; exact hn'
  · have hjp : ∀ x ∈ (join kr l r).pages, x ∈ l.pages ∨ x ∈ r.pages := fun x hx =>
      List.mem_append.mp ((pages_join kr l r).symm.subset (List.mem_append_left _ hx))
    have hkeep : ∀ kc, kc ∈ before ∨ kc ∈ after → Holds s₂.pages kc.2 := fun kc hkc =>
      h.keep ((ht₁.mono (by simp)).trans (ht₂.mono (by simp))) hkc
    rcases List.mem_append.mp hkc with hkc | hkc
    · exact hkeep kc (.inl hkc)
    · rcases List.mem_cons.mp hkc with rfl | hkc
      · exact hj.congr fun x hx => ht₂.pages x fun he => by
          rw [Set.mem_singleton_iff.mp he] at hx
          exact (hjp p hx).elim hpl hpr
      · exact hkeep kc (.inr hkc)

/-- A lending step leaves the parent with the two children cut again and the separator moved. -/
theorem wp_applyRedistribute (h : PairAt s p kids before kl l kr r after) {step : DeleteStep} {q : PageId} {i : Nat}
    (hstep : StepNames step q i l.page r.page before.length)
    (hs : if step.siblingIsLeft then 2 ≤ l.size ∧ r.size < nodeCapacity else 2 ≤ r.size ∧ l.size < nodeCapacity)
    (hn : n ≠ 0 → 1 ≤ l.size ∧ 1 ≤ r.size) {m : Nat}
    (hm : m = if step.siblingIsLeft then l.size - 1 else l.size + 1) {Q : Unit → PageStore → Prop}
    (hQ : ∀ s', Touches {p, l.page, r.page} s s' →
      Holds s'.pages (.branch p (before ++ (kl, (recut leafKey kr m l r).1) ::
        ((recut leafKey kr m l r).2.1, (recut leafKey kr m l r).2.2) :: after)) → Q () s') :
    wp (applyRedistribute (decide (n = 0)) q p i step) Q E s := by
  obtain ⟨hpl, hpr, hnd, -⟩ := h.apart
  unfold applyRedistribute
  rw [wp_bind]
  refine wp_stepPair h hstep ?_
  rw [wp_bind]
  refine wp_redistribute (h.held _ h.mem.1) (h.held _ h.mem.2) hnd hs hn hm fun s₁ ht₁ hl₁ hr₁ => ?_
  have hnode₁ := h.node.congr (ht₁.pages p (by
    rintro (rfl | h)
    · exact hpl (BTree.Tree.page_mem_pages l)
    · exact hpr (Set.mem_singleton_iff.mp h ▸ BTree.Tree.page_mem_pages r)))
  have hlen : kids.length = before.length + (after.length + 2) := by rw [h.split]; simp
  have hpages : ∀ x, x ∈ (recut leafKey kr m l r).1.pages ∨ x ∈ (recut leafKey kr m l r).2.2.pages → x ≠ p := by
    rintro x hx rfl
    rcases List.mem_append.mp ((pages_recut kr l r leafKey m).symm.subset (List.mem_append.mpr hx)) with h | h
    · exact hpl h
    · exact hpr h
  have htouch {s₂} (ht₂ : Touches {p} s₁ s₂) : Touches {p, l.page, r.page} s s₂ :=
    (ht₁.mono (by simp)).trans (ht₂.mono (by simp))
  refine wp_editInternal hnode₁ (fun b hb => ?_) fun s₂ ht₂ hp₂ =>
    hQ s₂ (htouch ht₂) (holds_branch.mpr ⟨hp₂, fun kc hkc => ?_⟩)
  · have hget : (kidPages kids)[before.length + 1]? = some (kr, r.page) := by
      rw [h.split]; simp [kidPages]
    obtain ⟨k', hk', -⟩ := kidEntries_getElem? hget
    obtain ⟨hlt, he⟩ := List.getElem?_eq_some_iff.mp hk'
    obtain ⟨b', hb', hn'⟩ := InternalNode.setKeyAt_eq hb (by omega) hlt (recut leafKey kr m l r).2.1
    refine ⟨b', hb', ?_⟩
    rw [he, kidEntries_set _ (by omega)] at hn'
    have hk : kidPages (before ++ (kl, (recut leafKey kr m l r).1) ::
        ((recut leafKey kr m l r).2.1, (recut leafKey kr m l r).2.2) :: after)
        = (kidPages kids).set (before.length + 1) ((recut leafKey kr m l r).2.1, r.page) := by
      rw [h.split]
      simp [kidPages]
    rw [hk]; exact hn'
  · rcases List.mem_append.mp hkc with hkc | hkc
    · exact h.keep (htouch ht₂) (.inl hkc)
    rcases List.mem_cons.mp hkc with rfl | hkc
    · exact hl₁.congr fun x hx => ht₂.pages x (by simpa using hpages x (.inl hx))
    rcases List.mem_cons.mp hkc with rfl | hkc
    · exact hr₁.congr fun x hx => ht₂.pages x (by simpa using hpages x (.inr hx))
    · exact h.keep (htouch ht₂) (.inr hkc)

end Pair

/-- The pair `rebalance` works on is the changed child and the neighbour planned for it. -/
theorem pair_of_beside {kids before after before' after' : List (Key × KTree n)} {k kl kr : Key}
    {c c' sibling l r : KTree n} (hb : Beside kids before k c after sibling)
    (hk : before ++ (k, c') :: after = before' ++ (kl, l) :: (kr, r) :: after')
    (hlen : before'.length = before.length - 1) :
    (0 < before.length ∧ l = sibling ∧ r = c' ∧ before.length = before'.length + 1) ∨
      (before.length = 0 ∧ l = c' ∧ r = sibling ∧ before.length = before'.length) := by
  obtain ⟨k', hget⟩ := hb.get
  rw [hb.split] at hget
  have h0 := congrArg (fun xs => xs[before'.length]?) hk
  have h1 := congrArg (fun xs => xs[before'.length + 1]?) hk
  simp only [List.getElem?_append_right (le_refl _), Nat.sub_self, List.getElem?_cons_zero,
    List.getElem?_append_right (Nat.le_add_right _ 1), Nat.add_sub_cancel_left, List.getElem?_cons_succ] at h0 h1
  by_cases hpos : 0 < before.length
  · have hlt : before.length - 1 < before.length := by omega
    rw [if_pos hpos, List.getElem?_append_left hlt] at hget
    rw [hlen, List.getElem?_append_left hlt, hget] at h0
    rw [hlen, Nat.sub_add_cancel hpos] at h1
    simp only [List.getElem?_append_right (le_refl _), Nat.sub_self, List.getElem?_cons_zero, Option.some.injEq,
      Prod.mk.injEq] at h0 h1
    exact .inl ⟨hpos, h0.2.symm, h1.2.symm, by omega⟩
  · have hnil : before = [] := List.eq_nil_of_length_eq_zero (by omega)
    have hnil' : before' = [] := List.eq_nil_of_length_eq_zero (by omega)
    subst hnil hnil'
    simp only [List.nil_append, List.length_nil, Nat.lt_irrefl, if_false, Nat.zero_add, List.getElem?_cons_succ,
      List.cons.injEq, Prod.mk.injEq] at hget hk
    rw [hk.2] at hget
    simp only [List.getElem?_cons_zero, Option.some.injEq, Prod.mk.injEq] at hget
    exact .inr ⟨rfl, hk.1.2.symm, hget.2, rfl⟩

/-- Rebalancing after the child changed, in terms of the planned neighbour. -/
theorem rebalance_beside (sh : Shape) {kids before after : List (Key × KTree n)} {k : Key} {c sibling : KTree n}
    (hb : Beside kids before k c after sibling) (c' : KTree n) :
    ∃ before' kl l kr r after', before ++ (k, c') :: after = before' ++ (kl, l) :: (kr, r) :: after' ∧
      ((0 < before.length ∧ l = sibling ∧ r = c' ∧ before.length = before'.length + 1) ∨
        (before.length = 0 ∧ l = c' ∧ r = sibling ∧ before.length = before'.length)) ∧
      rebalance sh leafKey before.length (before ++ (k, c') :: after) =
        if sibling.size ≤ sh.min n then (before' ++ (kl, join kr l r) :: after', true, [r.page])
        else
          let m := if decide (0 < before.length) then l.size - 1 else l.size + 1
          (before' ++ (kl, (recut leafKey kr m l r).1) ::
            ((recut leafKey kr m l r).2.1, (recut leafKey kr m l r).2.2) :: after', false, []) := by
  have h2 : 2 ≤ (before ++ (k, c') :: after).length := by
    obtain ⟨k', hmem⟩ := hb.mem
    have : 0 < before.length ∨ 0 < after.length := hmem.imp List.length_pos_of_mem List.length_pos_of_mem
    simp; omega
  obtain ⟨before', kl, l, kr, r, after', hk, hlen, hcase⟩ :=
    rebalance_cases sh leafKey h2 (i := before.length) (by simp)
  have hpair := pair_of_beside hb hk hlen
  have hsib : (if 0 < before.length then l.size else r.size) = sibling.size := by
    rcases hpair with ⟨h, rfl, -, -⟩ | ⟨h, -, rfl, -⟩
    · rw [if_pos h]
    · rw [if_neg (by omega)]
  rw [hsib] at hcase
  refine ⟨before', kl, l, kr, r, after', hk, hpair, ?_⟩
  rcases hcase with ⟨hle, heq⟩ | ⟨hlt, m, hm1, hm2, heq⟩
  · rw [if_pos hle, heq]
  · have hm : m = if decide (0 < before.length) then l.size - 1 else l.size + 1 := by
      by_cases hpos : 0 < before.length
      · simp [hpos, hm1 hpos]
      · rw [hm2 (by omega)]; simp [hpos]
    rw [if_neg (by omega), heq, hm]

/-- The plan ends where the delete stops losing items, and up to there it merges. -/
theorem planOf_shape (sh : Shape) {key lo : Key} {hi : WithTop Key} {T : KTree n} (ht : T.Ordered leafKey lo hi)
    (hlo : lo ≤ key) (hhi : (key : WithTop Key) < hi) (hroot : T.PackedRoot sh) :
    (planOf sh key T).2 = (deleteRec sh leafKey key T).2.1 ∧ (planOf sh key T).1.length ≤ n ∧
      ((planOf sh key T).2 = true → (planOf sh key T).1.length = n ∧ ∀ st ∈ (planOf sh key T).1, st.fix = .merge) := by
  induction T using BTree.Tree.ind generalizing lo hi with
  | leaf p next es => exact ⟨rfl, le_refl _, fun _ => ⟨rfl, fun st hst => by cases hst⟩⟩
  | @branch n p kids ih =>
    obtain ⟨before, k, c, after, a, b, r⟩ := BTree.Tree.Ordered.routed ht hlo hhi
    obtain ⟨sibling, hb⟩ := exists_beside r.split hroot.1.1
    obtain ⟨hlost, hle, hmerge⟩ := ih _ r.mem r.child r.low r.high (hroot.2 _ r.mem).root
    simp only at hlost hle hmerge
    rw [planOf_branch hb r.index]
    rcases deleteRec_branch_cases sh leafKey p r.split r.index rfl with ⟨hshort, hrec⟩ | ⟨hok, hrec⟩
    · rw [← hlost] at hshort
      obtain ⟨before', kl, l, kr, r', after', -, -, hreb⟩ :=
        rebalance_beside sh hb (deleteRec sh leafKey key c).1
      obtain ⟨hlen, hall⟩ := hmerge hshort.1
      rw [if_pos hshort, hrec, hreb]
      by_cases hs : sibling.size ≤ sh.min n
      · rw [if_pos hs, if_pos hs]
        refine ⟨rfl, by simp [hlen], fun _ => ⟨by simp [hlen], fun st hst => ?_⟩⟩
        rcases List.mem_append.mp hst with hst | hst
        · exact hall st hst
        · rw [List.mem_singleton.mp hst]
      · rw [if_neg hs, if_neg hs]
        exact ⟨rfl, by simp [hlen], fun h => by cases h⟩
    · rw [← hlost] at hok
      rw [if_neg hok, hrec]
      exact ⟨rfl, Nat.le_succ_of_le hle, fun h => by cases h⟩

/-- A child that gives up pages leaves the branch's pages different from each other. -/
theorem nodup_replace {p : PageId} {before after : List (Key × KTree n)} {k : Key} {c c' : KTree n}
    {freed : List PageId} (h : (BTree.Tree.branch p (before ++ (k, c) :: after) : KTree (n + 1)).pages.Nodup)
    (hperm : c.pages.Perm (c'.pages ++ freed)) :
    (BTree.Tree.branch p (before ++ (k, c') :: after) : KTree (n + 1)).pages.Nodup := by
  rw [List.nodup_iff_count_le_one] at h ⊢
  intro a
  have h1 := h a
  have h2 := List.perm_iff_count.mp hperm a
  simp only [BTree.Tree.pages_branch, List.flatMap_append, List.flatMap_cons, List.count_cons, List.count_append]
    at h1 h2 ⊢
  omega

theorem shape_max_le {t : BPlusTree} (hr : t.InRange) : ∀ n, (t.shape hr).max n ≤ nodeCapacity
  | 0 => hr.1.2
  | _ + 1 => hr.2.2

/-- The planned step at the parent of a child one item short does what `rebalance` does. -/
theorem wp_applyTop {t : BPlusTree} (hr : t.InRange) {p : PageId} {kids before after : List (Key × KTree n)} {k : Key}
    {c c' sibling : KTree n} (hb : Beside kids before k c after sibling) (hpage : c'.page = c.page)
    (hh : Holds s.pages (.branch p (before ++ (k, c') :: after)))
    (hnd : (BTree.Tree.branch p (before ++ (k, c') :: after) : KTree (n + 1)).pages.Nodup)
    (hsib : sibling.Packed (t.shape hr)) (hshort : c'.size + 1 = (t.shape hr).min n) :
    wp (applySteps (decide (n = 0)) c.page [(p, before.length)] [⟨sibling.page, decide (0 < before.length),
        if sibling.size ≤ (t.shape hr).min n then .merge else .redistribute⟩])
      (fun freed s' =>
        freed = (rebalance (t.shape hr) leafKey before.length (before ++ (k, c') :: after)).2.2 ∧
        Holds s'.pages
          (.branch p (rebalance (t.shape hr) leafKey before.length (before ++ (k, c') :: after)).1) ∧
        Touches {q | q ∈ (BTree.Tree.branch p (before ++ (k, c') :: after) : KTree (n + 1)).pages} s s') E s := by
  obtain ⟨before', kl, l, kr, r, after', hk, hpair, hreb⟩ := rebalance_beside (t.shape hr) hb c'
  rw [hreb]
  rw [holds_branch] at hh
  have hat : PairAt s p (before ++ (k, c') :: after) before' kl l kr r after' := ⟨hk, hh.1, hh.2, hnd⟩
  obtain ⟨hlmem, hrmem⟩ := hat.mem
  have htouched : ({p, l.page, r.page} : Set PageId) ⊆
      {q | q ∈ (BTree.Tree.branch p (before ++ (k, c') :: after) : KTree (n + 1)).pages} := by
    rintro q (rfl | rfl | rfl)
    · exact List.mem_cons_self
    · exact List.mem_cons_of_mem _ (List.mem_flatMap.mpr ⟨_, hlmem, BTree.Tree.page_mem_pages l⟩)
    · exact List.mem_cons_of_mem _ (List.mem_flatMap.mpr ⟨_, hrmem, BTree.Tree.page_mem_pages r⟩)
  have hnames : ∀ fix, StepNames ⟨sibling.page, decide (0 < before.length), fix⟩ c.page before.length l.page r.page
      before'.length := by
    intro fix
    rcases hpair with ⟨hpos, rfl, rfl, hlen⟩ | ⟨hz, rfl, rfl, hlen⟩
    · exact .inl ⟨by simpa using hpos, rfl, hpage.symm, hlen⟩
    · exact .inr ⟨by simp [hz], hpage.symm, rfl, hlen⟩
  -- the sizes of the pair are those of the planned neighbour and of the short child
  obtain ⟨hmin, hmax, -⟩ := BTree.Tree.packed_iff.mp hsib
  have hcap := shape_max_le hr n
  have hhalf := (t.shape hr).half n
  have hlt := (t.shape hr).min_lt_max n
  have hsum : l.size + r.size = sibling.size + c'.size := by
    rcases hpair with ⟨-, rfl, rfl, -⟩ | ⟨-, rfl, rfl, -⟩
    · rfl
    · exact Nat.add_comm _ _
  have hone : n ≠ 0 → 1 ≤ l.size ∧ 1 ≤ r.size := fun hn => by
    obtain ⟨m, rfl⟩ := Nat.exists_eq_succ_of_ne_zero hn
    have := (t.shape hr).branch_two
    rw [Shape.min] at hshort hmin
    rcases hpair with ⟨-, rfl, rfl, -⟩ | ⟨-, rfl, rfl, -⟩ <;> omega
  unfold applySteps
  by_cases hs : sibling.size ≤ (t.shape hr).min n
  · rw [if_pos hs, if_pos hs]
    simp only
    rw [wp_bind]
    refine wp_applyMerge hat (hnames _) (by omega) hone fun s₁ ht₁ hh₁ => ?_
    rw [applySteps, wp_bind, wp_pure, wp_pure]
    exact ⟨rfl, hh₁, ht₁.mono (subset_trans (by intro q; simp; tauto) htouched)⟩
  · rw [if_neg hs, if_neg hs]
    simp only
    rw [wp_bind]
    refine wp_applyRedistribute hat (hnames _) ?_ hone rfl fun s₁ ht₁ hh₁ => ?_
    · have := (t.shape hr).min_pos n
      rcases hpair with ⟨hpos, rfl, rfl, -⟩ | ⟨hz, rfl, rfl, -⟩
      · rw [if_pos (by simpa using hpos)]; omega
      · rw [if_neg (by simp [hz])]; omega
    · rw [wp_bind, wp_check]
      exact ⟨rfl, rfl, hh₁, ht₁.mono htouched⟩

variable {key lo : Key} {hi : WithTop Key} {T : KTree n}

/-- The writes of a delete: the entry leaves its leaf and the plan is followed. -/
theorem wp_applyPath {t : BPlusTree} (hr : t.InRange) (hh : Holds s.pages T) (ht : T.Ordered leafKey lo hi)
    (hlo : lo ≤ key) (hhi : (key : WithTop Key) < hi) (hroot : T.PackedRoot (t.shape hr)) (hnodup : T.pages.Nodup)
    {e : LeafEntry} (he : e ∈ T.toList) (hkey : leafKey e = key) :
    wp (do
      editLeaf (pathLeaf key T).page fun b => LeafNode.removeAt b (below (pathLeaf key T).entries key)
      applySteps true (pathLeaf key T).page (upPath key T) (planOf (t.shape hr) key T).1)
      (fun freed s' => freed = (deleteRec (t.shape hr) leafKey key T).2.2 ∧
        Holds s'.pages (deleteRec (t.shape hr) leafKey key T).1 ∧ Touches {q | q ∈ T.pages} s s') E s := by
  induction T using BTree.Tree.ind generalizing lo hi with
  | leaf p next es =>
    rw [holds_leaf] at hh
    obtain ⟨xs, ys, hes, hlen⟩ := EntriesIn.at_position (BTree.Tree.ordered_leaf.mp ht) he hkey
    have hlt : below es key < es.length := by
      change xs.length = below es key at hlen
      rw [← hlen, hes]; simp
    rw [wp_bind]
    refine wp_editLeaf hh (fun b hb => hb.removeAt (Nat.zero_le _) hlt) fun s₁ ht₁ hl₁ => ?_
    exact ⟨rfl, hl₁, ht₁.mono fun q hq => Set.mem_singleton_iff.mp hq ▸ List.mem_cons_self⟩
  | @branch n p kids ih =>
    obtain ⟨before, k, c, after, a, b, r⟩ := BTree.Tree.Ordered.routed ht hlo hhi
    obtain ⟨sibling, hb⟩ := exists_beside r.split hroot.1.1
    obtain ⟨htop, hempty⟩ := topOf_upPath r.child r.low r.high
    obtain ⟨hlost, hle, hmerge⟩ :=
      planOf_shape (t.shape hr) r.child r.low r.high (hroot.2 _ r.mem).root
    have hlen : (upPath key c).length = n := length_upPath r.child r.low r.high
    obtain ⟨k', hmem⟩ := hb.mem
    have hsmem : (k', sibling) ∈ kids := by rw [r.split]; rcases hmem with h | h <;> simp [h]
    have hec : e ∈ c.toList := r.entry he hkey
    have hcroot := (hroot.2 _ r.mem).root
    have hperm := pages_deleteRec (t.shape hr) r.child r.low r.high hcroot
    obtain ⟨-, hsize⟩ := packed_deleteRec (t.shape hr) r.child r.low r.high hcroot hec hkey
    have hpage : (deleteRec (t.shape hr) leafKey key c).1.page = c.page := page_deleteRec c
    have hcsub : ∀ q ∈ c.pages, q ∈ (BTree.Tree.branch p kids : KTree (n + 1)).pages := fun q hq =>
      List.mem_cons_of_mem _ (List.mem_flatMap.mpr ⟨_, r.mem, hq⟩)
    have hnd := hnodup
    rw [r.split] at hnd
    obtain ⟨hpc, hcnd, hsib⟩ := apart_of_nodup hnd
    rw [holds_branch] at hh
    have ih' := ih _ r.mem (hh.2 _ r.mem) r.child r.low r.high hcroot hcnd hec
    rw [wp_bind] at ih'
    rw [pathLeaf_branch r.split r.index, upPath_branch r.split r.index, planOf_branch hb r.index, wp_bind]
    refine wp_mono ih' (fun _ s₀ h₀ => ?_) fun _ _ he => he
    -- the branch once the child is done, whatever follows
    have hdone : ∀ s₁, Holds s₁.pages (deleteRec (t.shape hr) leafKey key c).1 → Touches {q | q ∈ c.pages} s s₁ →
        Holds s₁.pages (.branch p (before ++ (k, (deleteRec (t.shape hr) leafKey key c).1) :: after)) := by
      intro s₁ hc ht₁
      refine holds_branch.mpr ⟨?_, fun kc hkc => ?_⟩
      · have hk : kidPages (before ++ (k, (deleteRec (t.shape hr) leafKey key c).1) :: after) = kidPages kids := by
          rw [r.split]; simp [kidPages, hpage]
        rw [hk]
        exact hh.1.congr (ht₁.pages p hpc)
      · have hkeep : ∀ kc, kc ∈ before ∨ kc ∈ after → Holds s₁.pages kc.2 := fun kc hkc =>
          (hh.2 kc (by rw [r.split]; rcases hkc with h | h <;> simp [h])).congr fun q hq =>
            ht₁.pages q ((hsib kc hkc).2 q hq)
        rcases List.mem_append.mp hkc with hkc | hkc
        · exact hkeep kc (.inl hkc)
        · rcases List.mem_cons.mp hkc with rfl | hkc
          · exact hc
          · exact hkeep kc (.inr hkc)
    rcases deleteRec_branch_cases (t.shape hr) leafKey p r.split r.index rfl with ⟨hshort, hrec⟩ | ⟨hok, hrec⟩
    · rw [hrec]
      rw [← hlost] at hshort
      obtain ⟨hplen, hall⟩ := hmerge hshort.1
      have hsteps : (if (planOf (t.shape hr) key c).2 = true ∧ c.size ≤ (t.shape hr).min n then
          if sibling.size ≤ (t.shape hr).min n then
            ((planOf (t.shape hr) key c).1 ++ [⟨sibling.page, decide (0 < before.length), .merge⟩], true)
          else ((planOf (t.shape hr) key c).1 ++ [⟨sibling.page, decide (0 < before.length), .redistribute⟩], false)
          else ((planOf (t.shape hr) key c).1, false)).1 = (planOf (t.shape hr) key c).1 ++
            [⟨sibling.page, decide (0 < before.length),
              if sibling.size ≤ (t.shape hr).min n then .merge else .redistribute⟩] := by
        rw [if_pos hshort]; split <;> rfl
      rw [hsteps]
      refine wp_applySteps_append (hplen.trans hlen.symm) hall (wp_mono h₀ (fun freed s₁ h₁ => ?_) fun _ _ he => he)
      obtain ⟨rfl, hc₁, ht₁⟩ := h₁
      rw [htop, hempty, Bool.true_and]
      have hmin : (t.shape hr).min n ≤ c.size := (BTree.Tree.packed_iff.mp (hroot.2 _ r.mem)).1
      rw [hlost] at hshort
      rw [if_pos hshort.1] at hsize
      refine wp_mono (wp_applyTop hr hb hpage (hdone s₁ hc₁ ht₁) (nodup_replace hnd hperm) (hroot.2 _ hsmem)
        (by omega)) (fun f s₂ h₂ => ?_) fun _ _ he => he
      obtain ⟨rfl, hh₂, ht₂⟩ := h₂
      refine ⟨rfl, hh₂, (ht₁.mono fun q hq => hcsub q hq).trans (ht₂.mono fun q hq => ?_)⟩
      have hin : q ∈ (BTree.Tree.branch p (before ++ (k, (deleteRec (t.shape hr) leafKey key c).1) :: after) :
          KTree (n + 1)).pages := hq
      show q ∈ (BTree.Tree.branch p kids : KTree (n + 1)).pages
      rw [r.split]
      simp only [BTree.Tree.pages_branch, List.flatMap_append, List.flatMap_cons, List.mem_cons, List.mem_append]
        at hin ⊢
      rcases hin with h | h | h | h
      · exact .inl h
      · exact .inr (.inl h)
      · exact .inr (.inr (.inl (hperm.symm.subset (List.mem_append_left _ h))))
      · exact .inr (.inr (.inr h))
    · rw [hrec]
      rw [← hlost] at hok
      rw [if_neg hok, applySteps_stop (by rw [hlen]; exact hle)]
      refine wp_mono h₀ (fun freed s₁ h₁ => ?_) fun _ _ he => he
      obtain ⟨rfl, hc₁, ht₁⟩ := h₁
      exact ⟨rfl, hdone s₁ hc₁ ht₁, ht₁.mono fun q hq => hcsub q hq⟩

end Apply

/-! The whole operation. -/

section Whole
variable {env : PoolEnv} {t : BPlusTree} {s : PageStore} {T : Σ n, KTree n} {key : Key}

/-- Does deleting the key leave the root with a single child? -/
def collapses (sh : Shape) (key : Key) (T : Σ n, KTree n) : Prop :=
  (planOf sh key T.2).2 = true ∧ T.1 ≠ 0 ∧ T.2.size = 2

instance (sh : Shape) (key : Key) (T : Σ n, KTree n) : Decidable (collapses sh key T) := by
  unfold collapses; infer_instance

/-- What planning decides, having only read. -/
theorem wp_planDelete (h : TreeAt t s.pages T)
    (hg : ∀ g ∈ s.guards, g.page ∈ T.2.pages → g.page ∈ pathNodes key T.2) :
    wp (planDelete env t (pathLeaf key T.2).page (upPath key T.2) T.2.page)
      (fun plan s' => plan = ⟨(planOf (t.shape h.range) key T.2).1,
          decide (collapses (t.shape h.range) key T)⟩ ∧
        ∃ taken, ReadTo taken s s') (fun e s' => RefusedUnder env (s.guards.length + T.1) e s s') s := by
  obtain ⟨-, -, hmerge⟩ := planOf_shape (t.shape h.range) h.valid.ordered (int64Min_le key) (key_lt_top key)
    h.valid.packed
  unfold planDelete
  refine wp_call (wp_planSteps h.range h.holds h.valid.ordered (int64Min_le key) (key_lt_top key) h.valid.packed
    h.valid.nodup hg) (fun pl s₁ h₁ => ?_) fun _ _ he => he
  obtain ⟨rfl, taken, h₁, -, -⟩ := h₁
  have hholds : Holds s₁.pages T.2 := h₁.pages ▸ h.holds
  obtain ⟨n, T⟩ := T
  cases T using BTree.Tree.ind with
  | leaf p next es => exact ⟨rfl, taken, h₁⟩
  | @branch n p kids =>
    by_cases hlost : (planOf (t.shape h.range) key (.branch p kids : KTree (n + 1))).2 = true
    · have hne : (planOf (t.shape h.range) key (.branch p kids : KTree (n + 1))).1.isEmpty = false := by
        rw [List.isEmpty_eq_false_iff_exists_mem]
        exact List.exists_mem_of_length_pos ((hmerge hlost).1 ▸ Nat.succ_pos n)
      rw [if_pos (by rw [hlost, hne]; rfl), wp_bind, wp_orFault]
      refine wp_asInternal (holds_branch.mp hholds).1 fun b hb => ?_
      rw [show InternalNode.count b = _ from hb.count_eq, wp_pure]
      refine ⟨?_, taken, h₁⟩
      simp [collapses, hlost]
    · rw [if_neg (by simp [hlost]), wp_pure]
      exact ⟨by simp [collapses, hlost], taken, h₁⟩

/-- What a `Delete` that returned OK did before it freed `freed`. -/
structure Unlinked (t : BPlusTree) (s s' : PageStore) (T : Σ n, KTree n) (e : LeafEntry) (T' : Σ n, KTree n)
    (freed : List PageId) : Prop where
  tree : TreeAt t s'.pages T'
  entries : T.2.toList.Perm (e :: T'.2.toList)
  pages : T.2.pages.Perm (T'.2.pages ++ freed)
  other : ∀ p ∉ t.headerPageId :: T.2.pages, s'.pages p = s.pages p
  allocated : ∀ p, s'.pages p = none ↔ s.pages p = none
  guards : s'.guards = s.guards
  failures : s'.failures = s.failures
  leaks : s'.leaks = s.leaks

/-- The invariant of the tree without the entry, once its nodes and header are on the pages. -/
theorem TreeAt.delete (h : TreeAt t s.pages T) {e : LeafEntry} (he : e ∈ T.2.toList) {pages' : PageId → Option Page}
    {T' : Σ n, KTree n} (hT' : T' = (BTree.delete (t.shape h.range) leafKey e.key T).1) (hhold : Holds pages' T'.2)
    (hhead : HeaderAt pages' t.headerPageId ⟨T'.2.page, T'.1 + 1, t.leafMax, t.internalMax, 0⟩) :
    TreeAt t pages' T' := by
  have hperm := pages_delete (t.shape h.range) h.valid (int64Min_le e.key)
  have hsub : ∀ p ∈ T'.2.pages, p ∈ T.2.pages := fun p hp =>
    hperm.symm.subset (List.mem_append_left _ (hT' ▸ hp))
  refine ⟨h.range, hhead, hhold, ?_, fun hin => h.apart (hsub _ hin), fun p hp => ?_⟩
  · rw [hT']
    exact valid_delete _ h.valid (int64Min_le _) he rfl
  · rcases List.mem_cons.mp hp with rfl | hp
    · exact h.ids _ (by simp)
    · exact h.ids p (by simp [hsub p hp])

/-- The root gives way to its only child exactly when the plan says so. -/
theorem collapse_of_plan (h : TreeAt t s.pages T) {e : LeafEntry} (he : e ∈ T.2.toList) :
    (¬collapses (t.shape h.range) e.key T ∧ collapse ⟨T.1, (deleteRec (t.shape h.range) leafKey e.key T.2).1⟩ =
        (⟨T.1, (deleteRec (t.shape h.range) leafKey e.key T.2).1⟩, [])) ∨
      (collapses (t.shape h.range) e.key T ∧ ∃ n k, ∃ c : KTree n,
        (⟨T.1, (deleteRec (t.shape h.range) leafKey e.key T.2).1⟩ : Σ n, KTree n)
          = ⟨n + 1, .branch T.2.page [(k, c)]⟩ ∧
        collapse ⟨T.1, (deleteRec (t.shape h.range) leafKey e.key T.2).1⟩ = (⟨n, c⟩, [T.2.page])) := by
  obtain ⟨hlost, -, -⟩ := planOf_shape (t.shape h.range) h.valid.ordered (int64Min_le e.key) (key_lt_top e.key)
    h.valid.packed
  obtain ⟨-, hsize⟩ := packed_deleteRec (t.shape h.range) h.valid.ordered (int64Min_le e.key) (key_lt_top e.key)
    h.valid.packed he rfl
  have hpage : (deleteRec (t.shape h.range) leafKey e.key T.2).1.page = T.2.page := page_deleteRec T.2
  have htwo : T.1 ≠ 0 → 2 ≤ T.2.size := fun hn => by
    obtain ⟨n, T⟩ := T
    cases T using BTree.Tree.ind with
    | leaf p next es => exact absurd rfl hn
    | branch p kids => exact h.valid.packed.1.1
  change _ + _ = _ at hsize
  rcases collapse_cases ⟨T.1, (deleteRec (t.shape h.range) leafKey e.key T.2).1⟩ with
    ⟨hc, hn⟩ | ⟨n, p, k, c, hT, hc⟩
  · refine .inl ⟨?_, hc⟩
    rintro ⟨h1, h2, h3⟩
    rw [hlost] at h1
    rw [if_pos h1] at hsize
    rcases hn with hn | hn
    · exact h2 hn
    · exact hn (show (deleteRec (t.shape h.range) leafKey e.key T.2).1.size = 1 by omega)
  · have hp : p = T.2.page := by
      rw [← hpage]
      exact (congrArg (fun t : Σ n, KTree n => t.2.page) hT).symm
    have h1 : (deleteRec (t.shape h.range) leafKey e.key T.2).1.size = 1 :=
      congrArg (fun t : Σ n, KTree n => t.2.size) hT
    have h0 : T.1 ≠ 0 := by rw [congrArg Sigma.fst hT]; simp
    subst hp
    refine .inr ⟨⟨?_, h0, ?_⟩, n, k, c, hT, hc⟩
    · rw [hlost]
      by_contra hl
      rw [if_neg hl] at hsize
      have := htwo h0
      omega
    · have := htwo h0
      split at hsize <;> omega

/-- The writes of a delete that goes ahead: they cannot fail. -/
theorem wp_applyDelete (h : TreeAt t s.pages T) {e : LeafEntry} (he : e ∈ T.2.toList)
    {E : Status → PageStore → Prop} :
    wp (do
      editLeaf (pathLeaf e.key T.2).page fun b => LeafNode.removeAt b (below (pathLeaf e.key T.2).entries e.key)
      applyDeletePlan t ⟨⟨T.2.page, T.1 + 1, t.leafMax, t.internalMax, 0⟩, pathNodes e.key T.2,
          pathIndexes e.key T.2⟩ (pathLeaf e.key T.2).page T.2.page
        ⟨(planOf (t.shape h.range) e.key T.2).1, decide (collapses (t.shape h.range) e.key T)⟩)
      (fun freed s' => ∃ T', Unlinked t s s' T e T' freed) E s := by
  obtain ⟨-, -, -, hup⟩ := path_shape h.valid.ordered (int64Min_le e.key) (key_lt_top e.key)
  have hsteps := wp_applyPath (E := E) h.range h.holds h.valid.ordered (int64Min_le e.key) (key_lt_top e.key)
    h.valid.packed h.valid.nodup he rfl
  have hperm := pages_delete (t.shape h.range) h.valid (int64Min_le e.key)
  have hentries := toList_delete (t.shape h.range) h.valid (int64Min_le e.key) he rfl
  have hpage : (deleteRec (t.shape h.range) leafKey e.key T.2).1.page = T.2.page := page_deleteRec T.2
  rw [wp_bind] at hsteps ⊢
  refine wp_mono hsteps (fun _ s₀ h₀ => ?_) fun _ _ he => he
  unfold applyDeletePlan
  rw [wp_bind, WritePath.up, hup]
  refine wp_mono h₀ (fun freed s₁ h₁ => ?_) fun _ _ he => he
  obtain ⟨rfl, hholds, ht₁⟩ := h₁
  have hhead₁ : HeaderAt s₁.pages t.headerPageId ⟨T.2.page, T.1 + 1, t.leafMax, t.internalMax, 0⟩ :=
    h.header.congr (ht₁.pages _ h.apart)
  have hsub : {q | q ∈ T.2.pages} ⊆ {q | q ∈ t.headerPageId :: T.2.pages} := fun q hq => List.mem_cons_of_mem _ hq
  rcases collapse_of_plan h he with ⟨hno, hcol⟩ | ⟨hyes, n, k, c, hT, hcol⟩
  · simp only [hno, decide_false]
    rw [if_neg (by simp), wp_pure]
    have hdel : BTree.delete (t.shape h.range) leafKey e.key T =
        (⟨T.1, (deleteRec (t.shape h.range) leafKey e.key T.2).1⟩,
          (deleteRec (t.shape h.range) leafKey e.key T.2).2.2) := by
      unfold BTree.delete; rw [hcol, List.append_nil]
    rw [hdel] at hperm
    change T.2.toList.Perm (e :: (BTree.delete (t.shape h.range) leafKey e.key T).1.2.toList) at hentries
    rw [hdel] at hentries
    refine ⟨_, h.delete he (congrArg Prod.fst hdel).symm hholds ?_, hentries, hperm,
      (ht₁.mono hsub).pages, ht₁.allocated, ht₁.guards, ht₁.failures, ht₁.leaks⟩
    rw [hpage]; exact hhead₁
  · simp only [hyes, decide_true, if_true]
    have hdel : BTree.delete (t.shape h.range) leafKey e.key T =
        (⟨n, c⟩, (deleteRec (t.shape h.range) leafKey e.key T.2).2.2 ++ [T.2.page]) := by
      unfold BTree.delete; rw [hcol]
    rw [hdel] at hperm
    change T.2.toList.Perm (e :: (BTree.delete (t.shape h.range) leafKey e.key T).1.2.toList) at hentries
    rw [hdel] at hentries
    have hheight : T.1 = n + 1 := congrArg Sigma.fst hT
    have hroot : Holds s₁.pages (.branch T.2.page [(k, c)] : KTree (n + 1)) := by
      have : ∀ x y : Σ n, KTree n, x = y → Holds s₁.pages x.2 → Holds s₁.pages y.2 := by
        rintro x _ rfl hx; exact hx
      exact this _ _ hT hholds
    rw [holds_branch] at hroot
    have hc : Holds s₁.pages c := hroot.2 _ List.mem_cons_self
    rw [wp_bind, wp_orFault]
    refine wp_asInternal hroot.1 fun b hb => ?_
    rw [wp_bind, wp_check, wp_bind, wp_lift]
    refine ⟨by rw [show InternalNode.count b = _ from hb.count_eq]; rfl, c.page, read_child hb rfl, ?_⟩
    rw [wp_bind, wp_orFault]
    have hlt := h.height_lt
    have hu : u16 (T.1 + 1 + 65535) = n + 1 := by rw [hheight] at hlt ⊢; simp only [u16]; omega
    have hcap := h.range
    simp only [InRange, nodeCapacity] at hcap
    refine wp_writeIndexHeader hhead₁ ?_ ?_ ?_ ?_ fun s₂ ht₂ hhead₂ => ?_
    · simp only [hu]; omega
    · simp only; omega
    · simp only; omega
    · simp
    rw [wp_pure]
    rw [hu] at hhead₂
    have hnot : t.headerPageId ∉ c.pages := fun hin =>
      h.apart (hperm.symm.subset (List.mem_append_left _ hin))
    have htouch : Touches {q | q ∈ t.headerPageId :: T.2.pages} s s₂ :=
      (ht₁.mono hsub).trans (ht₂.mono fun q hq => Set.mem_singleton_iff.mp hq ▸ List.mem_cons_self)
    refine ⟨⟨n, c⟩, h.delete he (congrArg Prod.fst hdel).symm (hc.congr fun q hq => ht₂.pages q fun hq' => ?_) hhead₂,
      hentries, hperm, htouch.pages, htouch.allocated, htouch.guards, htouch.failures, htouch.leaks⟩
    exact hnot (Set.mem_singleton_iff.mp hq' ▸ hq)

/-- The guarded part of `Delete`. -/
theorem wp_deleteGuarded (h : TreeAt t s.pages T) (hg : Apart t s T) :
    wp (deleteGuarded env t key)
      (fun freed s' => ∃ e ∈ T.2.toList, e.key = key ∧ ∃ T', Unlinked t s s' T e T' freed)
      (fun e s' => (e = ⟨.notFound, s!"key {key.toInt} not in index"⟩ ∧ (∀ e ∈ T.2.toList, e.key ≠ key) ∧
          ReadTo [] s s') ∨
        (RefusedUnder env (s.guards.length + 2 * (T.1 + 1)) e s s' ∧ s'.guards = s.guards)) s := by
  have hback : ∀ {k e s'}, RefusedUnder env k e s s' → k ≤ s.guards.length + 2 * (T.1 + 1) →
      RefusedUnder env (s.guards.length + 2 * (T.1 + 1)) e s { s' with guards := s.guards } := fun hr hk =>
    ⟨⟨hr.pages, hr.failures, hr.leaks⟩, hr.cause.mono hk⟩
  unfold deleteGuarded
  rw [wp_inScope]
  refine wp_call (wp_findLeafWrite h hg) (fun path s₁ hr => ?_) fun _ s₁ hr => .inr ⟨hback hr (by omega), rfl⟩
  obtain ⟨rfl, hr⟩ := hr
  have h₁ : TreeAt t s₁.pages T := hr.pages ▸ h
  obtain ⟨hleaf, hinc, hfound⟩ := h₁.readable.search key
  obtain ⟨hnodes, -, hlast, hup⟩ := path_shape h₁.valid.ordered (int64Min_le key) (key_lt_top key)
  rw [wp_bind, wp_lift]
  refine ⟨_, hlast, ?_⟩
  rw [wp_bind, wp_lift]
  refine ⟨_, head_pathNodes key T.2, ?_⟩
  rw [wp_bind, wp_orFault]
  refine wp_asLeaf hleaf fun b hb => ?_
  rw [wp_bind, wp_lift]
  refine ⟨_, LeafNode.lowerBound_eq hb hinc key, ?_⟩
  have hcount : LeafNode.count b = (pathLeaf key T.2).entries.length := hb.count_eq
  rw [wp_bind, hcount, wp_lift]
  rcases hfound with ⟨e, hget, rfl, hmem⟩ | ⟨hnot, habsent⟩
  · obtain ⟨hlt, hee⟩ := List.getElem?_eq_some_iff.mp hget
    refine ⟨true, by rw [if_neg (by omega), leaf_keyAt hb hlt, hee]; simp, ?_⟩
    rw [if_neg (by simp), WritePath.up, hup]
    have hguards : ∀ g ∈ s₁.guards, g.page ∈ T.2.pages → g.page ∈ pathNodes e.key T.2 := fun g hgs hin => by
      rw [hr.guards, List.mem_append, List.mem_append] at hgs
      rcases hgs with (hgs | hgs) | hgs
      · exact mem_writeGuards hgs
      · rw [List.mem_singleton.mp hgs] at hin; exact absurd hin h.apart
      · exact absurd hin (hg g hgs).2.2
    refine wp_call (wp_planDelete h₁ hguards) (fun plan s₂ h₂ => ?_)
      fun _ s₂ h₂ => .inr ⟨hback (hr.refusedUnder h₂) ?_, rfl⟩
    swap
    · simp only [writeGuards, List.length_append, List.length_reverse, List.length_map, hnodes, List.length_singleton]
      omega
    obtain ⟨rfl, taken, hr₂⟩ := h₂
    have h₂ : TreeAt t s₂.pages T := hr₂.pages ▸ h₁
    refine wp_mono (wp_applyDelete h₂ hmem) (fun freed s₃ h₃ => ?_) fun _ _ he => he
    obtain ⟨T', h₃⟩ := h₃
    have hpages : s₂.pages = s.pages := hr₂.pages.trans hr.pages
    exact ⟨e, hmem, rfl, T', h₃.tree, h₃.entries, h₃.pages, fun p hp => (h₃.other p hp).trans (by rw [hpages]),
      fun p => (h₃.allocated p).trans (by rw [hpages]), rfl, h₃.failures.trans (hr₂.failures.trans hr.failures),
      h₃.leaks.trans (hr₂.leaks.trans hr.leaks)⟩
  · refine ⟨false, ?_, ?_⟩
    · by_cases hend : below (pathLeaf key T.2).entries key = (pathLeaf key T.2).entries.length
      · rw [if_pos hend]
      · have hlt : below (pathLeaf key T.2).entries key < (pathLeaf key T.2).entries.length :=
          lt_of_le_of_ne List.countP_le_length hend
        rw [if_neg hend, leaf_keyAt hb hlt]
        simpa using hnot _ (List.getElem?_eq_getElem hlt)
    · rw [if_pos (by simp), wp_fail]
      exact .inl ⟨rfl, habsent, hr.pages, rfl, hr.failures, hr.leaks⟩

/-- What a `Delete` that returned OK did: the pages hold the tree without the entry, and the pages it no
longer uses are freed, unless freeing one failed. -/
structure Deleted (t : BPlusTree) (s s' : PageStore) (T : Σ n, KTree n) (e : LeafEntry) (T' : Σ n, KTree n)
    (freed : List PageId) : Prop where
  tree : TreeAt t s'.pages T'
  entries : T.2.toList.Perm (e :: T'.2.toList)
  pages : T.2.pages.Perm (T'.2.pages ++ freed)
  other : ∀ p ∉ t.headerPageId :: T.2.pages, s'.pages p = s.pages p
  clean : s'.leaks = s.leaks → ∀ p ∈ freed, s'.pages p = none
  guards : s'.guards = s.guards
  failures : s'.failures = s.failures
  leaks : s.leaks ≤ s'.leaks

theorem Unlinked.nodup {s' : PageStore} {T' : Σ n, KTree n} {e : LeafEntry} {freed : List PageId}
    (h : TreeAt t s.pages T) (hu : Unlinked t s s' T e T' freed) :
    freed.Nodup ∧ ∀ p ∈ freed, p ∈ T.2.pages ∧ p ∉ t.headerPageId :: T'.2.pages := by
  have hnd := List.nodup_append.mp (hu.pages.nodup_iff.mp h.valid.nodup)
  refine ⟨hnd.2.1, fun p hp => ?_⟩
  have hin : p ∈ T.2.pages := hu.pages.symm.subset (List.mem_append_right _ hp)
  refine ⟨hin, fun hp' => ?_⟩
  rcases List.mem_cons.mp hp' with rfl | hp'
  · exact h.apart hin
  · exact hnd.2.2 p hp' p hp rfl

/-- `Delete`: the tree without the entry, or the key was not there, or a failed fetch; in the last two cases
nothing changed. -/
theorem wp_delete (h : TreeAt t s.pages T) (hg : Apart t s T) :
    wp (delete env t key)
      (fun _ s' => ∃ e ∈ T.2.toList, e.key = key ∧ ∃ T' freed, Deleted t s s' T e T' freed)
      (fun e s' => (e = ⟨.notFound, s!"key {key.toInt} not in index"⟩ ∧ (∀ e ∈ T.2.toList, e.key ≠ key) ∧
          ReadTo [] s s') ∨
        (RefusedUnder env (s.guards.length + 2 * (T.1 + 1)) e s s' ∧ s'.guards = s.guards)) s := by
  unfold delete
  refine wp_call (wp_deleteGuarded h hg) (fun freed s₁ h₁ => ?_) fun _ _ he => he
  obtain ⟨e, hmem, hkey, T', hu⟩ := h₁
  obtain ⟨-, hfreed⟩ := hu.nodup h
  refine wp_mono (wp_deleteAll fun p hp => ⟨h.ids p (by simp [(hfreed p hp).1]), fun g hgs he => ?_⟩)
    (fun _ s₂ h₂ => ?_) fun _ _ he => he.elim
  · rw [hu.guards] at hgs
    exact (hg g hgs).2.2 (he ▸ (hfreed p hp).1)
  · obtain ⟨hpages, hgs, hf, hl, hclean⟩ := h₂
    refine ⟨e, hmem, hkey, T', freed, hu.tree.congr fun p hp => hpages p fun hin => (hfreed p hin).2 hp, hu.entries,
      hu.pages, fun p hp => ?_, fun hleak => hclean (hleak.trans hu.leaks.symm), hgs.trans hu.guards,
      hf.trans hu.failures, hu.leaks ▸ hl⟩
    rw [hpages p fun hin => hp (List.mem_cons_of_mem _ (hfreed p hin).1), hu.other p hp]

end Whole
end BPlusTree
end KernSql
