import KernSql.Index.IndexCode

/- The guard discipline of the index.

   Whatever the pages contain and whatever the pool answers, every operation of the
   index reads a page only under a guard it holds, changes it only under a write
   guard, gives types only to pages it has just been given, and ends, on every path,
   with the guards it started with. The readings of a corrupt page are covered: a
   page is any bytes here. Where the code asserts something about itself and the
   assertion fails, nothing is said about what follows.

   A lookup needs one guard at a time, so it runs in a pool with one frame to
   spare (`follows_get`). -/
namespace KernSql.BPlusTree.Code
open Prog
open Pool (KeepsGuards)

/-- Write guards are held on all of these pages. -/
def Owns (g : List Guard) (ps : List PageId) : Prop := ∀ p ∈ ps, ⟨p, .write⟩ ∈ g

theorem Owns.suffix {g g' : List Guard} {ps : List PageId} (h : Owns g ps) (hs : g <:+ g') : Owns g' ps :=
  fun p hp => hs.subset (h p hp)

theorem Owns.cons {g : List Guard} {p : PageId} {ps : List PageId} (hp : ⟨p, .write⟩ ∈ g) (h : Owns g ps) :
    Owns g (p :: ps) := by
  intro q hq
  rcases List.mem_cons.mp hq with rfl | hq
  · exact hp
  · exact h q hq

section Nodes
variable {limit : Option Nat} {g : List Guard} {p : PageId} {latch : Latch} {E : Status → List Guard → Prop}

theorem follows_asLeaf {Q : Body → List Guard → Prop} (hg : ⟨p, latch⟩ ∈ g) (hQ : ∀ b, Q b g) (hE : ∀ e, E e g) :
    (asLeaf p).Follows (guardProtocol limit) Q E g := by
  unfold asLeaf
  rw [follows_bind]
  apply Pool.follows_guarded hg
  intro pg
  rw [follows_ite]
  exact ⟨fun _ => hE _, fun _ => hQ _⟩

theorem follows_asInternal {Q : Body → List Guard → Prop} (hg : ⟨p, latch⟩ ∈ g) (hQ : ∀ b, Q b g) (hE : ∀ e, E e g) :
    (asInternal p).Follows (guardProtocol limit) Q E g := by
  unfold asInternal
  rw [follows_bind]
  apply Pool.follows_guarded hg
  intro pg
  rw [follows_ite]
  exact ⟨fun _ => hE _, fun _ => hQ _⟩

theorem follows_readIndexHeader {Q : IndexHeader → List Guard → Prop} (hg : ⟨p, latch⟩ ∈ g) (hQ : ∀ h, Q h g)
    (hE : ∀ e, E e g) : (readIndexHeader p).Follows (guardProtocol limit) Q E g := by
  unfold readIndexHeader
  rw [follows_bind]
  apply Pool.follows_guarded hg
  intro pg
  rw [follows_ite]
  exact ⟨fun _ => hE _, fun _ => hQ _⟩

theorem follows_writeIndexHeader {Q : Unit → List Guard → Prop} {h : IndexHeader} (hg : ⟨p, .write⟩ ∈ g) (hQ : Q () g)
    (hE : ∀ e, E e g) : (writeIndexHeader p h).Follows (guardProtocol limit) Q E g := by
  unfold writeIndexHeader
  rw [follows_bind]
  apply Pool.follows_guarded hg
  intro pg
  rw [follows_ite]
  exact ⟨fun _ => hE _, fun _ => Pool.follows_setBody hg hQ⟩

/-- A node already validated, read again. -/
theorem follows_leaf {Q : Body → List Guard → Prop} (hg : ⟨p, latch⟩ ∈ g) (hQ : ∀ b, Q b g) :
    (orFault (asLeaf p)).Follows (guardProtocol limit) Q E g := by
  rw [follows_orFault]
  exact follows_asLeaf hg hQ fun _ => trivial

theorem follows_internal {Q : Body → List Guard → Prop} (hg : ⟨p, latch⟩ ∈ g) (hQ : ∀ b, Q b g) :
    (orFault (asInternal p)).Follows (guardProtocol limit) Q E g := by
  rw [follows_orFault]
  exact follows_asInternal hg hQ fun _ => trivial

theorem follows_editLeaf {Q : Unit → List Guard → Prop} {f : Body → Option Body} (hg : ⟨p, .write⟩ ∈ g) (hQ : Q () g) :
    (editLeaf p f).Follows (guardProtocol limit) Q E g := by
  unfold editLeaf
  rw [follows_bind]
  apply follows_leaf hg
  intro b
  rw [follows_bind, follows_lift]
  exact fun _ _ => Pool.follows_setBody hg hQ

theorem follows_editInternal {Q : Unit → List Guard → Prop} {f : Body → Option Body} (hg : ⟨p, .write⟩ ∈ g)
    (hQ : Q () g) : (editInternal p f).Follows (guardProtocol limit) Q E g := by
  unfold editInternal
  rw [follows_bind]
  apply follows_internal hg
  intro b
  rw [follows_bind, follows_lift]
  exact fun _ _ => Pool.follows_setBody hg hQ

end Nodes

/-! The read path. -/

section Read
variable {limit : Option Nat} {g : List Guard} {t : BPlusTree} {key : Key}

theorem follows_open (headerPageId : PageId) (hk : ∀ k ∈ limit, g.length < k) :
    KeepsGuards limit (open_ headerPageId) g := by
  refine Pool.follows_inScope ?_
  rw [follows_bind]
  apply Pool.follows_fetchPage hk
  · rw [follows_bind]
    apply follows_readIndexHeader List.mem_cons_self
    · intro h
      rw [follows_ite]
      exact ⟨fun _ => ⟨List.suffix_cons _ _, rfl⟩, fun _ => ⟨List.suffix_cons _ _, rfl⟩⟩
    · exact fun _ => ⟨List.suffix_cons _ _, rfl⟩
  · exact fun _ => ⟨List.suffix_rfl, rfl⟩

theorem follows_descendRead (hk : ∀ k ∈ limit, g.length < k) : ∀ (n : Nat) (p : PageId),
    KeepsGuards limit (descendRead key n p) g
  | 0, p => rfl
  | n + 1, p => by
    unfold KeepsGuards descendRead
    rw [follows_bind]
    apply Pool.follows_inScope
    rw [follows_bind]
    apply Pool.follows_fetchPage hk
    · rw [follows_bind]
      apply follows_asInternal List.mem_cons_self
      · intro b
        simp only [follows_bind, follows_lift]
        exact fun _ _ next _ => ⟨List.suffix_cons _ _, follows_descendRead hk n next⟩
      · exact fun _ => ⟨List.suffix_cons _ _, rfl⟩
    · exact fun _ => ⟨List.suffix_rfl, rfl⟩

/-- The leaf's guard is left to the caller. -/
theorem follows_findLeafRead (hk : ∀ k ∈ limit, g.length < k) :
    (findLeafRead t key).Follows (guardProtocol limit) (fun leaf g' => g' = ⟨leaf, .read⟩ :: g) (fun _ g' => g' = g) g := by
  unfold findLeafRead
  rw [follows_bind]
  apply Pool.follows_inScope
  rw [follows_bind]
  apply Pool.follows_fetchPage hk
  · apply follows_readIndexHeader List.mem_cons_self
    · intro h
      refine ⟨List.suffix_cons _ _, ?_⟩
      rw [follows_ite]
      refine ⟨fun _ => rfl, fun _ => (follows_descendRead hk _ _).bind (fun leaf g' hg' => ?_) fun _ _ he => he⟩
      subst hg'
      rw [follows_bind]
      exact Pool.follows_fetchPage hk rfl fun _ => rfl
    · exact fun _ => ⟨List.suffix_cons _ _, rfl⟩
  · exact fun _ => ⟨List.suffix_rfl, rfl⟩

theorem follows_get (hk : ∀ k ∈ limit, g.length < k) : KeepsGuards limit (get t key) g := by
  refine Pool.follows_inScope ((follows_findLeafRead hk).bind (fun leaf g' hg' => ?_) fun _ _ he => ⟨he ▸ List.suffix_rfl, rfl⟩)
  subst hg'
  have hs : g <:+ (⟨leaf, .read⟩ : Guard) :: g := List.suffix_cons _ _
  rw [follows_bind]
  apply follows_asLeaf List.mem_cons_self
  · intro b
    rw [follows_bind, follows_lift]
    intro i _
    rw [follows_ite, follows_bind, follows_lift]
    refine ⟨fun _ => ⟨hs, rfl⟩, fun _ e _ => ?_⟩
    rw [follows_ite]
    exact ⟨fun _ => ⟨hs, rfl⟩, fun _ => ⟨hs, rfl⟩⟩
  · exact fun _ => ⟨hs, rfl⟩

end Read

/-! The write path. -/

section Write
variable {limit : Option Nat} {g : List Guard} {t : BPlusTree} {key : Key} {E : Status → List Guard → Prop}

/-- The write guards on these pages, the last taken first. -/
def taken (ps : List PageId) : List Guard := (ps.map fun p => ⟨p, .write⟩).reverse

theorem taken_cons (p : PageId) (ps : List PageId) : taken (p :: ps) = taken ps ++ [⟨p, .write⟩] := by
  simp [taken]

theorem mem_taken {p : PageId} {ps : List PageId} (h : p ∈ ps) : ⟨p, .write⟩ ∈ taken ps := by
  simpa [taken] using h

theorem follows_descendWrite : ∀ (n : Nat) (p : PageId) {g : List Guard},
    (descendWrite key n p).Follows (guardProtocol none) (fun path g' => g' = taken path.1 ++ g) (fun _ g' => g <:+ g') g
  | 0, p, g => by
    unfold descendWrite
    rw [follows_bind]
    apply Pool.follows_fetchPage (by simp)
    · rw [follows_bind]
      exact follows_asLeaf List.mem_cons_self (fun _ => rfl) fun _ => List.suffix_cons _ _
    · exact fun _ => List.suffix_rfl
  | n + 1, p, g => by
    unfold descendWrite
    rw [follows_bind]
    apply Pool.follows_fetchPage (by simp)
    · rw [follows_bind]
      apply follows_asInternal List.mem_cons_self
      · intro b
        rw [follows_bind, follows_lift]
        intro i _
        rw [follows_bind, follows_lift]
        intro next _
        refine (follows_descendWrite n next).bind (fun below g' hg' => ?_) fun _ _ he => (List.suffix_cons _ _).trans he
        rw [follows_pure, taken_cons, List.append_assoc]
        exact hg'
      · exact fun _ => List.suffix_cons _ _
    · exact fun _ => List.suffix_rfl

/-- The path is owned from the header down. -/
theorem follows_findLeafWrite : (findLeafWrite t key).Follows (guardProtocol none)
    (fun path g' => g <:+ g' ∧ ⟨t.headerPageId, .write⟩ ∈ g' ∧ Owns g' path.nodes) (fun _ g' => g <:+ g') g := by
  unfold findLeafWrite
  rw [follows_bind]
  apply Pool.follows_fetchPage (by simp)
  · rw [follows_bind]
    apply follows_readIndexHeader List.mem_cons_self
    · intro h
      rw [follows_ite]
      refine ⟨fun _ => List.suffix_cons _ _, fun _ => (follows_descendWrite _ _).bind (fun path g' hg' => ?_) fun _ _ he =>
        (List.suffix_cons _ _).trans he⟩
      rw [follows_pure, hg']
      exact ⟨(List.suffix_cons _ _).trans (List.suffix_append _ _), by simp, fun p hp => by simp [mem_taken hp]⟩
    · exact fun _ => List.suffix_cons _ _
  · exact fun _ => List.suffix_rfl

theorem WritePath.up_mem {path : WritePath} {x : PageId × Nat} (h : x ∈ path.up) : x.1 ∈ path.nodes := by
  have := List.mem_reverse.mp h
  exact List.dropLast_subset _ (List.of_mem_zip this).1

theorem WritePath.owns_up {path : WritePath} (h : Owns g path.nodes) : Owns g (path.up.map Prod.fst) := by
  intro p hp
  obtain ⟨x, hx, rfl⟩ := List.mem_map.mp hp
  exact h _ (WritePath.up_mem hx)

/-! Insert. -/

theorem follows_countFull : ∀ {ps : List PageId} {Q : Nat → List Guard → Prop}, Owns g ps → (∀ n, Q n g) →
    (countFull t ps).Follows (guardProtocol limit) Q E g
  | [], Q, _, hQ => hQ 0
  | p :: up, Q, h, hQ => by
    unfold countFull
    rw [follows_bind]
    apply follows_internal (h p List.mem_cons_self)
    intro b
    rw [follows_ite, follows_bind]
    exact ⟨fun _ => follows_countFull (fun q hq => h q (List.mem_cons_of_mem _ hq)) fun n => hQ (n + 1), fun _ => hQ 0⟩

theorem follows_countSplits {ps : List PageId} {Q : Nat → List Guard → Prop} (h : Owns g ps) (hQ : ∀ n, Q n g) :
    (countSplits t ps).Follows (guardProtocol limit) Q E g := by
  cases ps with
  | nil => trivial
  | cons leaf up =>
    unfold countSplits
    rw [follows_bind]
    apply follows_leaf (h leaf List.mem_cons_self)
    intro b
    rw [follows_ite, follows_bind]
    exact ⟨fun _ => follows_countFull (fun q hq => h q (List.mem_cons_of_mem _ hq)) fun n => hQ _, fun _ => hQ 0⟩

theorem follows_deleteAll : ∀ {ps : List PageId} {Q : Unit → List Guard → Prop}, Q () g →
    (deleteAll ps).Follows (guardProtocol limit) Q E g
  | [], _, hQ => hQ
  | p :: ps, Q, hQ => by
    unfold deleteAll
    rw [follows_bind, follows_attempt]
    exact Pool.follows_deletePage (follows_deleteAll hQ) fun _ => follows_deleteAll hQ

/-- The guards `own`, in any order, are those on the pages, and no others are touched. -/
theorem follows_dropGuards : ∀ {ps : List PageId} {own rest : List Guard} {Q : Unit → List Guard → Prop},
    own.Perm (taken ps) → Q () rest → (dropGuards ps).Follows (guardProtocol limit) Q E (own ++ rest)
  | [], own, rest, Q, hp, hQ => by
    obtain rfl : own = [] := List.perm_nil.mp hp
    exact hQ
  | p :: ps, own, rest, Q, hp, hQ => by
    have hmem : ⟨p, .write⟩ ∈ own := hp.symm.subset (mem_taken List.mem_cons_self)
    unfold dropGuards
    rw [follows_bind]
    apply Pool.follows_dropGuard (List.mem_append_left _ hmem)
    rw [List.erase_append_left _ hmem]
    refine follows_dropGuards ?_ hQ
    rw [taken_cons] at hp
    have := hp.trans List.perm_append_comm |>.erase (⟨p, .write⟩ : Guard)
    simpa using this

/-- Pages of one's own, ready to be given a type. -/
def Fresh (g : List Guard) (ps : List PageId) : Prop := Owns g ps ∧ ∀ p ∈ ps, catalogRootPageId < p

theorem follows_allocatePages : ∀ {n : Nat} {pages : List PageId} {own : List Guard},
    own.Perm (taken pages) → (∀ p ∈ pages, catalogRootPageId < p) →
    (allocatePages n pages).Follows (guardProtocol none) (fun pages' g' => g <:+ g' ∧ Fresh g' pages')
      (fun _ g' => g' = g) (own ++ g)
  | 0, pages, own, hp, hid =>
    ⟨List.suffix_append _ _, fun p hm => List.mem_append_left _ (hp.symm.subset (mem_taken hm)), hid⟩
  | n + 1, pages, own, hp, hid => by
    unfold allocatePages
    rw [follows_bind, follows_attempt]
    apply Pool.follows_newPage (by simp)
    · intro p hnew
      have hown : (⟨p, .write⟩ :: own).Perm (taken (pages ++ [p])) := by
        simpa [taken] using hp
      have hids : ∀ q ∈ pages ++ [p], catalogRootPageId < q := by
        intro q hq
        rcases List.mem_append.mp hq with hq | hq
        · exact hid q hq
        · exact List.mem_singleton.mp hq ▸ hnew
      exact follows_allocatePages hown hids
    · intro e
      dsimp only
      rw [follows_bind]
      refine follows_dropGuards hp ?_
      rw [follows_bind]
      exact follows_deleteAll rfl

theorem Fresh.at {g : List Guard} {ps : List PageId} (h : Fresh g ps) {i : Nat} {p : PageId} (hp : ps[i]? = some p) :
    ⟨p, .write⟩ ∈ g ∧ catalogRootPageId < p :=
  ⟨h.1 p (List.mem_of_getElem? hp), h.2 p (List.mem_of_getElem? hp)⟩

theorem follows_splitUp {pages : List PageId} (hpages : Fresh g pages) :
    ∀ {up : List (PageId × Nat)} {nextPage : Nat} {sep : Key} {rightId : PageId}
      {Q : Option (Nat × Key × PageId) → List Guard → Prop}, Owns g (up.map Prod.fst) → (∀ r, Q r g) →
      (splitUp t pages up nextPage sep rightId).Follows (guardProtocol limit) Q E g
  | [], _, _, _, Q, _, hQ => hQ _
  | (parent, childIndex) :: up, nextPage, sep, rightId, Q, h, hQ => by
    have hparent : ⟨parent, .write⟩ ∈ g := h parent List.mem_cons_self
    unfold splitUp
    rw [follows_bind]
    apply follows_internal hparent
    intro b
    dsimp only
    rw [follows_ite, follows_bind]
    refine ⟨fun _ => follows_editInternal hparent (hQ none), fun _ => ?_⟩
    rw [follows_bind, follows_lift]
    intro right hright
    obtain ⟨hown, hid⟩ := hpages.at hright
    rw [follows_bind]
    apply Pool.follows_setPageType hown hid (by decide)
    rw [follows_bind]
    apply follows_editInternal hown
    rw [follows_bind]
    apply follows_internal hown
    intro r
    rw [follows_bind, follows_lift]
    intro split _
    rw [follows_bind]
    apply Pool.follows_setBody hparent
    rw [follows_bind]
    apply Pool.follows_setBody hown
    exact follows_splitUp hpages (fun q hq => h q (List.mem_cons_of_mem _ hq)) hQ

theorem follows_splitLeafInto {pages : List PageId} {leaf : PageId} {index : Nat} {entry : LeafEntry}
    {Q : Key × PageId → List Guard → Prop} (hpages : Fresh g pages) (hleaf : ⟨leaf, .write⟩ ∈ g) (hQ : ∀ r, Q r g) :
    (splitLeafInto pages leaf index entry).Follows (guardProtocol limit) Q E g := by
  unfold splitLeafInto
  rw [follows_bind, follows_lift]
  intro right hright
  obtain ⟨hown, hid⟩ := hpages.at hright
  rw [follows_bind]
  apply Pool.follows_setPageType hown hid (by decide)
  rw [follows_bind]
  apply follows_editLeaf hown
  rw [follows_bind]
  apply follows_leaf hleaf
  intro b
  rw [follows_bind]
  apply follows_leaf hown
  intro r
  rw [follows_bind, follows_lift]
  intro split _
  rw [follows_bind]
  apply Pool.follows_setBody hleaf
  rw [follows_bind]
  exact Pool.follows_setBody hown (hQ _)

theorem follows_splitAll {path : WritePath} {pages : List PageId} {splits : Nat} {leaf : PageId}
    {up : List (PageId × Nat)} {index : Nat} {entry : LeafEntry} {Q : Unit → List Guard → Prop} (hpages : Fresh g pages)
    (hheader : ⟨t.headerPageId, .write⟩ ∈ g) (hleaf : ⟨leaf, .write⟩ ∈ g) (hup : Owns g (up.map Prod.fst)) (hQ : Q () g) :
    (splitAll t path pages splits leaf up index entry).Follows (guardProtocol limit) Q E g := by
  unfold splitAll splitPath
  rw [follows_bind, follows_bind]
  apply follows_splitLeafInto hpages hleaf
  intro right
  refine follows_splitUp hpages hup fun r => ?_
  cases r with
  | none => exact hQ
  | some x =>
    dsimp only
    rw [follows_bind, follows_check]
    intro _
    rw [follows_bind, follows_lift]
    intro root hroot
    obtain ⟨hown, hid⟩ := hpages.at hroot
    rw [follows_bind]
    apply Pool.follows_setPageType hown hid (by decide)
    rw [follows_bind]
    apply follows_editInternal hown
    rw [follows_bind]
    apply follows_editInternal hown
    rw [follows_orFault]
    exact follows_writeIndexHeader hheader hQ fun _ => trivial

theorem follows_insert (rid : RID) : KeepsGuards none (insert t key rid) g := by
  refine Pool.follows_inScope (follows_findLeafWrite.bind (fun path g₁ h₁ => ?_) fun _ _ he => ⟨he, rfl⟩)
  obtain ⟨hs, hheader, hnodes⟩ := h₁
  rw [follows_bind, follows_lift]
  intro leaf hlast
  have hleaf : ⟨leaf, .write⟩ ∈ g₁ := hnodes leaf (List.mem_of_getLast? hlast)
  rw [follows_bind]
  apply follows_leaf hleaf
  intro b
  rw [follows_bind, follows_lift]
  intro i _
  rw [follows_bind, follows_lift]
  intro found _
  rw [follows_ite, follows_ite]
  refine ⟨fun _ => ⟨hs, rfl⟩, fun _ => ⟨fun _ => follows_editLeaf hleaf ⟨hs, rfl⟩, fun _ => ?_⟩⟩
  rw [follows_bind]
  refine follows_countSplits (fun p hp => hnodes p (List.mem_reverse.mp hp)) fun splits => ?_
  dsimp only
  have hown : ([] : List Guard).Perm (taken []) := List.Perm.refl _
  refine (follows_allocatePages (g := g₁) hown (by simp)).bind (fun pages g₂ h₂ => ?_)
    fun _ _ he => ⟨he ▸ hs, rfl⟩
  obtain ⟨hs₂, hfresh⟩ := h₂
  exact follows_splitAll hfresh (hs₂.subset hheader) (hs₂.subset hleaf) ((WritePath.owns_up hnodes).suffix hs₂)
    ⟨hs.trans hs₂, rfl⟩

/-! Delete. -/

theorem follows_atFloor {isLeaf : Bool} {p : PageId} {Q : Bool → List Guard → Prop} (hp : ⟨p, .write⟩ ∈ g)
    (hQ : ∀ r, Q r g) : (atFloor t isLeaf p).Follows (guardProtocol limit) Q E g := by
  unfold atFloor
  rw [follows_ite, follows_bind, follows_bind]
  exact ⟨fun _ => follows_leaf hp fun _ => hQ _, fun _ => follows_internal hp fun _ => hQ _⟩

theorem follows_siblingAtFloor {isLeaf : Bool} {p sibling : PageId} {Q : Bool → List Guard → Prop}
    (hp : ⟨p, .write⟩ ∈ g) (hs : ⟨sibling, .write⟩ ∈ g) (hQ : ∀ r, Q r g) (hE : ∀ e, E e g) :
    (siblingAtFloor t isLeaf p sibling).Follows (guardProtocol limit) Q E g := by
  unfold siblingAtFloor
  rw [follows_ite, follows_bind, follows_bind]
  refine ⟨fun _ => follows_asLeaf hs (fun _ => hQ _) hE, fun _ => follows_asInternal hs (fun b => ?_) hE⟩
  rw [follows_bind]
  apply follows_internal hp
  intro own
  rw [follows_ite]
  exact ⟨fun _ => hE _, fun _ => hQ _⟩

/-- A fix that is planned owns the sibling it will use. -/
theorem follows_planStep {isLeaf : Bool} {p parent : PageId} {childIndex : Nat} (hp : ⟨p, .write⟩ ∈ g)
    (hparent : ⟨parent, .write⟩ ∈ g) : (planStep t isLeaf p parent childIndex).Follows (guardProtocol none)
      (fun r g' => g <:+ g' ∧ ∀ step, r = some step → ⟨step.sibling, .write⟩ ∈ g') (fun _ g' => g <:+ g') g := by
  unfold planStep
  rw [follows_bind]
  apply follows_atFloor hp
  intro floor
  rw [follows_ite]
  refine ⟨fun _ => ⟨List.suffix_rfl, fun _ h => by cases h⟩, fun _ => ?_⟩
  rw [follows_bind]
  apply follows_internal hparent
  intro pb
  dsimp only
  rw [follows_bind, follows_lift]
  intro sibling _
  rw [follows_bind]
  apply Pool.follows_fetchPage (by simp)
  · have hs : g <:+ (⟨sibling, .write⟩ : Guard) :: g := List.suffix_cons _ _
    rw [follows_bind]
    refine follows_siblingAtFloor (hs.subset hp) List.mem_cons_self (fun r => ?_) fun _ => hs
    rw [follows_ite]
    constructor
    · refine fun _ => ⟨hs, fun step h => ?_⟩
      cases h
      exact List.mem_cons_self
    · refine fun _ => ⟨hs, fun step h => ?_⟩
      cases h
      exact List.mem_cons_self
  · exact fun _ => List.suffix_rfl

theorem follows_planSteps : ∀ {isLeaf : Bool} {p : PageId} {up : List (PageId × Nat)} {g : List Guard},
    ⟨p, .write⟩ ∈ g → Owns g (up.map Prod.fst) → (planSteps t isLeaf p up).Follows (guardProtocol none)
      (fun plan g' => g <:+ g' ∧ Owns g' (plan.1.map DeleteStep.sibling)) (fun _ g' => g <:+ g') g
  | _, _, [], g, _, _ => ⟨List.suffix_rfl, fun p hp => by cases hp⟩
  | isLeaf, p, (parent, childIndex) :: up, g, hp, hup => by
    have hparent : ⟨parent, .write⟩ ∈ g := hup parent List.mem_cons_self
    unfold planSteps
    refine (follows_planStep hp hparent).bind (fun r g₁ h₁ => ?_) fun _ _ he => he
    obtain ⟨hs, hsib⟩ := h₁
    cases r with
    | none => exact ⟨hs, fun p hp => by cases hp⟩
    | some step =>
      have hown := hsib step rfl
      dsimp only
      rw [follows_ite]
      refine ⟨fun _ => ⟨hs, Owns.cons hown fun p hp => by cases hp⟩, fun _ => ?_⟩
      have hup₁ : Owns g₁ (up.map Prod.fst) := fun q hq => hs.subset (hup q (List.mem_cons_of_mem _ hq))
      refine (follows_planSteps (hs.subset hparent) hup₁).bind (fun rest g₂ h₂ => ?_) fun _ _ he => hs.trans he
      exact ⟨hs.trans h₂.1, Owns.cons (h₂.1.subset hown) h₂.2⟩

theorem follows_planDelete {leaf root : PageId} {up : List (PageId × Nat)} (hleaf : ⟨leaf, .write⟩ ∈ g)
    (hroot : ⟨root, .write⟩ ∈ g) (hup : Owns g (up.map Prod.fst)) :
    (planDelete t leaf up root).Follows (guardProtocol none)
      (fun plan g' => g <:+ g' ∧ Owns g' (plan.steps.map DeleteStep.sibling)) (fun _ g' => g <:+ g') g := by
  unfold planDelete
  refine (follows_planSteps hleaf hup).bind (fun plan g₁ h₁ => ?_) fun _ _ he => he
  rw [follows_ite, follows_bind]
  exact ⟨fun _ => follows_internal (h₁.1.subset hroot) fun _ => h₁, fun _ => h₁⟩

theorem follows_stepPair {p parent : PageId} {childIndex : Nat} {step : DeleteStep} {Q : StepPair → List Guard → Prop}
    (hp : ⟨p, .write⟩ ∈ g) (hparent : ⟨parent, .write⟩ ∈ g) (hsib : ⟨step.sibling, .write⟩ ∈ g)
    (hQ : ∀ pair : StepPair, ⟨pair.left, .write⟩ ∈ g → ⟨pair.right, .write⟩ ∈ g → Q pair g) :
    (stepPair p parent childIndex step).Follows (guardProtocol limit) Q E g := by
  unfold stepPair
  rw [follows_bind]
  apply follows_internal hparent
  intro pb
  dsimp only
  rw [follows_bind, follows_lift]
  intro sep _
  rw [follows_pure]
  cases step.siblingIsLeft with
  | true => exact hQ _ hsib hp
  | false => exact hQ _ hp hsib

theorem follows_redistribute {isLeaf siblingIsLeft : Bool} {left right : PageId} {separator : Key}
    {Q : Key → List Guard → Prop} (hl : ⟨left, .write⟩ ∈ g) (hr : ⟨right, .write⟩ ∈ g) (hQ : ∀ k, Q k g) :
    (redistribute isLeaf siblingIsLeft left right separator).Follows (guardProtocol limit) Q E g := by
  unfold redistribute
  rw [follows_ite, follows_bind, follows_bind]
  constructor
  · intro _
    apply follows_leaf hl
    intro l
    rw [follows_bind]
    apply follows_leaf hr
    intro r
    rw [follows_bind, follows_lift]
    intro out _
    rw [follows_bind]
    apply Pool.follows_setBody hl
    rw [follows_bind]
    exact Pool.follows_setBody hr (hQ _)
  · intro _
    apply follows_internal hl
    intro l
    rw [follows_bind]
    apply follows_internal hr
    intro r
    rw [follows_bind, follows_lift]
    intro out _
    rw [follows_bind]
    apply Pool.follows_setBody hl
    rw [follows_bind]
    exact Pool.follows_setBody hr (hQ _)

theorem follows_mergeInto {isLeaf : Bool} {left right : PageId} {separator : Key} {Q : Unit → List Guard → Prop}
    (hl : ⟨left, .write⟩ ∈ g) (hr : ⟨right, .write⟩ ∈ g) (hQ : Q () g) :
    (mergeInto isLeaf left right separator).Follows (guardProtocol limit) Q E g := by
  unfold mergeInto
  rw [follows_ite, follows_bind, follows_bind]
  exact ⟨fun _ => follows_leaf hr fun _ => follows_editLeaf hl hQ,
    fun _ => follows_internal hr fun _ => follows_editInternal hl hQ⟩

theorem follows_applySteps : ∀ {isLeaf : Bool} {p : PageId} {up : List (PageId × Nat)} {steps : List DeleteStep}
    {Q : List PageId → List Guard → Prop}, ⟨p, .write⟩ ∈ g → Owns g (up.map Prod.fst) →
    Owns g (steps.map DeleteStep.sibling) → (∀ freed, Q freed g) →
    (applySteps isLeaf p up steps).Follows (guardProtocol limit) Q E g
  | _, _, [], [], _, _, _, _, hQ => hQ []
  | _, _, _ :: _, [], _, _, _, _, hQ => hQ []
  | _, _, [], _ :: _, _, _, _, _, _ => trivial
  | isLeaf, p, (parent, childIndex) :: up, step :: steps, Q, hp, hup, hsib, hQ => by
    have hparent : ⟨parent, .write⟩ ∈ g := hup parent List.mem_cons_self
    have hown : ⟨step.sibling, .write⟩ ∈ g := hsib step.sibling List.mem_cons_self
    unfold applySteps
    cases step.fix with
    | redistribute =>
      dsimp only
      unfold applyRedistribute
      rw [follows_bind, follows_bind]
      refine follows_stepPair hp hparent hown fun pair hl hr => ?_
      rw [follows_bind]
      refine follows_redistribute hl hr fun k => follows_editInternal hparent ?_
      rw [follows_bind, follows_check]
      exact fun _ => hQ []
    | merge =>
      dsimp only
      unfold applyMerge
      rw [follows_bind, follows_bind]
      refine follows_stepPair hp hparent hown fun pair hl hr => ?_
      rw [follows_bind]
      apply follows_mergeInto hl hr
      rw [follows_bind]
      apply follows_editInternal hparent
      rw [follows_pure, follows_bind]
      exact follows_applySteps hparent (fun q hq => hup q (List.mem_cons_of_mem _ hq))
        (fun q hq => hsib q (List.mem_cons_of_mem _ hq)) fun _ => hQ _

theorem follows_applyDeletePlan {path : WritePath} {leaf root : PageId} {plan : DeletePlan}
    {Q : List PageId → List Guard → Prop} (hheader : ⟨t.headerPageId, .write⟩ ∈ g) (hleaf : ⟨leaf, .write⟩ ∈ g)
    (hroot : ⟨root, .write⟩ ∈ g) (hup : Owns g (path.up.map Prod.fst))
    (hsib : Owns g (plan.steps.map DeleteStep.sibling)) (hQ : ∀ freed, Q freed g) :
    (applyDeletePlan t path leaf root plan).Follows (guardProtocol limit) Q E g := by
  unfold applyDeletePlan
  rw [follows_bind]
  refine follows_applySteps hleaf hup hsib fun freed => ?_
  rw [follows_ite]
  refine ⟨fun _ => ?_, fun _ => hQ _⟩
  rw [follows_bind]
  apply follows_internal hroot
  intro b
  rw [follows_bind, follows_check]
  intro _
  rw [follows_bind, follows_lift]
  intro child _
  rw [follows_bind, follows_orFault]
  exact follows_writeIndexHeader hheader (hQ _) fun _ => trivial

theorem follows_delete : KeepsGuards none (delete t key) g := by
  unfold KeepsGuards delete
  rw [follows_bind]
  refine Pool.follows_inScope (follows_findLeafWrite.bind (fun path g₁ h₁ => ?_) fun _ _ he => ⟨he, rfl⟩)
  obtain ⟨hs, hheader, hnodes⟩ := h₁
  rw [follows_bind, follows_lift]
  intro leaf hlast
  have hleaf : ⟨leaf, .write⟩ ∈ g₁ := hnodes leaf (List.mem_of_getLast? hlast)
  rw [follows_bind, follows_lift]
  intro root hhead
  have hroot : ⟨root, .write⟩ ∈ g₁ := hnodes root (List.mem_of_mem_head? hhead)
  rw [follows_bind]
  apply follows_leaf hleaf
  intro b
  rw [follows_bind, follows_lift]
  intro i _
  rw [follows_bind, follows_lift]
  intro found _
  rw [follows_ite]
  refine ⟨fun _ => ⟨hs, rfl⟩, fun _ => ?_⟩
  refine (follows_planDelete hleaf hroot (WritePath.owns_up hnodes)).bind (fun plan g₂ h₂ => ?_)
    fun _ _ he => ⟨hs.trans he, rfl⟩
  obtain ⟨hs₂, hsib⟩ := h₂
  rw [follows_bind]
  apply follows_editLeaf (hs₂.subset hleaf)
  exact follows_applyDeletePlan (hs₂.subset hheader) (hs₂.subset hleaf) (hs₂.subset hroot)
    ((WritePath.owns_up hnodes).suffix hs₂) hsib fun _ => ⟨hs.trans hs₂, follows_deleteAll rfl⟩

end Write

/-! Create. -/

theorem follows_create {g : List Guard} (leafMax internalMax : Nat) : KeepsGuards none (create leafMax internalMax) g := by
  refine Pool.follows_inScope ?_
  rw [follows_ite, follows_ite]
  refine ⟨fun _ => ⟨List.suffix_rfl, rfl⟩, fun _ => ⟨fun _ => ⟨List.suffix_rfl, rfl⟩, fun _ => ?_⟩⟩
  rw [follows_bind]
  refine Pool.follows_newPage (by simp) (fun headerId hheader => ?_) fun _ => ⟨List.suffix_rfl, rfl⟩
  rw [follows_bind, follows_attempt]
  refine Pool.follows_newPage (by simp) (fun rootId hroot => ?_) fun e => ?_
  · have hs : g <:+ (⟨rootId, .write⟩ : Guard) :: ⟨headerId, .write⟩ :: g := (List.suffix_cons _ _).trans (List.suffix_cons _ _)
    have hown : (⟨rootId, .write⟩ : Guard) ∈ (⟨rootId, .write⟩ : Guard) :: ⟨headerId, .write⟩ :: g := List.mem_cons_self
    have hhead : (⟨headerId, .write⟩ : Guard) ∈ (⟨rootId, .write⟩ : Guard) :: ⟨headerId, .write⟩ :: g := by simp
    dsimp only
    rw [follows_bind]
    apply Pool.follows_setPageType hown hroot (by decide)
    rw [follows_bind]
    refine follows_asLeaf hown (fun b => ?_) fun _ => ⟨hs, rfl⟩
    rw [follows_bind]
    apply Pool.follows_setBody hown
    rw [follows_bind]
    apply Pool.follows_setPageType hhead hheader (by decide)
    rw [follows_bind]
    exact follows_writeIndexHeader hhead ⟨hs, rfl⟩ fun _ => ⟨hs, rfl⟩
  · dsimp only
    rw [follows_bind]
    apply Pool.follows_dropGuard List.mem_cons_self
    rw [List.erase_cons_head, follows_bind, follows_attempt]
    exact Pool.follows_deletePage ⟨List.suffix_rfl, rfl⟩ fun _ => ⟨List.suffix_rfl, rfl⟩

/-- Every operation of an index ends with the guards it began with, on every path and over any pages. -/
theorem follows_perform {g : List Guard} (t : BPlusTree) (op : Op) : KeepsGuards none (perform t op) g := by
  cases op with
  | insert key rid => exact (follows_insert rid).bind (fun _ _ h => h) fun _ _ h => h
  | delete key => exact follows_delete.bind (fun _ _ h => h) fun _ _ h => h
  | get key => exact (follows_get (by simp)).bind (fun _ _ h => h) fun _ _ h => h

end KernSql.BPlusTree.Code
