import KernSql.Buffer.ConcurrentMoves

/- Where every frame is, in any interleaving.

   An activity that has to do with a frame has a stake in it: it may hold a pin,
   and it may be the one activity the frame belongs to. A frame is in exactly one
   place: on the free list, with one activity, or Resident and mapped (`placed`).
   Its pin count is the number of stakes with a pin. What an activity may rely on
   is what its stake says about the frame (`Holds`); a step of another activity
   cannot take it away, since the frames it changes are its own or unpinned.

   All this is about one frame at a time (`OnFrame`). A step changes one frame and
   leaves the others as they are (`Inv.at`). -/
namespace KernSql.Concurrent

/-- What an activity has in a frame. -/
inductive Stake where
  /-- a pin on a Resident frame mapped to the page -/
  | pinned (p : PageId)
  /-- a pin on a Resident frame with the page, mapped or not -/
  | flushing (p : PageId)
  /-- a pin about to go -/
  | leaving
  /-- a pin of a fetcher that waits for the load -/
  | waiting (p : PageId)
  /-- the pin of the load -/
  | loader (p : PageId)
  /-- the pin of a load that failed and has erased its mapping -/
  | abandoner
  /-- the pin of a load that failed and waits for the others to leave -/
  | disposer
  /-- the frame, free and nobody else's -/
  | privately
  /-- the pin of `NewPage` before it publishes -/
  | creator (p : PageId)
  deriving DecidableEq

namespace Stake

def pins : Stake → Bool
  | .privately => false
  | _ => true

/-- The frame belongs to the activity. -/
def owns : Stake → Bool
  | .loader _ | .abandoner | .disposer | .privately | .creator _ => true
  | .pinned _ | .flushing _ | .leaving | .waiting _ => false

end Stake

/-- A reclaim flushes a frame it found mapped. -/
def After.stake (p : PageId) : After → Stake
  | .evict _ => .pinned p
  | .finish | .sweep _ => .flushing p

namespace Activity

def stake : Activity → Option (Nat × Stake)
  | .hitWait p _ f _ => some (f, .waiting p)
  | .recordAccess p _ f _ | .setPinned p _ f | .acquireLatch p _ f | .guard p _ f => some (f, .pinned p)
  | .unpin f _ => some (f, .leaving)
  | .isDirty f p next | .writePage f p next | .markFlushed f p _ next => some (f, next.stake p)
  | .revalidate _ f p => some (f, .pinned p)
  | .acquired _ f | .push f | .stamp f _ | .deleteClear _ f | .deallocate _ (some f) | .deletePush _ f =>
    some (f, .privately)
  | .readPage p _ f | .publish p _ f | .abandonErase p f => some (f, .loader p)
  | .abandonFail _ f => some (f, .abandoner)
  | .abandonWait f => some (f, .disposer)
  | .fill f p | .insert f p => some (f, .creator p)
  | .done | .lookup _ _ | .tryPop _ | .evict _ | .peek _ _ | .validate _ _ _ | .flushPage _ | .flushFrom _
  | .deletePage _ | .deallocate _ none => none

def stakeOn (f : Nat) (a : Activity) : Option Stake :=
  match a.stake with
  | none => none
  | some (g, k) => if g = f then some k else none

def pins (f : Nat) (a : Activity) : Bool := (a.stakeOn f).any Stake.pins

def owns (f : Nat) (a : Activity) : Bool := (a.stakeOn f).any Stake.owns

variable {a : Activity} {f g : Nat} {k : Stake}

theorem stakeOn_none (h : a.stake = none) : a.stakeOn f = none := by rw [stakeOn, h]

theorem stakeOn_same (h : a.stake = some (f, k)) : a.stakeOn f = some k := by rw [stakeOn, h]; exact if_pos rfl

theorem stakeOn_other (h : a.stake = some (f, k)) (hg : g ≠ f) : a.stakeOn g = none := by
  rw [stakeOn, h]
  exact if_neg hg.symm

theorem pins_none (h : a.stakeOn f = none) : a.pins f = false := by rw [pins, h]; rfl
theorem owns_none (h : a.stakeOn f = none) : a.owns f = false := by rw [owns, h]; rfl
theorem pins_some (h : a.stakeOn f = some k) : a.pins f = k.pins := by rw [pins, h]; rfl
theorem owns_some (h : a.stakeOn f = some k) : a.owns f = k.owns := by rw [owns, h]; rfl

theorem stake_of_idle (h : a.idle = true) : a.stake = none := by
  cases a <;> first | rfl | cases h

end Activity

/-- What a stake says about the frame. -/
def Holds (s : Shared) (f : Nat) : Stake → Prop
  | .pinned p => (s.frames f).state = .resident ∧ (s.frames f).pageId = p ∧ s.table p = some f
  | .flushing p => (s.frames f).state = .resident ∧ (s.frames f).pageId = p
  | .leaving => (s.frames f).state = .resident ∨ (s.frames f).state = .failed
  | .waiting p => (s.frames f).pageId = p ∧ ((s.frames f).state = .loading ∨ (s.frames f).state = .failed ∨
      (s.frames f).state = .resident ∧ s.table p = some f)
  | .loader p => (s.frames f).state = .loading ∧ (s.frames f).pageId = p ∧ s.table p = some f
  | .abandoner => (s.frames f).state = .loading ∧ s.table (s.frames f).pageId ≠ some f
  | .disposer => (s.frames f).state = .failed
  | .privately => (s.frames f).state = .free ∧ (s.frames f).pageId = invalidPage
  | .creator p => (s.frames f).state = .resident ∧ (s.frames f).pageId = p

/-- Resident and mapped. -/
def Housed (s : Shared) (f : Nat) : Prop :=
  (s.frames f).state = .resident ∧ s.table (s.frames f).pageId = some f

instance (s : Shared) (f : Nat) : Decidable (Housed s f) := inferInstanceAs (Decidable (_ ∧ _))

theorem not_housed {s : Shared} {f : Nat} {state : FrameState} (h : (s.frames f).state = state)
    (hne : state ≠ .resident) : ¬Housed s f := fun hh => hne (h.symm.trans hh.1)

structure OnFrame (s : Shared) (acts : List Activity) (f : Nat) : Prop where
  placed : s.freeList.count f + acts.countP (·.owns f) + (if Housed s f then 1 else 0) =
    if f < s.capacity then 1 else 0
  pins : (s.frames f).pinCount = acts.countP (·.pins f)
  home : ∀ p, s.table p = some f →
    (s.frames f).pageId = p ∧ ((s.frames f).state = .resident ∨ (s.frames f).state = .loading)
  stock : f ∈ s.freeList → (s.frames f).state = .free ∧ (s.frames f).pageId = invalidPage
  inside : (s.frames f).state ≠ .free → f < s.capacity
  holds : ∀ a ∈ acts, ∀ k, a.stakeOn f = some k → Holds s f k

def Inv (s : Shared) (acts : List Activity) : Prop := ∀ f, OnFrame s acts f

/-! Who else has a stake. -/

section Others
variable {s s' : Shared} {acts rest : List Activity} {a a' b : Activity} {f : Nat} {k : Stake}

/-- Any order of the activities will do. -/
theorem OnFrame.perm {acts' : List Activity} (h : OnFrame s acts f) (hp : acts.Perm acts') : OnFrame s acts' f where
  placed := by rw [← hp.countP_eq]; exact h.placed
  pins := by rw [← hp.countP_eq]; exact h.pins
  home := h.home
  stock := h.stock
  inside := h.inside
  holds b hb := h.holds b (hp.mem_iff.mpr hb)

theorem countP_cons_toNat (p : Activity → Bool) : (a :: rest).countP p = rest.countP p + (p a).toNat := by
  rw [List.countP_cons]
  cases p a <;> rfl

/-- A stake in a Free frame is its owner's. -/
theorem Holds.owns_of_free (h : Holds s f k) (hs : (s.frames f).state = .free) : k.owns = true := by
  cases k <;> simp_all [Holds, Stake.owns]

/-- A stake in a frame that is not Free is a pin. -/
theorem Holds.pins_of_ne_free (h : Holds s f k) (hs : (s.frames f).state ≠ .free) : k.pins = true := by
  cases k <;> simp_all [Holds, Stake.pins]

/-- The owner's frame is nobody else's. -/
theorem OnFrame.owner (h : OnFrame s (a :: rest) f) (ha : a.owns f = true) :
    (∀ b ∈ rest, b.owns f = false) ∧ f ∉ s.freeList ∧ ¬Housed s f ∧ f < s.capacity := by
  have hp := h.placed
  rw [countP_cons_toNat, ha] at hp
  have hcap : f < s.capacity := by
    by_contra hn
    rw [if_neg hn] at hp
    simp at hp
  rw [if_pos hcap] at hp
  simp only [Bool.toNat_true] at hp
  refine ⟨fun b hb => ?_, fun hmem => ?_, fun hh => ?_, hcap⟩
  · have : rest.countP (·.owns f) = 0 := by omega
    simpa using List.countP_eq_zero.mp this b hb
  · have := List.count_pos_iff.mpr hmem
    omega
  · rw [if_pos hh] at hp
    omega

theorem OnFrame.alone_free (h : OnFrame s (a :: rest) f) (ha : a.owns f = true)
    (hs : (s.frames f).state = .free) : ∀ b ∈ rest, b.stakeOn f = none := by
  intro b hb
  cases hk : b.stakeOn f with
  | none => rfl
  | some k =>
    have howns := (h.holds b (.tail _ hb) k hk).owns_of_free hs
    rw [← Activity.owns_some hk, (h.owner ha).1 b hb] at howns
    cases howns

/-- With no pin but the activity's own, nobody else has a stake. -/
theorem OnFrame.alone_unpinned (h : OnFrame s (a :: rest) f) (hs : (s.frames f).state ≠ .free)
    (hpin : (s.frames f).pinCount = (a.pins f).toNat) : ∀ b ∈ rest, b.stakeOn f = none := by
  intro b hb
  have hp := h.pins
  rw [countP_cons_toNat, hpin] at hp
  have hzero : rest.countP (·.pins f) = 0 := by omega
  cases hk : b.stakeOn f with
  | none => rfl
  | some k =>
    have hpins := (h.holds b (.tail _ hb) k hk).pins_of_ne_free hs
    rw [← Activity.pins_some hk] at hpins
    exact absurd hpins (List.countP_eq_zero.mp hzero b hb)

/-- The others at a frame that is being loaded wait for it. -/
theorem OnFrame.waiters (h : OnFrame s (a :: rest) f) (ha : a.owns f = true)
    (hs : (s.frames f).state = .loading) : ∀ b ∈ rest, ∀ k, b.stakeOn f = some k → ∃ p, k = .waiting p := by
  intro b hb k hk
  have hholds := h.holds b (.tail _ hb) k hk
  have howns := (h.owner ha).1 b hb
  rw [Activity.owns_some hk] at howns
  cases k <;> simp_all [Holds, Stake.owns]

/-- A frame in use that is not Resident and mapped belongs to somebody. -/
theorem OnFrame.exists_owner (h : OnFrame s acts f) (hs : (s.frames f).state ≠ .free) (hh : ¬Housed s f) :
    ∃ b ∈ acts, ∃ k, b.stakeOn f = some k ∧ k.owns = true := by
  have hp := h.placed
  have hfree : f ∉ s.freeList := fun hmem => hs (h.stock hmem).1
  rw [if_pos (h.inside hs), List.count_eq_zero.mpr hfree, if_neg hh] at hp
  obtain ⟨b, hb, howns⟩ := List.countP_pos_iff.mp (show 0 < acts.countP (·.owns f) by omega)
  cases hk : b.stakeOn f with
  | none =>
    rw [Activity.owns_none hk] at howns
    cases howns
  | some k => exact ⟨b, hb, k, hk, (Activity.owns_some hk).symm.trans howns⟩

/-- A stake in a frame that is not Free shows in the pin count. -/
theorem OnFrame.pinCount_pos (h : OnFrame s acts f) (hb : b ∈ acts) (hk : b.stakeOn f = some k)
    (hs : (s.frames f).state ≠ .free) : 0 < (s.frames f).pinCount := by
  have hpins := (h.holds b hb k hk).pins_of_ne_free hs
  have hpos : 0 < acts.countP (·.pins f) := List.countP_pos_iff.mpr ⟨b, hb, (Activity.pins_some hk).trans hpins⟩
  rw [h.pins]
  exact_mod_cast hpos

/-- An unpinned frame in use is Resident and mapped. -/
theorem OnFrame.housed_of_unpinned (h : OnFrame s acts f) (hs : (s.frames f).state ≠ .free)
    (hpin : (s.frames f).pinCount = 0) : Housed s f := by
  by_contra hh
  obtain ⟨b, hb, k, hk, -⟩ := h.exists_owner hs hh
  have := h.pinCount_pos hb hk hs
  omega

end Others

/-! Changes to one frame. -/

section Changes
variable {s s' : Shared} {rest : List Activity} {a a' : Activity} {f : Nat}

/-- Nothing about the frame changes but its pins, its bytes and its epochs. -/
structure Same (s s' : Shared) (f : Nat) : Prop where
  state : (s'.frames f).state = (s.frames f).state
  pageId : (s'.frames f).pageId = (s.frames f).pageId
  table : ∀ p, s'.table p = some f ↔ s.table p = some f
  freeList : s'.freeList.count f = s.freeList.count f
  capacity : s'.capacity = s.capacity

theorem Same.holds (h : Same s s' f) {k : Stake} (hk : Holds s f k) : Holds s' f k := by
  cases k <;> simp_all [Holds, h.state, h.pageId, h.table]

theorem Same.housed (h : Same s s' f) : Housed s' f ↔ Housed s f := by
  unfold Housed
  rw [h.state, h.pageId, h.table]

/-- A stake for a stake, and the pins to match. -/
theorem OnFrame.relabel (h : OnFrame s (a :: rest) f) (hsame : Same s s' f) (howns : a'.owns f = a.owns f)
    (hpins : (s'.frames f).pinCount + (a.pins f).toNat = (s.frames f).pinCount + (a'.pins f).toNat)
    (hholds : ∀ k, a'.stakeOn f = some k → Holds s' f k) : OnFrame s' (a' :: rest) f where
  placed := by
    have hp := h.placed
    rw [countP_cons_toNat] at hp ⊢
    rw [hsame.freeList, hsame.capacity, howns, if_congr hsame.housed rfl rfl]
    exact hp
  pins := by
    have hp := h.pins
    rw [countP_cons_toNat] at hp ⊢
    push_cast at hp ⊢
    omega
  home p hp := by
    rw [hsame.state, hsame.pageId]
    exact h.home p ((hsame.table p).mp hp)
  stock hmem := by
    rw [hsame.state, hsame.pageId]
    exact h.stock (List.count_pos_iff.mp (hsame.freeList ▸ List.count_pos_iff.mpr hmem))
  inside hs := by
    rw [hsame.capacity]
    exact h.inside (hsame.state ▸ hs)
  holds b hb k hk := by
    cases hb with
    | head => exact hholds k hk
    | tail _ hb => exact hsame.holds (h.holds b (.tail _ hb) k hk)

/-- A frame that belongs to the activity afterwards. -/
theorem OnFrame.of_owner (hrest : ∀ b ∈ rest, b.owns f = false) (hfree : f ∉ s'.freeList) (hcap : f < s'.capacity)
    (ha' : a'.owns f = true) (hhoused : ¬Housed s' f)
    (hpins : (s'.frames f).pinCount = rest.countP (·.pins f) + (a'.pins f).toNat)
    (hhome : ∀ p, s'.table p = some f →
      (s'.frames f).pageId = p ∧ ((s'.frames f).state = .resident ∨ (s'.frames f).state = .loading))
    (hrestHolds : ∀ b ∈ rest, ∀ k, b.stakeOn f = some k → Holds s' f k)
    (hholds : ∀ k, a'.stakeOn f = some k → Holds s' f k) : OnFrame s' (a' :: rest) f where
  placed := by
    have hzero : rest.countP (·.owns f) = 0 := List.countP_eq_zero.mpr fun b hb => by simp [hrest b hb]
    rw [countP_cons_toNat, hzero, ha', List.count_eq_zero.mpr hfree, if_neg hhoused, if_pos hcap]
    rfl
  pins := by
    rw [countP_cons_toNat, hpins]
    push_cast
    rfl
  home := hhome
  stock hmem := absurd hmem hfree
  inside _ := hcap
  holds b hb k hk := by
    cases hb with
    | head => exact hholds k hk
    | tail _ hb => exact hrestHolds b hb k hk

theorem pins_of_alone (hrest : ∀ b ∈ rest, b.stakeOn f = none) : rest.countP (·.pins f) = 0 :=
  List.countP_eq_zero.mpr fun b hb => by simp [Activity.pins_none (hrest b hb)]

/-- `of_owner` when nobody else has a stake. -/
theorem OnFrame.of_alone {k : Stake} (hrest : ∀ b ∈ rest, b.stakeOn f = none) (hfree : f ∉ s'.freeList)
    (hcap : f < s'.capacity) (hk : a'.stakeOn f = some k) (howns : k.owns = true) (hhoused : ¬Housed s' f)
    (hpins : (s'.frames f).pinCount = k.pins.toNat)
    (hhome : ∀ p, s'.table p = some f →
      (s'.frames f).pageId = p ∧ ((s'.frames f).state = .resident ∨ (s'.frames f).state = .loading))
    (hholds : Holds s' f k) : OnFrame s' (a' :: rest) f := by
  refine .of_owner (fun b hb => Activity.owns_none (hrest b hb)) hfree hcap ((Activity.owns_some hk).trans howns)
    hhoused ?_ hhome (fun b hb k hk => ?_) fun k' hk' => ?_
  · rw [pins_of_alone hrest, Activity.pins_some hk, hpins]
    simp
  · rw [hrest b hb] at hk
    cases hk
  · rw [hk] at hk'
    exact Option.some.inj hk' ▸ hholds

/-- The first of the free list becomes the activity's. -/
theorem OnFrame.pop (h : OnFrame s (a :: rest) f) {free : List Nat} (hfree : s.freeList = f :: free)
    (ha : a.stakeOn f = none) (ha' : a'.stakeOn f = some .privately) :
    OnFrame { s with freeList := free } (a' :: rest) f := by
  have hp := h.placed
  have hst := h.stock (hfree ▸ .head _)
  rw [hfree, List.count_cons_self, countP_cons_toNat, Activity.owns_none ha] at hp
  have hcap : f < s.capacity := by
    by_contra hn
    rw [if_neg hn] at hp
    omega
  rw [if_pos hcap] at hp
  have hnot : ¬Housed s f := fun hh => by rw [if_pos hh] at hp; omega
  have hzero : rest.countP (·.owns f) = 0 := by simp only [Bool.toNat_false] at hp; omega
  have hpins := h.pins
  rw [countP_cons_toNat, Activity.pins_none ha] at hpins
  refine .of_owner (fun b hb => by simpa using List.countP_eq_zero.mp hzero b hb) (List.count_eq_zero.mp ?_) hcap
    (Activity.owns_some ha') hnot ?_ h.home (fun b hb k hk => h.holds b (.tail _ hb) k hk) fun k hk => ?_
  · show free.count f = 0
    omega
  · rw [Activity.pins_some ha']
    exact_mod_cast hpins
  · rw [ha'] at hk
    exact Option.some.inj hk ▸ hst

/-- The activity's free frame goes to the free list. -/
theorem OnFrame.push (h : OnFrame s (a :: rest) f) (ha : a.stakeOn f = some .privately) (ha' : a'.stakeOn f = none) :
    OnFrame (s.push f) (a' :: rest) f := by
  have hst : Holds s f .privately := h.holds a (.head _) _ ha
  obtain ⟨hrest, hfree, hnot, hcap⟩ := h.owner (Activity.owns_some ha)
  have hzero : rest.countP (·.owns f) = 0 := List.countP_eq_zero.mpr fun b hb => by simp [hrest b hb]
  have hpins := h.pins
  rw [countP_cons_toNat, Activity.pins_some ha] at hpins
  refine ⟨?_, ?_, h.home, fun _ => hst, fun hs => absurd hst.1 hs, fun b hb k hk => ?_⟩
  · rw [countP_cons_toNat, Activity.owns_none ha', hzero]
    show (f :: s.freeList).count f + _ + (if Housed s f then 1 else 0) = if f < s.capacity then 1 else 0
    rw [List.count_cons_self, List.count_eq_zero.mpr hfree, if_neg hnot, if_pos hcap]
    rfl
  · rw [countP_cons_toNat, Activity.pins_none ha']
    exact hpins
  · cases hb with
    | head =>
      rw [ha'] at hk
      cases hk
    | tail _ hb => exact h.holds b (.tail _ hb) k hk

/-- A mapped frame with no stake but the activity's own is unmapped, freed and the activity's. -/
theorem OnFrame.vacate (h : OnFrame s (a :: rest) f) {p : PageId} (hs : (s.frames f).state = .resident)
    (hpin : (s.frames f).pinCount = (a.pins f).toNat) (hmap : s.table p = some f)
    (ha' : a'.stakeOn f = some .privately) (hfree : s'.freeList = s.freeList) (hcap : s'.capacity = s.capacity)
    (htable : s'.table = Function.update s.table p none) (hstate : (s'.frames f).state = .free)
    (hpage : (s'.frames f).pageId = invalidPage) (hpin' : (s'.frames f).pinCount = 0) :
    OnFrame s' (a' :: rest) f := by
  have hne : (s.frames f).state ≠ .free := by rw [hs]; decide
  refine .of_alone (h.alone_unpinned hne hpin) ?_ (hcap ▸ h.inside hne) ha' rfl (not_housed hstate (by decide))
    hpin' ?_ ⟨hstate, hpage⟩
  · rw [hfree]
    exact fun hmem => hne (h.stock hmem).1
  · intro q hq
    rw [htable] at hq
    by_cases hqp : q = p
    · rw [hqp, Function.update_self] at hq
      cases hq
    · rw [Function.update_of_ne hqp] at hq
      exact absurd ((h.home q hq).1.symm.trans (h.home p hmap).1) hqp

/-- No page leads to a frame that is the activity's own and free. -/
theorem OnFrame.unmapped_of_free (h : OnFrame s (a :: rest) f) (hs : (s.frames f).state = .free) (p : PageId) :
    s.table p ≠ some f := by
  intro hp
  have := (h.home p hp).2
  rw [hs] at this
  exact this.elim nofun nofun

/-- A private frame is mapped to a page, for the load of it. -/
theorem OnFrame.load (h : OnFrame s (a :: rest) f) {p : PageId} (ha : a.stakeOn f = some .privately)
    (ha' : a'.stakeOn f = some (.loader p)) (hfree : s'.freeList = s.freeList) (hcap : s'.capacity = s.capacity)
    (htable : s'.table = Function.update s.table p (some f)) (hstate : (s'.frames f).state = .loading)
    (hpage : (s'.frames f).pageId = p) (hpin' : (s'.frames f).pinCount = 1) : OnFrame s' (a' :: rest) f := by
  have hst : Holds s f .privately := h.holds a (.head _) _ ha
  have howns := Activity.owns_some ha
  obtain ⟨-, hnot, -, hlt⟩ := h.owner howns
  have hmap : s'.table p = some f := by rw [htable, Function.update_self]
  refine .of_alone (h.alone_free howns hst.1) (hfree ▸ hnot) (hcap ▸ hlt) ha' rfl (not_housed hstate (by decide))
    hpin' (fun q hq => ?_) ⟨hstate, hpage, hmap⟩
  by_cases hqp : q = p
  · exact ⟨hpage.trans hqp.symm, .inr hstate⟩
  · rw [htable, Function.update_of_ne hqp] at hq
    exact absurd hq (h.unmapped_of_free hst.1 q)

/-- A private frame is given a page that the table does not have. -/
theorem OnFrame.stamp (h : OnFrame s (a :: rest) f) {p : PageId} (ha : a.stakeOn f = some .privately)
    (ha' : a'.stakeOn f = some (.creator p)) (hfree : s'.freeList = s.freeList) (hcap : s'.capacity = s.capacity)
    (htable : s'.table = s.table) (hstate : (s'.frames f).state = .resident)
    (hpage : (s'.frames f).pageId = p) (hpin' : (s'.frames f).pinCount = 1) : OnFrame s' (a' :: rest) f := by
  have hst : Holds s f .privately := h.holds a (.head _) _ ha
  have howns := Activity.owns_some ha
  obtain ⟨-, hnot, -, hlt⟩ := h.owner howns
  refine .of_alone (h.alone_free howns hst.1) (hfree ▸ hnot) (hcap ▸ hlt) ha' rfl ?_ hpin' ?_ ⟨hstate, hpage⟩
  · exact fun hh => h.unmapped_of_free hst.1 _ (htable ▸ hh.2)
  · intro q hq
    exact absurd (htable ▸ hq) (h.unmapped_of_free hst.1 q)

/-- A failed load leaves the frame to its owner when no other pin is left. -/
theorem OnFrame.dispose (h : OnFrame s (a :: rest) f) {k : Stake} (ha : a.stakeOn f = some k) (howns : k.owns = true)
    (hs : (s.frames f).state ≠ .free) (hun : s.table (s.frames f).pageId ≠ some f)
    (hpin : (s.frames f).pinCount = 1) (ha' : a'.stakeOn f = some .privately) :
    OnFrame (s.dispose f) (a' :: rest) f := by
  have hpins : a.pins f = true := by
    rw [Activity.pins_some ha]
    exact (h.holds a (.head _) _ ha).pins_of_ne_free hs
  obtain ⟨-, hfree, -, hcap⟩ := h.owner ((Activity.owns_some ha).trans howns)
  have hframe : (s.dispose f).frames f =
      { (s.frames f).resetEpochs with pageId := invalidPage, state := .free, pinCount := 0 } := Function.update_self ..
  refine .of_alone (h.alone_unpinned hs (by rw [hpin, hpins]; rfl)) hfree hcap ha' rfl ?_ ?_ ?_ ?_
  · intro hh
    rw [Housed, hframe] at hh
    cases hh.1
  · rw [hframe]
    rfl
  · intro q hq
    have hqp := (h.home q hq).1
    exact absurd (hqp ▸ hq) hun
  · rw [Holds, hframe]
    exact ⟨rfl, rfl⟩

/-- The load erases its mapping; whoever waits goes on waiting. -/
theorem OnFrame.erase (h : OnFrame s (a :: rest) f) {p : PageId} (ha : a.stakeOn f = some (.loader p))
    (ha' : a'.stakeOn f = some .abandoner) :
    OnFrame { s with table := Function.update s.table p none } (a' :: rest) f := by
  obtain ⟨hs, hpage, hmap⟩ : Holds s f (.loader p) := h.holds a (.head _) _ ha
  have howns := Activity.owns_some ha
  obtain ⟨hrest, hfree, -, hcap⟩ := h.owner howns
  have hpins := h.pins
  rw [countP_cons_toNat, Activity.pins_some ha] at hpins
  refine .of_owner hrest hfree hcap (Activity.owns_some ha') (not_housed hs (by decide)) ?_ (fun q hq => ?_)
    (fun b hb k hk => ?_) fun k hk => ?_
  · rw [Activity.pins_some ha']
    exact_mod_cast hpins
  · by_cases hqp : q = p
    · simp [hqp] at hq
    · have hq' : s.table q = some f := (Function.update_of_ne hqp _ _).symm.trans hq
      exact absurd ((h.home q hq').1.symm.trans hpage) hqp
  · obtain ⟨q, rfl⟩ := h.waiters howns hs b hb k hk
    have hw : Holds s f (.waiting q) := h.holds b (.tail _ hb) _ hk
    exact ⟨hw.1, .inl hs⟩
  · rw [ha'] at hk
    cases hk
    refine ⟨hs, ?_⟩
    show Function.update s.table p none (s.frames f).pageId ≠ some f
    rw [hpage, Function.update_self]
    nofun

/-- The load publishes its failure. -/
theorem OnFrame.fail (h : OnFrame s (a :: rest) f) (ha : a.stakeOn f = some .abandoner)
    (ha' : a'.stakeOn f = some .disposer) :
    OnFrame (s.setFrame f { s.frames f with state := .failed }) (a' :: rest) f := by
  obtain ⟨hs, hun⟩ : Holds s f .abandoner := h.holds a (.head _) _ ha
  have howns := Activity.owns_some ha
  obtain ⟨hrest, hfree, -, hcap⟩ := h.owner howns
  have hpins := h.pins
  rw [countP_cons_toNat, Activity.pins_some ha] at hpins
  have hframe : (s.setFrame f { s.frames f with state := .failed }).frames f = { s.frames f with state := .failed } :=
    Function.update_self ..
  refine .of_owner hrest hfree hcap (Activity.owns_some ha') (fun hh => ?_) ?_ (fun q hq => ?_)
    (fun b hb k hk => ?_) fun k hk => ?_
  · rw [Housed, hframe] at hh
    cases hh.1
  · rw [hframe, Activity.pins_some ha']
    exact_mod_cast hpins
  · exact absurd ((h.home q hq).1 ▸ hq) hun
  · obtain ⟨q, rfl⟩ := h.waiters howns hs b hb k hk
    have hw : Holds s f (.waiting q) := h.holds b (.tail _ hb) _ hk
    rw [Holds, hframe]
    exact ⟨hw.1, .inr (.inl rfl)⟩
  · rw [ha'] at hk
    cases hk
    rw [Holds, hframe]

/-- An owned frame becomes Resident and mapped; the owner's pin stays. -/
theorem OnFrame.house (h : OnFrame s (a :: rest) f) {k k' : Stake} (ha : a.stakeOn f = some k) (howns : k.owns = true)
    (hpin : k.pins = true) (ha' : a'.stakeOn f = some k') (howns' : k'.owns = false) (hpin' : k'.pins = true)
    (hfree : s'.freeList = s.freeList) (hcap : s'.capacity = s.capacity)
    (hstate : (s'.frames f).state = .resident) (hpage : (s'.frames f).pageId = (s.frames f).pageId)
    (hpins : (s'.frames f).pinCount = (s.frames f).pinCount)
    (htable : ∀ q, s'.table q = some f ↔ q = (s.frames f).pageId)
    (hrest : ∀ b ∈ rest, ∀ k, b.stakeOn f = some k → Holds s' f k) (hholds : Holds s' f k') :
    OnFrame s' (a' :: rest) f := by
  obtain ⟨hnone, hnot, -, hlt⟩ := h.owner ((Activity.owns_some ha).trans howns)
  have hzero : rest.countP (·.owns f) = 0 := List.countP_eq_zero.mpr fun b hb => by simp [hnone b hb]
  have hh : Housed s' f := ⟨hstate, (htable _).mpr hpage⟩
  have hp := h.pins
  rw [countP_cons_toNat, Activity.pins_some ha, hpin] at hp
  refine ⟨?_, ?_, fun q hq => ⟨hpage.trans ((htable q).mp hq).symm, .inl hstate⟩, fun hmem => ?_,
    fun _ => hcap ▸ hlt, fun b hb k hk => ?_⟩
  · rw [countP_cons_toNat, hzero, Activity.owns_some ha', howns', hfree, List.count_eq_zero.mpr hnot, if_pos hh,
      if_pos (hcap ▸ hlt)]
    rfl
  · rw [countP_cons_toNat, Activity.pins_some ha', hpin', hpins]
    exact hp
  · exact absurd (hfree ▸ hmem) hnot
  · cases hb with
    | head =>
      rw [ha'] at hk
      exact Option.some.inj hk ▸ hholds
    | tail _ hb => exact hrest b hb k hk

end Changes

/-! A step of one activity. -/

section Steps
variable {cfg : PoolConfig} {acts : List Activity} {s s' : Shared} {rest : List Activity} {a a' : Activity} {f : Nat}

/-- A step that changes frame `f` only, by an activity that has to do with `f` only. -/
structure Local (f : Nat) (s : Shared) (a : Activity) (s' : Shared) (a' : Activity) : Prop where
  frames : ∀ g, g ≠ f → s'.frames g = s.frames g
  table : ∀ g, g ≠ f → ∀ p, s'.table p = some g ↔ s.table p = some g
  freeList : ∀ g, g ≠ f → s'.freeList.count g = s.freeList.count g
  capacity : s'.capacity = s.capacity
  left : ∀ g, g ≠ f → a.stakeOn g = none
  entered : ∀ g, g ≠ f → a'.stakeOn g = none

theorem Inv.at (h : Inv s (a :: rest)) (hl : Local f s a s' a') (hf : OnFrame s' (a' :: rest) f) :
    Inv s' (a' :: rest) := by
  intro g
  by_cases hg : g = f
  · exact hg ▸ hf
  have hframe := hl.frames g hg
  refine (h g).relabel ⟨by rw [hframe], by rw [hframe], hl.table g hg, hl.freeList g hg, hl.capacity⟩ ?_ ?_ ?_
  · rw [Activity.owns_none (hl.left g hg), Activity.owns_none (hl.entered g hg)]
  · rw [Activity.pins_none (hl.left g hg), Activity.pins_none (hl.entered g hg), hframe]
  · intro k hk
    rw [hl.entered g hg] at hk
    cases hk

/-- At most one frame, `f`, in an activity's stake. -/
def Activity.at (f : Nat) (a : Activity) : Prop := ∀ g, g ≠ f → a.stakeOn g = none

theorem at_none (h : a.stake = none) : a.at f := fun _ _ => Activity.stakeOn_none h
theorem at_some {k : Stake} (h : a.stake = some (f, k)) : a.at f := fun _ hg => Activity.stakeOn_other h hg

theorem local_setFrame {fr : Frame} (ha : a.at f) (ha' : a'.at f) : Local f s a (s.setFrame f fr) a' :=
  ⟨fun _ hg => Function.update_of_ne hg _ _, fun _ _ _ => Iff.rfl, fun _ _ => rfl, rfl, ha, ha'⟩

/-- The table changes for a page that leads to no other frame. -/
theorem local_table {p : PageId} {fr : Frame} {target : Option Nat} (hframes : s'.frames = Function.update s.frames f fr)
    (htable : s'.table = Function.update s.table p target) (hfree : s'.freeList = s.freeList)
    (hcap : s'.capacity = s.capacity) (hwas : ∀ g, g ≠ f → s.table p ≠ some g) (hto : ∀ g, g ≠ f → target ≠ some g)
    (ha : a.at f) (ha' : a'.at f) : Local f s a s' a' := by
  refine ⟨fun g hg => ?_, fun g hg q => ?_, fun g _ => by rw [hfree], hcap, ha, ha'⟩
  · rw [hframes, Function.update_of_ne hg]
  · rw [htable]
    by_cases hqp : q = p
    · rw [hqp, Function.update_self]
      exact ⟨fun h => absurd h (hto g hg), fun h => absurd h (hwas g hg)⟩
    · rw [Function.update_of_ne hqp]

/-- Nothing changes but bytes, epochs, the replacer and the disk. -/
structure Quiet (s s' : Shared) : Prop where
  state : ∀ f, (s'.frames f).state = (s.frames f).state
  pageId : ∀ f, (s'.frames f).pageId = (s.frames f).pageId
  pinCount : ∀ f, (s'.frames f).pinCount = (s.frames f).pinCount
  table : s'.table = s.table
  freeList : s'.freeList = s.freeList
  capacity : s'.capacity = s.capacity

theorem Quiet.of (hframes : s'.frames = s.frames) (htable : s'.table = s.table) (hfree : s'.freeList = s.freeList)
    (hcap : s'.capacity = s.capacity) : Quiet s s' :=
  ⟨fun _ => by rw [hframes], fun _ => by rw [hframes], fun _ => by rw [hframes], htable, hfree, hcap⟩

theorem Quiet.refl (s : Shared) : Quiet s s := .of rfl rfl rfl rfl

theorem Quiet.same (h : Quiet s s') (f : Nat) : Same s s' f :=
  ⟨h.state f, h.pageId f, by simp [h.table], by rw [h.freeList], h.capacity⟩

theorem Quiet.setFrame {fr : Frame} (h : Quiet s s') (hstate : fr.state = (s.frames f).state)
    (hpage : fr.pageId = (s.frames f).pageId) (hpin : fr.pinCount = (s.frames f).pinCount) :
    Quiet s (s'.setFrame f fr) := by
  refine ⟨fun g => ?_, fun g => ?_, fun g => ?_, h.table, h.freeList, h.capacity⟩
  all_goals
    by_cases hg : g = f
    · subst hg
      simp [Shared.setFrame, *]
    · simp [Shared.setFrame, hg, h.state, h.pageId, h.pinCount]

theorem Inv.quiet (h : Inv s (a :: rest)) (hq : Quiet s s') (hstake : a'.stake = a.stake) : Inv s' (a' :: rest) := by
  intro g
  have hon : a'.stakeOn g = a.stakeOn g := by rw [Activity.stakeOn, Activity.stakeOn, hstake]
  have hsame := hq.same g
  refine (h g).relabel hsame ?_ ?_ fun k hk => hsame.holds ((h g).holds a (.head _) k (hon ▸ hk))
  · rw [Activity.owns, Activity.owns, hon]
  · rw [Activity.pins, Activity.pins, hon, hq.pinCount]

/-- One pin's stake for another. -/
theorem Inv.restake {k k' : Stake} (h : Inv s (a :: rest)) (hq : Quiet s s') (ha : a.stake = some (f, k))
    (ha' : a'.stake = some (f, k')) (hpins : k'.pins = k.pins) (howns : k'.owns = k.owns)
    (hholds : Holds s f k → Holds s f k') : Inv s' (a' :: rest) := by
  intro g
  have hsame := hq.same g
  by_cases hg : g = f
  · subst hg
    have hon := Activity.stakeOn_same ha
    have hon' := Activity.stakeOn_same ha'
    refine (h g).relabel hsame ?_ ?_ fun k'' hk => ?_
    · rw [Activity.owns_some hon, Activity.owns_some hon', howns]
    · rw [Activity.pins_some hon, Activity.pins_some hon', hpins, hq.pinCount]
    · rw [hon'] at hk
      cases hk
      exact hsame.holds (hholds ((h g).holds a (.head _) k hon))
  · have hon := Activity.stakeOn_other ha hg
    have hon' := Activity.stakeOn_other ha' hg
    refine (h g).relabel hsame ?_ ?_ fun k'' hk => ?_
    · rw [Activity.owns_none hon, Activity.owns_none hon']
    · rw [Activity.pins_none hon, Activity.pins_none hon', hq.pinCount]
    · rw [hon'] at hk
      cases hk

theorem pin_same (s : Shared) (f g : Nat) : Same s (s.pin f) g := by
  refine ⟨?_, ?_, fun _ => Iff.rfl, rfl, rfl⟩
  all_goals
    by_cases hg : g = f
    · subst hg
      simp [Shared.pin, Shared.setFrame]
    · simp [Shared.pin, Shared.setFrame, hg]

theorem Inv.pin {k : Stake} (h : Inv s (a :: rest)) (ha : a.stake = none) (ha' : a'.stake = some (f, k))
    (hpins : k.pins = true) (howns : k.owns = false) (hholds : Holds s f k) : Inv (s.pin f) (a' :: rest) := by
  have hon := Activity.stakeOn_none (f := f) ha
  have hon' := Activity.stakeOn_same ha'
  refine h.at (local_setFrame (at_none ha) (at_some ha')) ((h f).relabel (pin_same s f f) ?_ ?_ fun k' hk => ?_)
  · rw [Activity.owns_none hon, Activity.owns_some hon', howns]
  · rw [Activity.pins_none hon, Activity.pins_some hon', hpins]
    simp [Shared.pin, Shared.setFrame]
  · rw [hon'] at hk
    cases hk
    exact (pin_same s f f).holds hholds

theorem After.activity_stake (next : After) : next.activity.stake = none := by
  cases next <;> rfl

theorem unpinPage_table (s : Shared) (f : Nat) : (s.unpinPage f).table = s.table := by
  unfold Shared.unpinPage
  dsimp only
  split <;> rfl

theorem unpinPage_freeList (s : Shared) (f : Nat) : (s.unpinPage f).freeList = s.freeList := by
  unfold Shared.unpinPage
  dsimp only
  split <;> rfl

theorem unpinPage_capacity (s : Shared) (f : Nat) : (s.unpinPage f).capacity = s.capacity := by
  unfold Shared.unpinPage
  dsimp only
  split <;> rfl

theorem Inv.unpin {next : After} (h : Inv s (.unpin f next :: rest)) : Inv (s.unpinPage f) (next.activity :: rest) := by
  have ha : (Activity.unpin f next).stakeOn f = some .leaving := Activity.stakeOn_same rfl
  have ha' := Activity.stakeOn_none (f := f) next.activity_stake
  have hframe : (s.unpinPage f).frames f = { s.frames f with pinCount := (s.frames f).pinCount - 1 } := by
    rw [unpinPage_frames, Function.update_self]
  refine h.at ⟨fun g hg => ?_, fun g _ p => ?_, fun g _ => ?_, unpinPage_capacity s f, at_some rfl,
    at_none next.activity_stake⟩ ((h f).relabel ⟨?_, ?_, fun p => ?_, ?_, unpinPage_capacity s f⟩ ?_ ?_ fun k hk => ?_)
  · rw [unpinPage_frames, Function.update_of_ne hg]
  · rw [unpinPage_table]
  · rw [unpinPage_freeList]
  · rw [hframe]
  · rw [hframe]
  · rw [unpinPage_table]
  · rw [unpinPage_freeList]
  · rw [Activity.owns_some ha, Activity.owns_none ha']
    rfl
  · rw [Activity.pins_some ha, Activity.pins_none ha', hframe]
    show (s.frames f).pinCount - 1 + 1 = (s.frames f).pinCount + 0
    omega
  · rw [ha'] at hk
    cases hk

theorem Inv.push (h : Inv s (a :: rest)) (ha : a.stake = some (f, .privately)) (ha' : a'.stake = none) :
    Inv (s.push f) (a' :: rest) := by
  refine h.at ⟨fun _ _ => rfl, fun _ _ _ => Iff.rfl, fun g hg => ?_, rfl, at_some ha, at_none ha'⟩
    ((h f).push (Activity.stakeOn_same ha) (Activity.stakeOn_none ha'))
  exact List.count_cons_of_ne (Ne.symm hg)

theorem Inv.vacate {p : PageId} {k : Option Stake} (h : Inv s (a :: rest)) (hs : (s.frames f).state = .resident)
    (ha : a.stake = k.map (f, ·)) (hpin : (s.frames f).pinCount = (k.any Stake.pins).toNat) (hmap : s.table p = some f)
    (ha' : a'.stake = some (f, .privately)) {fr : Frame} (hframes : s'.frames = Function.update s.frames f fr)
    (htable : s'.table = Function.update s.table p none) (hfree : s'.freeList = s.freeList)
    (hcap : s'.capacity = s.capacity) (hstate : fr.state = .free) (hpage : fr.pageId = invalidPage)
    (hpin' : fr.pinCount = 0) : Inv s' (a' :: rest) := by
  have hframe : s'.frames f = fr := by rw [hframes, Function.update_self]
  have hat : a.at f := by
    cases k with
    | none => exact at_none ha
    | some k => exact at_some ha
  have hpins : a.pins f = k.any Stake.pins := by
    cases k with
    | none => exact Activity.pins_none (Activity.stakeOn_none ha)
    | some k => exact Activity.pins_some (Activity.stakeOn_same ha)
  refine h.at (local_table hframes htable hfree hcap (fun g hg hp => ?_) (fun _ _ => nofun) hat (at_some ha'))
    ((h f).vacate hs (hpins ▸ hpin) hmap (Activity.stakeOn_same ha') hfree hcap htable ?_ ?_ ?_)
  · rw [hmap] at hp
    exact hg (Option.some.inj hp).symm
  · rw [hframe, hstate]
  · rw [hframe, hpage]
  · rw [hframe, hpin']

/-- A hit's frame is mapped, so it is not Failed. -/
theorem Inv.settled {p : PageId} {latch : Latch} {fromZero : Bool} (h : Inv s (a :: rest)) (hmap : s.table p = some f)
    (hload : (s.frames f).state ≠ .loading) (ha' : Settled (s.frames f) p latch f fromZero a') :
    Holds s f (.pinned p) ∧ a' = .recordAccess p latch f fromZero := by
  obtain ⟨hpage, hs⟩ := (h f).home p hmap
  have hres : (s.frames f).state = .resident := hs.resolve_right hload
  refine ⟨⟨hres, hpage, hmap⟩, ?_⟩
  cases ha' with
  | inl hf =>
    rw [hres] at hf
    cases hf.1
  | inr ha => exact ha.2

theorem afterFlush_stake (ok : Bool) (f : Nat) (p : PageId) (next : After) :
    (afterFlush ok f p next).stake = some (f, next.stake p) ∨ (afterFlush ok f p next).stake = some (f, .leaving) := by
  cases next <;> cases ok <;> simp [afterFlush, Activity.stake, After.stake]

/-- A flush goes on with its stake, or with less. -/
theorem Inv.flushed {ok : Bool} {p : PageId} {next : After} (h : Inv s (a :: rest)) (hq : Quiet s s')
    (ha : a.stake = some (f, next.stake p)) : Inv s' (afterFlush ok f p next :: rest) := by
  cases afterFlush_stake ok f p next with
  | inl hsame => exact h.quiet hq (hsame.trans ha.symm)
  | inr hleave =>
    refine h.restake hq ha hleave ?_ ?_ fun hk => ?_
    · cases next <;> rfl
    · cases next <;> rfl
    · cases next <;> exact .inl hk.1

theorem Inv.moves (h : Inv s (a :: rest)) (hm : Moves cfg acts s a s' a') : Inv s' (a' :: rest) := by
  cases hm with
  | idle _ ha ha' => exact h.quiet (.refl s) ((Activity.stake_of_idle ha').trans (Activity.stake_of_idle ha).symm)
  | @hitLoading p latch f fromZero hmap hload =>
    exact h.pin rfl rfl rfl rfl ⟨((h f).home p hmap).1, .inl hload⟩
  | @hit p latch f fromZero _ hmap hload ha' =>
    obtain ⟨hholds, rfl⟩ := h.settled hmap hload ha'
    exact h.pin rfl rfl rfl rfl hholds
  | @woken p latch f fromZero _ hload ha' =>
    have hw : Holds s f (.waiting p) := (h f).holds _ (.head _) _ (Activity.stakeOn_same rfl)
    cases ha' with
    | inl hf =>
      obtain ⟨hfail, rfl⟩ := hf
      exact h.restake (.refl s) rfl rfl rfl rfl fun _ => .inr hfail
    | inr hr =>
      obtain ⟨hfail, rfl⟩ := hr
      refine h.restake (.refl s) rfl rfl rfl rfl fun _ => ?_
      have hres := (hw.2.resolve_left hload).resolve_left hfail
      exact ⟨hres.1, hw.1, hres.2⟩
  | recorded ha' =>
    obtain rfl | rfl := ha'
    · exact h.quiet (.of rfl rfl rfl rfl) rfl
    · exact h.quiet (.of rfl rfl rfl rfl) rfl
  | unlisted => exact h.quiet (.of rfl rfl rfl rfl) rfl
  | latched _ => exact h.quiet (.refl s) rfl
  | dropped hfr =>
    refine h.restake ((Quiet.refl s).setFrame ?_ ?_ ?_) rfl rfl rfl rfl fun hk => .inl hk.1
    all_goals obtain rfl | rfl := hfr <;> rfl
  | unpinned => exact h.unpin
  | @popped goal f free hfree =>
    refine h.at ⟨fun _ _ => rfl, fun _ _ _ => Iff.rfl, fun g hg => ?_, rfl, at_none rfl, at_some rfl⟩
      ((h f).pop hfree (Activity.stakeOn_none rfl) (Activity.stakeOn_same rfl))
    rw [hfree, List.count_cons_of_ne (Ne.symm hg)]
  | evicted hr => exact h.quiet (.of rfl rfl rfl rfl) rfl
  | peeked _ => exact h.quiet (.refl s) rfl
  | passed _ => exact h.quiet (.refl s) rfl
  | declined _ => exact h.quiet (.refl s) rfl
  | @reclaimed goal v p hfr =>
    have hmap := ((h v).housed_of_unpinned (by rw [hfr.resident]; decide) hfr.pinCount).2
    rw [hfr.pageId] at hmap
    exact h.vacate (k := none) hfr.resident rfl hfr.pinCount hmap rfl rfl rfl rfl rfl rfl rfl hfr.pinCount
  | @pinned goal v p hfr =>
    have hmap := ((h v).housed_of_unpinned (by rw [hfr.resident]; decide) hfr.pinCount).2
    rw [hfr.pageId] at hmap
    exact h.pin rfl rfl rfl rfl ⟨hfr.resident, hfr.pageId, hmap⟩
  | @retaken goal v p hfr =>
    have hk : Holds s v (.pinned p) := (h v).holds _ (.head _) _ (Activity.stakeOn_same rfl)
    have hframes : ((s.vacate v p).setFrame v { (s.vacate v p).frames v with pinCount := 0 }).frames =
        Function.update s.frames v
          { (s.frames v).resetEpochs with pageId := invalidPage, state := .free, pinCount := 0 } := by
      simp [Shared.vacate, Shared.setFrame]
    exact h.vacate (k := some (.pinned p)) hfr.resident rfl hfr.pinCount hk.2.2 rfl hframes rfl rfl rfl rfl rfl rfl
  | lost => exact h.restake (.refl s) rfl rfl rfl rfl fun hk => .inl hk.1
  | @flushPinned p f hmap hres => exact h.pin rfl rfl rfl rfl ⟨hres, ((h f).home p hmap).1⟩
  | sweepPinned hres => exact h.pin rfl rfl rfl rfl ⟨hres, rfl⟩
  | dirty _ => exact h.quiet (.refl s) rfl
  | clean => exact h.flushed (.refl s) rfl
  | written _ => exact h.quiet (.of rfl rfl rfl rfl) rfl
  | unwritten _ => exact h.flushed (.of rfl rfl rfl rfl) rfl
  | @marked f p observed next =>
    refine h.flushed ((Quiet.refl s).setFrame (markFlushed_state _ _) (markFlushed_pageId _ _) ?_) rfl
    unfold Frame.markFlushed
    split <;> rfl
  | handedBack => exact h.push rfl rfl
  | @mapped p latch f _ hmap =>
    refine h.at (local_table rfl rfl rfl rfl (fun g _ hp => ?_) (fun g hg hp => ?_) (at_some rfl) (at_some rfl))
      ((h f).load (Activity.stakeOn_same rfl) (Activity.stakeOn_same rfl) rfl rfl rfl ?_ ?_ ?_)
    · rw [hmap] at hp
      cases hp
    · exact hg (Option.some.inj hp).symm
    all_goals simp [Shared.setFrame]
  | read _ _ => exact h.quiet (Quiet.setFrame (.of rfl rfl rfl rfl) rfl rfl rfl) rfl
  | misread _ => exact h.quiet (Quiet.setFrame (.of rfl rfl rfl rfl) rfl rfl rfl) rfl
  | unread _ => exact h.quiet (.of rfl rfl rfl rfl) rfl
  | @published p latch f =>
    obtain ⟨hs, hpage, hmap⟩ : Holds s f (.loader p) := (h f).holds _ (.head _) _ (Activity.stakeOn_same rfl)
    have ha : (Activity.publish p latch f).stakeOn f = some (.loader p) := Activity.stakeOn_same rfl
    have hframe : (s.setFrame f { s.frames f with state := .resident }).frames f =
        { s.frames f with state := .resident } := Function.update_self ..
    refine h.at (local_setFrame (at_some rfl) (at_some rfl))
      ((h f).house ha rfl rfl (Activity.stakeOn_same rfl) rfl rfl rfl rfl ?_ ?_ ?_ (fun q => ?_) (fun b hb k hk => ?_) ?_)
    · rw [hframe]
    · rw [hframe]
    · rw [hframe]
    · exact ⟨fun hq => ((h f).home q hq).1.symm, fun hq => by rw [hq, hpage]; exact hmap⟩
    · obtain ⟨q, rfl⟩ := (h f).waiters (Activity.owns_some ha) hs b hb k hk
      have hw : Holds s f (.waiting q) := (h f).holds b (.tail _ hb) _ hk
      rw [Holds, hframe]
      exact ⟨hw.1, .inr (.inr ⟨rfl, by rw [← hw.1, hpage]; exact hmap⟩)⟩
    · rw [Holds, hframe]
      exact ⟨rfl, hpage, hmap⟩
  | @erased p f =>
    obtain ⟨-, -, hmap⟩ : Holds s f (.loader p) := (h f).holds _ (.head _) _ (Activity.stakeOn_same rfl)
    refine h.at (local_table (Function.update_eq_self f s.frames).symm rfl rfl rfl (fun g hg hp => ?_)
      (fun _ _ => (fun h => by cases h)) (at_some rfl) (at_some rfl)) ((h f).erase (Activity.stakeOn_same rfl) (Activity.stakeOn_same rfl))
    rw [hmap] at hp
    exact hg (Option.some.inj hp).symm
  | @failed p f =>
    exact h.at (local_setFrame (at_some rfl) (at_some rfl))
      ((h f).fail (Activity.stakeOn_same rfl) (Activity.stakeOn_same rfl))
  | @disposed _ p f ha hpin =>
    obtain rfl | rfl := ha
    · have hk : Holds s f .abandoner := (h f).holds _ (.head _) _ (Activity.stakeOn_same rfl)
      exact h.at (local_setFrame (at_some rfl) (at_some rfl))
        ((h f).dispose (Activity.stakeOn_same rfl) rfl (by rw [hk.1]; decide) hk.2 hpin (Activity.stakeOn_same rfl))
    · have hk : Holds s f .disposer := (h f).holds _ (.head _) _ (Activity.stakeOn_same rfl)
      have hs : (s.frames f).state = .failed := hk
      refine h.at (local_setFrame (at_some rfl) (at_some rfl))
        ((h f).dispose (Activity.stakeOn_same rfl) rfl (by rw [hs]; decide) (fun hp => ?_) hpin (Activity.stakeOn_same rfl))
      have := ((h f).home _ hp).2
      rw [hs] at this
      exact this.elim (fun h => by cases h) (fun h => by cases h)
  | pushed ha =>
    obtain rfl | rfl := ha
    · exact h.push rfl rfl
    · exact h.push rfl rfl
  | allocated _ => exact h.quiet (.of rfl rfl rfl rfl) rfl
  | unallocated _ => exact h.quiet (.of rfl rfl rfl rfl) rfl
  | @stamped f p =>
    refine h.at (local_setFrame (at_some rfl) (at_some rfl))
      ((h f).stamp (Activity.stakeOn_same rfl) (Activity.stakeOn_same rfl) rfl rfl rfl ?_ ?_ ?_)
    all_goals simp [Shared.setFrame]
  | filled => exact h.quiet ((Quiet.refl s).setFrame rfl rfl rfl) rfl
  | @inserted f p _ hmap =>
    obtain ⟨hs, hpage⟩ : Holds s f (.creator p) := (h f).holds _ (.head _) _ (Activity.stakeOn_same rfl)
    have ha : (Activity.insert f p).stakeOn f = some (.creator p) := Activity.stakeOn_same rfl
    refine h.at (local_table (Function.update_eq_self f s.frames).symm rfl rfl rfl (fun g _ hp => ?_)
      (fun g hg hp => hg (Option.some.inj hp).symm) (at_some rfl) (at_some rfl))
      ((h f).house ha rfl rfl (Activity.stakeOn_same rfl) rfl rfl rfl rfl hs rfl rfl (fun q => ?_) (fun b hb k hk => ?_) ?_)
    · rw [hmap] at hp
      cases hp
    · rw [hpage]
      show Function.update s.table p (some f) q = some f ↔ q = p
      by_cases hqp : q = p
      · simp [hqp]
      · rw [Function.update_of_ne hqp]
        exact ⟨fun hq => absurd ((h f).home q hq).1 fun he => hqp (he.symm.trans hpage), fun he => absurd he hqp⟩
    · -- Every stake that asks for a mapping asks for this one.
      have hk' := (h f).holds b (.tail _ hb) k hk
      cases k <;> simp_all [Holds]
    · exact ⟨hs, hpage, Function.update_self ..⟩
  | aborted _ => exact h.quiet (.of rfl rfl rfl rfl) rfl
  | deleteUncached _ => exact h.quiet (.refl s) rfl
  | @deleteVacated p f hmap hpin =>
    have hs : (s.frames f).state ≠ .free := fun hs => (h f).unmapped_of_free hs p hmap
    exact h.vacate (k := none) ((h f).housed_of_unpinned hs hpin).1 rfl hpin hmap rfl rfl rfl rfl rfl rfl rfl hpin
  | deleteUnlisted => exact h.quiet (.of rfl rfl rfl rfl) rfl
  | @deallocated p f d _ =>
    cases f <;> exact h.quiet (.of rfl rfl rfl rfl) rfl
  | @notDeallocated p f d _ _ =>
    cases f <;> exact h.quiet (.of rfl rfl rfl rfl) rfl

end Steps
end KernSql.Concurrent
