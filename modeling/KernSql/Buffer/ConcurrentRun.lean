import KernSql.Buffer.ConcurrentInv

/- The concurrent pool over whole runs.

   Whatever the threads do, a frame is in one place and its pins are counted
   (`frames_have_one_place`), and once they have all stopped no frame is lost
   (`no_frame_is_lost`). -/
namespace KernSql.Concurrent
open DiskManager Machine

/-! What a step of the whole system is. -/

/-- A step, with the activities in an order that has the one that moved in front. -/
inductive Taken (cfg : PoolConfig) (s s' : System) : Choice → Prop where
  | call (c : Call) (hshared : s'.shared = s.shared) (hacts : s'.acts.Perm (c.start :: s.acts)) : Taken cfg s s' (.call c)
  | run {i : Nat} {a a' : Activity} {rest : List Activity} (hi : s.acts[i]? = some a) (hi' : s'.acts[i]? = some a')
      (hacts : s.acts.Perm (a :: rest)) (hacts' : s'.acts.Perm (a' :: rest))
      (hm : Moves cfg s.acts s.shared a s'.shared a') : Taken cfg s s' (.run i)
  | edit {i : Nat} {e : Edit} {p : PageId} {f : Nat} (hi : s.acts[i]? = some (.guard p .write f))
      (hacts : s'.acts = s.acts) (hshared : s'.shared =
        s.shared.setFrame f { s.shared.frames f with data := e.apply (s.shared.frames f).data }) :
      Taken cfg s s' (.edit i e)

section System
variable {cfg : PoolConfig} {s s' : System} {c : Choice}

theorem step_taken (h : step cfg s c = some s') : s.shared.aborted = false ∧ Taken cfg s s' c := by
  cases c with
  | call c =>
    simp only [step] at h
    split at h
    · cases h
    · next hab =>
      cases h
      exact ⟨by simpa using hab, .call c rfl (List.perm_append_singleton _ _)⟩
  | run i =>
    simp only [step] at h
    split at h
    · cases h
    next hab =>
    split at h
    · cases h
    · next a hi =>
      obtain ⟨⟨sh, a'⟩, hadv, hs⟩ := Option.map_eq_some_iff.mp h
      cases hs
      obtain ⟨hlt, hget⟩ := List.getElem?_eq_some_iff.mp hi
      have hperm : (a :: s.acts.eraseIdx i).Perm s.acts := hget ▸ List.getElem_cons_eraseIdx_perm hlt
      exact ⟨by simpa using hab, .run hi (by simp [hlt]) hperm.symm (List.set_perm_cons_eraseIdx hlt _)
        (advance_moves hadv)⟩
  | edit i e =>
    simp only [step] at h
    split at h
    · cases h
    next hab =>
    split at h
    · next hi =>
      cases h
      exact ⟨by simpa using hab, .edit hi rfl rfl⟩
    · cases h

end System

/-! The frames. -/

section Frames
variable {cfg : PoolConfig} {s s' : System} {acts : List Activity} {sh : Shared}

theorem Inv.perm {acts' : List Activity} (h : Inv sh acts) (hp : acts.Perm acts') : Inv sh acts' :=
  fun f => (h f).perm hp

/-- A call that has not started yet has no stake. -/
theorem Inv.start {a : Activity} (h : Inv sh acts) (ha : a.stake = none) : Inv sh (a :: acts) := by
  intro f
  have hon := Activity.stakeOn_none (f := f) ha
  refine ⟨?_, ?_, (h f).home, (h f).stock, (h f).inside, fun b hb k hk => ?_⟩
  · rw [countP_cons_toNat, Activity.owns_none hon]
    exact (h f).placed
  · rw [countP_cons_toNat, Activity.pins_none hon]
    exact (h f).pins
  · cases hb with
    | head =>
      rw [hon] at hk
      cases hk
    | tail _ hb => exact (h f).holds b hb k hk

theorem Call.start_idle (c : Call) : c.start.idle = true := by
  cases c <;> rfl

theorem Inv.taken {c : Choice} (h : Inv s.shared s.acts) (ht : Taken cfg s s' c) : Inv s'.shared s'.acts := by
  cases ht with
  | call c hshared hacts =>
    rw [hshared]
    exact (h.start (Activity.stake_of_idle c.start_idle)).perm hacts.symm
  | run _ _ hacts hacts' hm => exact ((h.perm hacts).moves hm).perm hacts'.symm
  | @edit i e p f hi hacts hshared =>
    obtain ⟨hlt, hget⟩ := List.getElem?_eq_some_iff.mp hi
    have hperm := (List.getElem_cons_eraseIdx_perm hlt).symm
    have hq : Quiet s.shared s'.shared := hshared ▸ (Quiet.refl s.shared).setFrame rfl rfl rfl
    rw [hacts]
    exact ((h.perm hperm).quiet hq rfl).perm hperm.symm

theorem inv_new (disk : DiskManager) (capacity : Nat) (owned : List PageId) :
    Inv (System.new disk capacity owned).shared (System.new disk capacity owned).acts := by
  intro f
  refine ⟨?_, rfl, nofun, fun _ => ⟨rfl, rfl⟩, fun hs => absurd rfl hs, nofun⟩
  show (List.range capacity).reverse.count f + 0 + (if Housed _ f then 1 else 0) = if f < capacity then 1 else 0
  have hfree : ((System.new disk capacity owned).shared.frames f).state = .free := rfl
  rw [if_neg (not_housed hfree (by decide)), List.count_reverse, List.count_range]
  rfl

theorem inv_reaches {allowed : System → Choice → Prop} {disk : DiskManager} {capacity : Nat} {owned : List PageId}
    (h : Reaches (step cfg) allowed (System.new disk capacity owned) s) : Inv s.shared s.acts := by
  refine h.invariant (I := fun s => Inv s.shared s.acts) (inv_new disk capacity owned) fun hi _ hs => ?_
  exact hi.taken (step_taken hs).2

theorem pinOn_eq (a : Activity) : a.pinOn = (a.stake.filter (·.2.pins)).map (·.1) := by
  cases a with
  | isDirty f p next => cases next <;> rfl
  | writePage f p next => cases next <;> rfl
  | markFlushed f p observed next => cases next <;> rfl
  | deallocate p f => cases f <;> rfl
  | _ => rfl

/-- The frame is the activity's and not mapped. -/
def Stake.hidden : Stake → Bool
  | .abandoner | .disposer | .privately | .creator _ => true
  | _ => false

theorem privateFrame_eq (a : Activity) : a.privateFrame = (a.stake.filter (·.2.hidden)).map (·.1) := by
  cases a with
  | isDirty f p next => cases next <;> rfl
  | writePage f p next => cases next <;> rfl
  | markFlushed f p observed next => cases next <;> rfl
  | deallocate p f => cases f <;> rfl
  | _ => rfl

/-- A part of the stakes read off the program counter is that part of the stakes. -/
theorem filter_stake_iff {a : Activity} {f : Nat} {part : Stake → Bool} :
    (a.stake.filter (part ·.2)).map (·.1) = some f ↔ (a.stakeOn f).any part = true := by
  unfold Activity.stakeOn
  cases a.stake with
  | none => simp
  | some x =>
    obtain ⟨g, k⟩ := x
    by_cases hg : g = f <;> cases hk : part k <;> simp [hg, hk, Option.filter]

theorem pinOn_iff {a : Activity} {f : Nat} : a.pinOn = some f ↔ a.pins f = true := by
  rw [pinOn_eq]
  exact filter_stake_iff

theorem privateFrame_iff {a : Activity} {f : Nat} :
    a.privateFrame = some f ↔ ∃ k, a.stakeOn f = some k ∧ k.hidden = true := by
  rw [privateFrame_eq, filter_stake_iff, Option.any_eq_true]

theorem Stake.owns_of_hidden {k : Stake} (h : k.hidden = true) : k.owns = true := by
  cases k <;> first | rfl | cases h

theorem OnFrame.placed_le {f : Nat} (h : OnFrame sh acts f) : sh.freeList.count f + acts.countP (·.owns f) ≤ 1 := by
  have hp := h.placed
  split at hp <;> split at hp <;> omega

theorem stakeOn_disposer {a : Activity} {f : Nat} (h : a.stakeOn f = some .disposer) : a = .abandonWait f := by
  unfold Activity.stakeOn at h
  cases a with
  | isDirty g p next => cases next <;> simp [Activity.stake, After.stake] at h
  | writePage g p next => cases next <;> simp [Activity.stake, After.stake] at h
  | markFlushed g p observed next => cases next <;> simp [Activity.stake, After.stake] at h
  | deallocate p g => cases g <;> simp [Activity.stake] at h
  | abandonWait g => simp_all [Activity.stake]
  | _ => simp [Activity.stake] at h

/-- A Failed frame has one activity that will dispose of it. -/
theorem OnFrame.disposer {f : Nat} (h : OnFrame sh acts f) (hs : (sh.frames f).state = .failed) :
    acts.count (.abandonWait f) = 1 := by
  obtain ⟨b, hb, k, hk, howns⟩ := h.exists_owner (by rw [hs]; decide) (not_housed hs (by decide))
  have hholds := h.holds b hb k hk
  have hdis : k = .disposer := by
    cases k <;> simp_all [Holds, Stake.owns]
  subst hdis
  rw [stakeOn_disposer hk] at hb
  have hpos := List.count_pos_iff.mpr hb
  have hle : acts.count (.abandonWait f) ≤ acts.countP (·.owns f) := by
    refine List.countP_mono_left fun a _ ha => ?_
    rw [eq_of_beq ha]
    exact Activity.owns_some (k := .disposer) (Activity.stakeOn_same rfl)
  have := h.placed_le
  omega

/-- A mapped frame is no activity's own, but the loader's. -/
theorem OnFrame.not_hidden {a : Activity} {p : PageId} {f : Nat} (h : OnFrame sh acts f) (hmap : sh.table p = some f)
    (ha : a ∈ acts) : a.privateFrame ≠ some f := by
  intro hpriv
  obtain ⟨k, hk, hhid⟩ := privateFrame_iff.mp hpriv
  have hholds := h.holds a ha k hk
  obtain ⟨hpage, hs⟩ := h.home p hmap
  obtain ⟨rest, hperm⟩ : ∃ rest, acts.Perm (a :: rest) := ⟨_, List.perm_cons_erase ha⟩
  have howns : a.owns f = true := (Activity.owns_some hk).trans (Stake.owns_of_hidden hhid)
  have hnot := ((h.perm hperm).owner howns).2.2.1
  have hload : (sh.frames f).state = .loading :=
    hs.resolve_left fun hres => hnot ⟨hres, hpage ▸ hmap⟩
  cases k <;> simp_all [Holds, Stake.hidden]

/-- Nobody has two claims on a frame, and the pins are counted. -/
structure FramesSound (s : System) : Prop where
  injective : ∀ p q f, s.shared.table p = some f → s.shared.table q = some f → p = q
  mapped : ∀ p f, s.shared.table p = some f → (s.shared.frames f).pageId = p ∧
    ((s.shared.frames f).state = .loading ∨ (s.shared.frames f).state = .resident)
  mappedOnly : ∀ p f, s.shared.table p = some f → f ∉ s.shared.freeList ∧ ∀ a ∈ s.acts, a.privateFrame ≠ some f
  apart : ∀ f, s.shared.freeList.count f + s.acts.countP (·.privateFrame = some f) ≤ 1
  pins : ∀ f, (s.shared.frames f).pinCount = s.acts.countP (·.pinOn = some f) ∧ 0 ≤ (s.shared.frames f).pinCount
  guarded : ∀ p latch f, .guard p latch f ∈ s.acts →
    (s.shared.frames f).state = .resident ∧ (s.shared.frames f).pageId = p ∧ s.shared.table p = some f
  failed : ∀ f, (s.shared.frames f).state = .failed → (∀ p, s.shared.table p ≠ some f) ∧
    s.acts.count (.abandonWait f) = 1 ∧ ∀ p latch, .guard p latch f ∉ s.acts

theorem Inv.sound (h : Inv s.shared s.acts) : FramesSound s where
  injective p q f hp hq := ((h f).home p hp).1.symm.trans ((h f).home q hq).1
  mapped p f hp := ⟨((h f).home p hp).1, ((h f).home p hp).2.symm⟩
  mappedOnly p f hp := by
    refine ⟨fun hmem => ?_, fun a ha => (h f).not_hidden hp ha⟩
    have hs := ((h f).home p hp).2
    rw [((h f).stock hmem).1] at hs
    exact hs.elim nofun nofun
  apart f := by
    have hle : s.acts.countP (·.privateFrame = some f) ≤ s.acts.countP (·.owns f) := by
      refine List.countP_mono_left fun a _ ha => ?_
      obtain ⟨k, hk, hhid⟩ := privateFrame_iff.mp (of_decide_eq_true ha)
      exact (Activity.owns_some hk).trans (Stake.owns_of_hidden hhid)
    have hp := (h f).placed_le
    omega
  pins f := by
    have hcount : s.acts.countP (·.pinOn = some f) = s.acts.countP (·.pins f) :=
      List.countP_congr fun a _ => by simp [pinOn_iff]
    rw [hcount, (h f).pins]
    exact ⟨rfl, Int.natCast_nonneg _⟩
  guarded p latch f hg := (h f).holds _ hg (.pinned p) (Activity.stakeOn_same rfl)
  failed f hs := by
    refine ⟨fun p hp => ?_, (h f).disposer hs, fun p latch hg => ?_⟩
    · have := ((h f).home p hp).2
      rw [hs] at this
      exact this.elim nofun nofun
    · have hk : Holds s.shared f (.pinned p) := (h f).holds _ hg _ (Activity.stakeOn_same rfl)
      rw [hk.1] at hs
      cases hs

/-- A Failed frame stays so until its disposer finds no other pin. -/
theorem Inv.failed_moves {a a' : Activity} {rest : List Activity} {sh' : Shared} {f : Nat} (h : Inv sh (a :: rest))
    (hm : Moves cfg acts sh a sh' a') (hs : (sh.frames f).state = .failed) : (sh'.frames f).state = .failed ∨
      a = .abandonWait f ∧ a' = .push f ∧ (sh.frames f).pinCount = 1 ∧ (sh'.frames f).state = .free ∧
        (sh'.frames f).pinCount = 0 := by
  have hmem : .abandonWait f ∈ a :: rest := List.count_pos_iff.mp (by rw [(h f).disposer hs]; exact Nat.one_pos)
  cases hmem with
  | tail _ hrest => exact .inl ((h.moves hm f).holds _ (.tail _ hrest) .disposer (Activity.stakeOn_same rfl))
  | head =>
    cases hm with
    | idle _ ha => cases ha
    | disposed ha hpin =>
      obtain ha | ha := ha
      · cases ha
      · cases ha
        refine .inr ⟨rfl, rfl, hpin, ?_, ?_⟩
        all_goals simp [Shared.dispose, Shared.setFrame]
    | pushed ha => exact ha.elim (fun h => by cases h) (fun h => by cases h)

/-- What a step does to a Failed frame: nothing, or it is the one that disposes of it. -/
def Disposal (s s' : System) (c : Choice) (f : Nat) : Prop :=
  (s'.shared.frames f).state = .failed ∨
    ∃ i, c = .run i ∧ s.acts[i]? = some (.abandonWait f) ∧ s'.acts[i]? = some (.push f) ∧
      (s.shared.frames f).pinCount = 1 ∧ (s'.shared.frames f).state = .free ∧ (s'.shared.frames f).pinCount = 0

theorem Inv.disposal {c : Choice} {f : Nat} (h : Inv s.shared s.acts) (ht : Taken cfg s s' c)
    (hs : (s.shared.frames f).state = .failed) : Disposal s s' c f := by
  cases ht with
  | call c hshared _ => exact .inl (hshared ▸ hs)
  | run hi hi' hacts _ hm =>
    cases (h.perm hacts).failed_moves hm hs with
    | inl hfail => exact .inl hfail
    | inr hdis =>
      obtain ⟨rfl, rfl, hpin, hfree, hpin'⟩ := hdis
      exact .inr ⟨_, rfl, hi, hi', hpin, hfree, hpin'⟩
  | @edit i e p g hi _ hshared =>
    have hq : Quiet s.shared s'.shared := hshared ▸ (Quiet.refl s.shared).setFrame rfl rfl rfl
    exact .inl ((hq.state f).trans hs)

/-- A load that failed, at the loader or at a fetcher that waited for it. -/
def Activity.givingUp : Activity → Bool
  | .abandonErase _ _ | .abandonFail _ _ | .abandonWait _ | .push _ | .unpin _ .finish | .done => true
  | _ => false

theorem Moves.givingUp {a a' : Activity} {sh' : Shared} (hm : Moves cfg acts sh a sh' a') (ha : a.givingUp = true ∨
    ∃ p latch f fromZero, a = .hitWait p latch f fromZero ∧ (sh.frames f).state = .failed) : a'.givingUp = true := by
  cases hm with
  | @woken p latch f fromZero _ hload ha' =>
    obtain hf | ⟨_, _, _, _, heq, hf⟩ := ha
    · cases hf
    · cases heq
      obtain ⟨-, rfl⟩ | ⟨hne, -⟩ := ha'
      · rfl
      · exact absurd hf hne
  | @unpinned f next =>
    obtain hf | ⟨_, _, _, _, heq, -⟩ := ha
    · cases next <;> first | rfl | cases hf
    · cases heq
  | erased => rfl
  | failed => rfl
  | disposed => rfl
  | pushed => rfl
  | @idle a _ hne hidle _ _ =>
    obtain hf | ⟨_, _, _, _, rfl, -⟩ := ha
    · cases a <;> simp_all [Activity.idle, Activity.givingUp]
    · cases hidle
  | _ =>
    obtain hf | ⟨_, _, _, _, heq, -⟩ := ha
    · cases hf
    · cases heq

/-- Any number of threads, any interleaving, any page ids, over any disk. -/
theorem frames_have_one_place {disk : DiskManager} {capacity : Nat} {owned : List PageId}
    (h : Reaches (step cfg) anyStep (System.new disk capacity owned) s) :
    FramesSound s ∧
    (∀ c s' f, step cfg s c = some s' → (s.shared.frames f).state = .failed → Disposal s s' c f) ∧
    ∀ i s' a, step cfg s (.run i) = some s' → s.acts[i]? = some a → (a.givingUp = true ∨
      ∃ p latch f fromZero, a = .hitWait p latch f fromZero ∧ (s.shared.frames f).state = .failed) →
      ∃ a', s'.acts[i]? = some a' ∧ a'.givingUp = true := by
  have hinv := inv_reaches h
  refine ⟨hinv.sound, fun c s' f hs hf => hinv.disposal (step_taken hs).2 hf, fun i s' a hs hi ha => ?_⟩
  cases (step_taken hs).2 with
  | run hi₀ hi' _ _ hm =>
    rw [hi] at hi₀
    cases hi₀
    exact ⟨_, hi', hm.givingUp ha⟩

instance : ∀ (s : System) (c : Choice), Decidable (anyStep s c) := fun _ _ => isTrue trivial

/-- Is every step of a schedule admitted, from an empty pool over a new file, and is the last state a `good` one? -/
def endsIn (cfg : PoolConfig) (allowed : System → Choice → Prop) [∀ s c, Decidable (allowed s c)] (capacity : Nat)
    (schedule : List Choice) (good : System → Bool) : Bool :=
  match open_ cfg.disk missing with
  | some (.ok (), d) => (exec (checked (step cfg) allowed) schedule (System.new d capacity [])).any good
  | _ => false

theorem of_endsIn {allowed : System → Choice → Prop} [∀ s c, Decidable (allowed s c)] {capacity : Nat}
    {schedule : List Choice} {good : System → Bool} (h : endsIn cfg allowed capacity schedule good = true) :
    ∃ d s, open_ cfg.disk missing = some (.ok (), d) ∧
      Reaches (step cfg) allowed (System.new d capacity []) s ∧ good s = true := by
  unfold endsIn at h
  split at h
  · next d hd =>
    obtain ⟨s, hs, hgood⟩ := (Option.any_eq_true _ _).mp h
    exact ⟨d, s, hd, .of_exec_checked .start hs, hgood⟩
  · cases h

/-- A disk that never fails, under a release build. -/
def quietDisk : PoolConfig := ⟨false, 0, fun _ => none, ""⟩

/-- Two threads fetch a page past the end of the file; the load has failed and one of them still waits for it. -/
def failedLoad : List Choice :=
  [.call (.fetchPage .read 5), .call (.fetchPage .write 5), .run 0, .run 0, .run 0, .run 1, .run 0, .run 0, .run 0]

theorem frames_have_one_place_demo : ∃ d s, open_ quietDisk.disk missing = some (.ok (), d) ∧
    Reaches (step quietDisk) anyStep (System.new d 1 []) s ∧ (s.shared.frames 0).state = .failed ∧
    (s.shared.frames 0).pinCount = 2 ∧ s.acts.count (.abandonWait 0) = 1 ∧
    ∀ c s', step quietDisk s c = some s' → Disposal s s' c 0 := by
  have hrun : endsIn quietDisk anyStep 1 failedLoad
      (fun s => (s.shared.frames 0).state = .failed ∧ (s.shared.frames 0).pinCount = 2) = true := by decide +kernel
  obtain ⟨d, s, hopen, hreach, hgood⟩ := of_endsIn hrun
  obtain ⟨hfail, hpin⟩ := of_decide_eq_true hgood
  obtain ⟨hsound, hdis, -⟩ := frames_have_one_place hreach
  exact ⟨d, s, hopen, hreach, hfail, hpin, (hsound.failed 0 hfail).2.1, fun c s' hs => hdis c s' 0 hs hfail⟩

end Frames

/-! The candidates for eviction. -/

section Candidates
variable {cfg : PoolConfig} {acts rest : List Activity} {s s' : Shared} {a a' : Activity} {f : Nat}

/-- A reclaimer that has evicted frame `f`, with page `p` in it, and has not validated it yet. -/
def Activity.claims (p : PageId) (f : Nat) : Activity → Bool
  | .peek _ v => v = f
  | .validate _ v q => v = f ∧ q = p
  | _ => false

/-- An unpinned Resident frame is a candidate, or a reclaimer is about to look at it. -/
structure Candidates (s : Shared) (acts : List Activity) : Prop where
  counted : s.replacer.Counted
  capacity : s.replacer.capacity = s.capacity
  kept : ∀ f, (s.frames f).state = .resident → (s.frames f).pinCount = 0 →
    s.replacer.evictable f = true ∨ ∃ a ∈ acts, a.claims (s.frames f).pageId f = true

theorem ne_of_stakeOn {g : Nat} {k : Stake} (ha : a.stake = some (f, k)) (hg : a.stakeOn g = none) : g ≠ f := by
  rintro rfl
  rw [Activity.stakeOn_same ha] at hg
  cases hg

/-- A step changes only the frame its activity has a stake in afterwards, unless it unpins. -/
theorem Moves.frames_eq (hm : Moves cfg acts s a s' a') (hf : a'.stakeOn f = none)
    (hun : ∀ next, a ≠ .unpin f next) : s'.frames f = s.frames f := by
  have hset : ∀ {sh : Shared} {g : Nat} {fr : Frame} {k : Stake}, a'.stake = some (g, k) → sh.frames = s.frames →
      (sh.setFrame g fr).frames f = s.frames f := by
    intro sh g fr k hk hsh
    rw [← hsh]
    exact Function.update_of_ne (ne_of_stakeOn hk hf) _ _
  cases hm with
  | hitLoading => exact hset rfl rfl
  | hit hmap hload ha' =>
    obtain ⟨-, rfl⟩ | ⟨-, rfl⟩ := ha' <;> exact hset rfl rfl
  | dropped => exact hset rfl rfl
  | @unpinned g next =>
    have hg : f ≠ g := fun hg => hun next (hg ▸ rfl)
    rw [unpinPage_frames, Function.update_of_ne hg]
  | reclaimed => exact Function.update_of_ne (ne_of_stakeOn rfl hf) _ _
  | pinned => exact hset rfl rfl
  | @retaken goal v p _ =>
    have hne : f ≠ v := ne_of_stakeOn rfl hf
    exact (Function.update_of_ne hne _ _).trans (Function.update_of_ne hne _ _)
  | flushPinned => exact hset rfl rfl
  | sweepPinned => exact hset rfl rfl
  | @marked g p observed next =>
    cases afterFlush_stake true g p next with
    | inl h => exact hset h rfl
    | inr h => exact hset h rfl
  | mapped => exact hset rfl rfl
  | read => exact hset rfl rfl
  | misread => exact hset rfl rfl
  | published => exact hset rfl rfl
  | failed => exact hset rfl rfl
  | disposed => exact hset rfl rfl
  | stamped => exact hset rfl rfl
  | filled => exact hset rfl rfl
  | deleteVacated => exact Function.update_of_ne (ne_of_stakeOn rfl hf) _ _
  | _ => rfl

/-- A frame with a stake in it is pinned or not Resident. -/
theorem Inv.not_unpinned {acts : List Activity} {k : Stake} (h : Inv s acts) (ha : a ∈ acts) (hk : a.stakeOn f = some k)
    (hs : (s.frames f).state = .resident) : (s.frames f).pinCount ≠ 0 := by
  have := (h f).pinCount_pos ha hk (by rw [hs]; decide)
  omega

/-- It is enough to look at frames the activity has no stake in. -/
theorem Candidates.of (hinv : Inv s' (a' :: rest)) (hcounted : s'.replacer.Counted)
    (hcap : s'.replacer.capacity = s'.capacity)
    (hkept : ∀ f, a'.stakeOn f = none → (s'.frames f).state = .resident → (s'.frames f).pinCount = 0 →
      s'.replacer.evictable f = true ∨ ∃ b ∈ a' :: rest, b.claims (s'.frames f).pageId f = true) :
    Candidates s' (a' :: rest) := by
  refine ⟨hcounted, hcap, fun f hs hpin => ?_⟩
  cases hk : a'.stakeOn f with
  | none => exact hkept f hk hs hpin
  | some k => exact absurd hpin (hinv.not_unpinned (.head _) hk hs)

/-- The candidate set only loses frames that the activity has a stake in, and the activity claims what it claimed. -/
theorem Candidates.carry (h : Candidates s (a :: rest)) (hinv : Inv s' (a' :: rest)) (hm : Moves cfg acts s a s' a')
    (hcounted : s'.replacer.Counted) (hcap : s'.replacer.capacity = s'.capacity)
    (hev : ∀ f, a'.stakeOn f = none → s.replacer.evictable f = true → s'.replacer.evictable f = true)
    (hclaims : ∀ f, a'.stakeOn f = none → (s.frames f).state = .resident → (s.frames f).pinCount = 0 →
      a.claims (s.frames f).pageId f = true → a'.claims (s.frames f).pageId f = true)
    (hun : ∀ f next, a ≠ .unpin f next) : Candidates s' (a' :: rest) := by
  refine .of hinv hcounted hcap fun f hk hs hpin => ?_
  rw [hm.frames_eq hk (hun f)] at hs hpin ⊢
  cases h.kept f hs hpin with
  | inl he => exact .inl (hev f hk he)
  | inr hcl =>
    obtain ⟨b, hb, hcl⟩ := hcl
    cases hb with
    | head => exact .inr ⟨a', .head _, hclaims f hk hs hpin hcl⟩
    | tail _ hb => exact .inr ⟨b, .tail _ hb, hcl⟩

theorem setEvictable_other {r : Replacer} {g : Nat} {b : Bool} (hg : g ≠ f) :
    (r.setEvictable f b).evictable g = r.evictable g := by
  rw [Replacer.setEvictable_evictable, Function.update_of_ne hg]

theorem unpinPage_replacer (s : Shared) (f : Nat) : (s.unpinPage f).replacer =
    if (s.frames f).pinCount = 1 ∧ (s.frames f).state = .resident then s.replacer.setEvictable f true
    else s.replacer := by
  unfold Shared.unpinPage
  dsimp only
  split <;> rfl

theorem Candidates.setEvictable (h : Candidates s acts) (hf : f < s.capacity) (b : Bool) :
    (s.replacer.setEvictable f b).Counted ∧ (s.replacer.setEvictable f b).capacity = s.capacity :=
  ⟨h.counted.setEvictable (h.capacity ▸ hf) b, (Replacer.setEvictable_capacity b).trans h.capacity⟩

theorem Inv.inside_of_stake {acts : List Activity} {k : Stake} (h : Inv s acts) (ha : a ∈ acts) (hk : a.stakeOn f = some k) :
    f < s.capacity := by
  by_cases hs : (s.frames f).state = .free
  · obtain ⟨rest, hperm⟩ : ∃ rest, acts.Perm (a :: rest) := ⟨_, List.perm_cons_erase ha⟩
    have howns := ((h f).holds a ha k hk).owns_of_free hs
    exact (((h f).perm hperm).owner ((Activity.owns_some hk).trans howns)).2.2.2
  · exact (h f).inside hs

theorem Candidates.unpin {next : After} (h : Candidates s (.unpin f next :: rest)) (hinv : Inv s (.unpin f next :: rest)) :
    Candidates (s.unpinPage f) (next.activity :: rest) := by
  have hset := h.setEvictable (hinv.inside_of_stake (.head _) (Activity.stakeOn_same rfl)) true
  have hrep : (s.unpinPage f).replacer.Counted ∧ (s.unpinPage f).replacer.capacity = s.capacity := by
    rw [unpinPage_replacer]
    split
    · exact hset
    · exact ⟨h.counted, h.capacity⟩
  refine .of hinv.unpin hrep.1 (hrep.2.trans (unpinPage_capacity s f).symm) fun g _ hs hpin => ?_
  rw [unpinPage_frames] at hs hpin ⊢
  rw [unpinPage_replacer]
  by_cases hg : g = f
  · -- The last pin of a Resident frame makes it a candidate.
    rw [hg, Function.update_self] at hs hpin
    have hlast : (s.frames f).pinCount = 1 ∧ (s.frames f).state = .resident := ⟨by dsimp only at hpin; omega, hs⟩
    rw [if_pos hlast, hg, Replacer.setEvictable_evictable, Function.update_self]
    exact .inl rfl
  · rw [Function.update_of_ne hg] at hs hpin ⊢
    have hev : (if (s.frames f).pinCount = 1 ∧ (s.frames f).state = .resident then s.replacer.setEvictable f true
        else s.replacer).evictable g = s.replacer.evictable g := by
      split
      · exact setEvictable_other hg
      · rfl
    rw [hev]
    cases h.kept g hs hpin with
    | inl he => exact .inl he
    | inr hcl =>
      obtain ⟨b, hb, hcl⟩ := hcl
      cases hb with
      | head => cases hcl
      | tail _ hb => exact .inr ⟨b, .tail _ hb, hcl⟩

theorem Activity.claims_of_idle {p : PageId} (h : a.idle = true) : a.claims p f = false := by
  cases a <;> first | rfl | cases h

/-- The replacer's set and size are as they were. -/
theorem Candidates.keep (h : Candidates s (a :: rest)) (hinv : Inv s (a :: rest)) (hm : Moves cfg acts s a s' a')
    (hrep : s'.replacer = s.replacer) (hcap : s'.capacity = s.capacity)
    (hclaims : ∀ f, a'.stakeOn f = none → (s.frames f).state = .resident → (s.frames f).pinCount = 0 →
      a.claims (s.frames f).pageId f = true → a'.claims (s.frames f).pageId f = true)
    (hun : ∀ f next, a ≠ .unpin f next) : Candidates s' (a' :: rest) :=
  h.carry (hinv.moves hm) hm (hrep ▸ h.counted) (by rw [hrep, hcap, h.capacity]) (fun _ _ he => hrep ▸ he) hclaims hun

theorem Candidates.moves (h : Candidates s (a :: rest)) (hinv : Inv s (a :: rest)) (hm : Moves cfg acts s a s' a') :
    Candidates s' (a' :: rest) := by
  have hinv' := hinv.moves hm
  have hm' := hm
  cases hm with
  | unpinned => exact h.unpin hinv
  | idle hne ha ha' hcall =>
    refine h.keep hinv hm' rfl rfl (fun f _ _ _ hcl => ?_) fun f next he => ?_
    · rw [Activity.claims_of_idle ha] at hcl
      cases hcl
    · rw [he] at ha
      cases ha
  | recorded ha' =>
    refine h.carry hinv' hm' (h.counted.recordAccess _) ?_ (fun f _ he => ?_) nofun nofun
    · exact Replacer.recordAccess_capacity.trans h.capacity
    · exact (congrFun Replacer.recordAccess_evictable f).trans he
  | @unlisted p latch f =>
    have hset := h.setEvictable (hinv.inside_of_stake (.head _) (Activity.stakeOn_same rfl)) false
    refine h.carry hinv' hm' hset.1 hset.2 (fun g hg he => ?_) nofun nofun
    exact (setEvictable_other (ne_of_stakeOn rfl hg)).trans he
  | @deleteUnlisted p f =>
    have hset := h.setEvictable (hinv.inside_of_stake (.head _) (Activity.stakeOn_same rfl)) false
    refine h.carry hinv' hm' hset.1 hset.2 (fun g hg he => ?_) nofun nofun
    exact (setEvictable_other (ne_of_stakeOn rfl hg)).trans he
  | @evicted goal v r hr =>
    obtain ⟨v', r', hr', hcl⟩ | ⟨hr', -⟩ := h.counted.evict_spec
    · rw [hr] at hr'
      cases hr'
      refine .of hinv' hcl.counted (hcl.capacity.trans h.capacity) fun f _ hs hpin => ?_
      -- The victim is claimed by the reclaimer; the others keep what they have.
      by_cases hf : f = v
      · exact .inr ⟨_, .head _, decide_eq_true hf.symm⟩
      · have hsame : r.evictable f = s.replacer.evictable f := by rw [hcl.evictable, Function.update_of_ne hf]
        show r.evictable f = true ∨ _
        rw [hsame]
        obtain he | ⟨b, hb, hclm⟩ := h.kept f hs hpin
        · exact .inl he
        · cases hb with
          | head => cases hclm
          | tail _ hb => exact .inr ⟨b, .tail _ hb, hclm⟩
    · rw [hr] at hr'
      cases hr'
  | @peeked goal v p hfr =>
    refine h.keep hinv hm' rfl rfl (fun f _ _ _ hcl => ?_) nofun
    have hv : v = f := of_decide_eq_true hcl
    subst hv
    exact decide_eq_true ⟨rfl, hfr.pageId.symm⟩
  | @passed goal v hfr =>
    refine h.keep hinv hm' rfl rfl (fun f _ hs hpin hcl => ?_) nofun
    have hv : v = f := of_decide_eq_true hcl
    subst hv
    exact absurd ⟨hs, hpin, rfl⟩ (hfr _)
  | @declined goal v p hfr =>
    refine h.keep hinv hm' rfl rfl (fun f _ hs hpin hcl => ?_) nofun
    obtain ⟨rfl, hp⟩ : v = f ∧ p = (s.frames f).pageId := of_decide_eq_true hcl
    exact absurd ⟨hs, hpin, hp.symm⟩ hfr
  | @reclaimed goal v p hfr =>
    refine h.keep hinv hm' rfl rfl (fun f hf _ _ hcl => ?_) nofun
    obtain ⟨rfl, -⟩ : v = f ∧ p = (s.frames f).pageId := of_decide_eq_true hcl
    exact absurd rfl (ne_of_stakeOn rfl hf)
  | @pinned goal v p hfr =>
    refine h.keep hinv hm' rfl rfl (fun f hf _ _ hcl => ?_) nofun
    obtain ⟨rfl, -⟩ : v = f ∧ p = (s.frames f).pageId := of_decide_eq_true hcl
    exact absurd rfl (ne_of_stakeOn rfl hf)
  | disposed ha hpin =>
    refine h.keep hinv hm' rfl rfl (fun f _ _ _ hcl => ?_) fun f next he => ?_
    · obtain rfl | rfl := ha <;> cases hcl
    · obtain rfl | rfl := ha <;> cases he
  | pushed ha =>
    refine h.keep hinv hm' rfl rfl (fun f _ _ _ hcl => ?_) fun f next he => ?_
    · obtain rfl | rfl := ha <;> cases hcl
    · obtain rfl | rfl := ha <;> cases he
  | _ => exact h.keep hinv hm' rfl rfl nofun nofun

theorem Candidates.perm {acts' : List Activity} (h : Candidates s acts) (hp : acts.Perm acts') : Candidates s acts' := by
  refine ⟨h.counted, h.capacity, fun f hs hpin => (h.kept f hs hpin).imp id fun hcl => ?_⟩
  obtain ⟨b, hb, hcl⟩ := hcl
  exact ⟨b, hp.mem_iff.mp hb, hcl⟩

theorem Candidates.taken {s s' : System} {c : Choice} (h : Candidates s.shared s.acts) (hinv : Inv s.shared s.acts)
    (ht : Taken cfg s s' c) : Candidates s'.shared s'.acts := by
  cases ht with
  | call c hshared hacts =>
    rw [hshared]
    refine .perm ⟨h.counted, h.capacity, fun f hs hpin => (h.kept f hs hpin).imp id fun hcl => ?_⟩ hacts.symm
    obtain ⟨b, hb, hcl⟩ := hcl
    exact ⟨b, .tail _ hb, hcl⟩
  | run _ _ hacts hacts' hm => exact ((h.perm hacts).moves (hinv.perm hacts) hm).perm hacts'.symm
  | @edit i e p f _ hacts hshared =>
    have hq : Quiet s.shared s'.shared := hshared ▸ (Quiet.refl s.shared).setFrame rfl rfl rfl
    have hrep : s'.shared.replacer = s.shared.replacer := by rw [hshared]; rfl
    refine ⟨hrep ▸ h.counted, by rw [hrep, hq.capacity, h.capacity], fun g hs hpin => ?_⟩
    rw [hrep, hq.pageId, hacts]
    exact h.kept g (hq.state g ▸ hs) (hq.pinCount g ▸ hpin)

theorem candidates_reaches {allowed : System → Choice → Prop} {disk : DiskManager} {capacity : Nat}
    {owned : List PageId} {s : System} (h : Reaches (step cfg) allowed (System.new disk capacity owned) s) :
    Candidates s.shared s.acts := by
  have hboth : Inv s.shared s.acts ∧ Candidates s.shared s.acts := by
    refine h.invariant (I := fun s => Inv s.shared s.acts ∧ Candidates s.shared s.acts)
      ⟨inv_new disk capacity owned, Replacer.counted_new capacity, rfl, nofun⟩ fun hi _ hs => ?_
    have ht := (step_taken hs).2
    exact ⟨hi.1.taken ht, hi.2.taken hi.1 ht⟩
  exact hboth.2

theorem Moves.capacity (hm : Moves cfg acts s a s' a') : s'.capacity = s.capacity := by
  cases hm with
  | unpinned => exact unpinPage_capacity _ _
  | _ => rfl

theorem capacity_reaches {allowed : System → Choice → Prop} {disk : DiskManager} {capacity : Nat}
    {owned : List PageId} {s : System} (h : Reaches (step cfg) allowed (System.new disk capacity owned) s) :
    s.shared.capacity = capacity := by
  refine h.invariant (I := fun s => s.shared.capacity = capacity) rfl fun hi _ hs => ?_
  cases (step_taken hs).2 with
  | call c hshared _ => exact hshared ▸ hi
  | run _ _ _ _ hm => exact hm.capacity.trans hi
  | edit _ _ hshared => exact hshared ▸ hi

/-- No call is in progress and no guard is alive. -/
def System.Quiescent (s : System) : Prop := ∀ a ∈ s.acts, a = .done

instance (s : System) : Decidable s.Quiescent := inferInstanceAs (Decidable (∀ a ∈ s.acts, a = .done))

/-- Stock: free and on the free list. -/
def Stock (s : Shared) (f : Nat) : Prop :=
  (s.frames f).state = .free ∧ (s.frames f).pinCount = 0 ∧ s.freeList.count f = 1

/-- Cached: Resident, mapped, and a candidate. -/
def Cached (s : Shared) (f : Nat) : Prop :=
  (s.frames f).state = .resident ∧ (s.frames f).pinCount = 0 ∧ s.table (s.frames f).pageId = some f ∧
    s.replacer.evictable f = true

theorem no_frame_is_lost {disk : DiskManager} {capacity : Nat} {owned : List PageId} {s : System}
    (h : Reaches (step cfg) anyStep (System.new disk capacity owned) s) (hq : s.Quiescent) {f : Nat}
    (hf : f < capacity) : Stock s.shared f ∨ Cached s.shared f := by
  have hon := inv_reaches h f
  have hnone : ∀ a ∈ s.acts, a.stakeOn f = none := fun a ha => hq a ha ▸ rfl
  have hpin : (s.shared.frames f).pinCount = 0 := by
    rw [hon.pins, pins_of_alone hnone]
    rfl
  by_cases hs : (s.shared.frames f).state = .free
  · refine .inl ⟨hs, hpin, ?_⟩
    have hp := hon.placed
    have howns : s.acts.countP (·.owns f) = 0 :=
      List.countP_eq_zero.mpr fun a ha => by simp [Activity.owns_none (hnone a ha)]
    rw [howns, if_neg (not_housed hs (by decide)), if_pos (capacity_reaches h ▸ hf)] at hp
    exact hp
  · obtain ⟨hres, hmap⟩ := hon.housed_of_unpinned hs hpin
    refine .inr ⟨hres, hpin, hmap, ((candidates_reaches h).kept f hres hpin).resolve_right fun hcl => ?_⟩
    obtain ⟨a, ha, hcl⟩ := hcl
    rw [hq a ha] at hcl
    cases hcl

/-- A new page, written and dropped; then a fetch whose load fails. -/
def settledRun : List Choice :=
  .call .newPage :: List.replicate 9 (.run 0) ++ .call (.fetchPage .read 5) :: List.replicate 7 (.run 1)

theorem no_frame_is_lost_demo : ∃ d s, open_ quietDisk.disk missing = some (.ok (), d) ∧
    Reaches (step quietDisk) anyStep (System.new d 2 []) s ∧ s.shared.table 2 = some 1 ∧
    ∀ f < 2, Stock s.shared f ∨ Cached s.shared f := by
  have hrun : endsIn quietDisk anyStep 2 settledRun (fun s => s.Quiescent ∧ s.shared.table 2 = some 1) = true := by
    decide +kernel
  obtain ⟨d, s, hopen, hreach, hgood⟩ := of_endsIn hrun
  obtain ⟨hq, hmap⟩ := of_decide_eq_true hgood
  exact ⟨d, s, hopen, hreach, hmap, fun f hf => no_frame_is_lost hreach hq hf⟩

end Candidates
end KernSql.Concurrent
