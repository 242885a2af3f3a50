import KernSql.Buffer.ConcurrentRun

/- Is a frame that `AcquireFrame` returns private to the caller?

   `Evict` takes the victim out of the candidate set before the reclaimer looks at
   it. In between, another thread can fetch the page, drop it again and so put the
   frame back into the set; the reclaimer then takes a frame that is still a
   candidate (`acquired_frame_is_candidate`). This is the only way: as long as no
   last pin is dropped from a frame between its eviction and its validation, an
   acquired frame is out of both structures (`acquired_frame_is_private`).

   Two facts carry the proof. A candidate is Resident and mapped, or `DeletePage`
   is about to take it out; and a frame a reclaimer is after is not a candidate. -/
namespace KernSql.Concurrent
open DiskManager Machine

/-- A reclaimer that has evicted frame `f`, with page `p` in it, and has not let it go. -/
def Activity.reclaims (p : PageId) (f : Nat) : Activity → Bool
  | .peek _ v => v = f
  | .validate _ v q => v = f ∧ q = p
  | .isDirty v _ (.evict _) | .writePage v _ (.evict _) | .markFlushed v _ _ (.evict _) | .revalidate _ v _ => v = f
  | _ => false

/-- No last pin is dropped from a frame between its eviction and its validation. -/
def KeepsVictims (s : System) : Choice → Prop
  | .run i => match s.acts[i]? with
    | some (.unpin f _) => (s.shared.frames f).pinCount = 1 → (s.shared.frames f).state = .resident →
        ∀ a ∈ s.acts, a.claims (s.shared.frames f).pageId f = false
    | _ => True
  | _ => True

structure Unlisted (s : Shared) (acts : List Activity) : Prop where
  listed : ∀ f, s.replacer.evictable f = true → Housed s f ∨ ∃ p, .deleteClear p f ∈ acts
  out : ∀ a ∈ acts, ∀ f, (s.frames f).state = .resident → a.reclaims (s.frames f).pageId f = true →
    s.replacer.evictable f = false

section Steps
variable {cfg : PoolConfig} {acts rest : List Activity} {s s' : Shared} {a a' : Activity} {f : Nat}

theorem setEvictable_false {r : Replacer} {g : Nat} (h : (r.setEvictable g false).evictable f = true) :
    r.evictable f = true ∧ f ≠ g := by
  have hne : f ≠ g := by
    rintro rfl
    rw [Replacer.setEvictable_evictable, Function.update_self] at h
    cases h
  exact ⟨(setEvictable_other hne).symm.trans h, hne⟩

/-- Only a last unpin adds a candidate. -/
theorem Moves.evictable (hm : Moves cfg acts s a s' a') (hc : s.replacer.Counted)
    (he : s'.replacer.evictable f = true) : s.replacer.evictable f = true ∨
      ∃ next, a = .unpin f next ∧ (s.frames f).pinCount = 1 ∧ (s.frames f).state = .resident := by
  cases hm with
  | recorded => exact .inl ((congrFun Replacer.recordAccess_evictable f).symm.trans he)
  | unlisted => exact .inl (setEvictable_false he).1
  | deleteUnlisted => exact .inl (setEvictable_false he).1
  | @unpinned g next =>
    rw [unpinPage_replacer] at he
    split at he
    · next hlast =>
      by_cases hf : f = g
      · subst hf
        exact .inr ⟨next, rfl, hlast⟩
      · exact .inl ((setEvictable_other hf).symm.trans he)
    · exact .inl he
  | @evicted goal v r hr =>
    obtain ⟨v', r', hr', hcl⟩ | ⟨hr', -⟩ := hc.evict_spec
    · rw [hr] at hr'
      cases hr'
      have he' : Function.update s.replacer.evictable v false f = true := hcl.evictable ▸ he
      by_cases hf : f = v
      · rw [hf, Function.update_self] at he'
        cases he'
      · rw [Function.update_of_ne hf] at he'
        exact .inl he'
    · rw [hr] at hr'
      cases hr'
  | _ => exact .inl he

theorem owns_iff {g : Nat} {k : Stake} (h : a.stake = some (g, k)) : a.owns f = true ↔ g = f ∧ k.owns = true := by
  by_cases hg : g = f
  · subst hg
    simp [Activity.owns_some (Activity.stakeOn_same h)]
  · simp [Activity.owns_none (Activity.stakeOn_other h (Ne.symm hg)), hg]

theorem not_owns (h : a.stake = none) (ho : a.owns f = true) : False := by
  rw [Activity.owns_none (Activity.stakeOn_none h)] at ho
  cases ho

/-- A frame gets an owner from the free list, from a reclaimer, or from `DeletePage`. -/
theorem Moves.owner (hm : Moves cfg acts s a s' a') (ha' : a'.owns f = true) : a.owns f = true ∨ f ∈ s.freeList ∨
    ((s.frames f).state = .resident ∧ a.reclaims (s.frames f).pageId f = true) ∨ ∃ p, a' = .deleteClear p f := by
  have hsame : ∀ {g k k'}, a.stake = some (g, k) → a'.stake = some (g, k') → k.owns = true → a.owns f = true :=
    fun h h' hk => (owns_iff h).mpr ⟨((owns_iff h').mp ha').1, hk⟩
  have hnone : a'.stake = none → a.owns f = true := fun h => (not_owns h ha').elim
  have hpin : ∀ {g k}, a'.stake = some (g, k) → k.owns = false → a.owns f = true := by
    intro g k h hk
    have := ((owns_iff h).mp ha').2
    rw [hk] at this
    cases this
  cases hm with
  | idle _ _ hidle => exact .inl (hnone (Activity.stake_of_idle hidle))
  | hitLoading => exact .inl (hpin rfl rfl)
  | hit _ _ h => obtain ⟨-, rfl⟩ | ⟨-, rfl⟩ := h <;> exact .inl (hpin rfl rfl)
  | woken _ h => obtain ⟨-, rfl⟩ | ⟨-, rfl⟩ := h <;> exact .inl (hpin rfl rfl)
  | recorded h => obtain rfl | rfl := h <;> exact .inl (hpin rfl rfl)
  | unpinned => exact .inl (hnone (After.activity_stake _))
  | @popped goal g free hfree =>
    obtain ⟨rfl, -⟩ := (owns_iff rfl).mp ha'
    exact .inr (.inl (hfree ▸ .head _))
  | @reclaimed goal v p hfr =>
    obtain ⟨rfl, -⟩ := (owns_iff rfl).mp ha'
    exact .inr (.inr (.inl ⟨hfr.resident, decide_eq_true ⟨rfl, hfr.pageId.symm⟩⟩))
  | @retaken goal v p hfr =>
    obtain ⟨rfl, -⟩ := (owns_iff rfl).mp ha'
    exact .inr (.inr (.inl ⟨hfr.resident, decide_eq_true rfl⟩))
  | @deleteVacated p g _ _ =>
    obtain ⟨rfl, -⟩ := (owns_iff rfl).mp ha'
    exact .inr (.inr (.inr ⟨p, rfl⟩))
  | pinned => exact .inl (hpin rfl rfl)
  | flushPinned => exact .inl (hpin rfl rfl)
  | sweepPinned => exact .inl (hpin rfl rfl)
  | @dirty g p next _ => cases next <;> exact .inl (hpin rfl rfl)
  | @clean g p next => cases next <;> exact .inl (hpin rfl rfl)
  | @written g p next _ _ => cases next <;> exact .inl (hpin rfl rfl)
  | @unwritten g p next _ _ _ => cases next <;> exact .inl (hpin rfl rfl)
  | @marked g p observed next => cases next <;> exact .inl (hpin rfl rfl)
  | disposed h => obtain rfl | rfl := h <;> exact .inl (hsame rfl rfl rfl)
  | @deallocated p g _ _ =>
    cases g with
    | none => exact .inl (hnone rfl)
    | some g => exact .inl (hsame rfl rfl rfl)
  | @notDeallocated p g _ _ _ =>
    cases g with
    | none => exact .inl (hnone rfl)
    | some g => exact .inl (hsame rfl rfl rfl)
  | _ => first | exact .inl (hnone rfl) | exact .inl (hpin rfl rfl) | exact .inl (hsame rfl rfl rfl)

/-- Only an owner changes what a frame holds. -/
theorem Moves.identity (hm : Moves cfg acts s a s' a') (ha : a.owns f = false) (ha' : a'.owns f = false) :
    (s'.frames f).state = (s.frames f).state ∧ (s'.frames f).pageId = (s.frames f).pageId := by
  have hnot : ∀ {b : Activity} {k : Stake}, b.stake = some (f, k) → k.owns = true → b.owns f ≠ false := by
    intro b k hb hk ho
    rw [(owns_iff hb).mpr ⟨rfl, hk⟩] at ho
    cases ho
  cases hm.change f with
  | same hs hp => exact ⟨hs, hp⟩
  | freed _ hpriv =>
    obtain ⟨k, hk, hhid⟩ := privateFrame_iff.mp hpriv
    exact Bool.noConfusion (ha'.symm.trans ((Activity.owns_some hk).trans (Stake.owns_of_hidden hhid)))
  | loading _ h =>
    subst h
    exact absurd ha (hnot rfl rfl)
  | failed _ h =>
    subst h
    exact absurd ha (hnot rfl rfl)
  | published _ _ h =>
    subst h
    exact absurd ha (hnot rfl rfl)
  | stamped _ _ h _ =>
    subst h
    exact absurd ha (hnot rfl rfl)

/-- A reclaimer was one before, or has just evicted the frame. -/
theorem Moves.reclaims (hm : Moves cfg acts s a s' a') (hc : s.replacer.Counted)
    (hres : (s'.frames f).state = .resident) (hrec : a'.reclaims (s'.frames f).pageId f = true) :
    ((s.frames f).state = .resident ∧ a.reclaims (s.frames f).pageId f = true) ∨ s'.replacer.evictable f = false := by
  have hflush : ∀ {ok : Bool} {g : Nat} {p q : PageId} {next : After},
      (afterFlush ok g p next).reclaims q f = true → ∃ goal, next = .evict goal ∧ g = f := by
    intro ok g p q next h
    cases next with
    | evict goal =>
      cases ok with
      | true => exact ⟨goal, rfl, of_decide_eq_true h⟩
      | false => cases h
    | finish => cases ok <;> cases h
    | sweep next => cases ok <;> cases h
  cases hm with
  | @idle _ a' _ _ hidle _ => cases a' <;> first | cases hrec | cases hidle
  | hit _ _ h => obtain ⟨-, rfl⟩ | ⟨-, rfl⟩ := h <;> cases hrec
  | woken _ h => obtain ⟨-, rfl⟩ | ⟨-, rfl⟩ := h <;> cases hrec
  | recorded h => obtain rfl | rfl := h <;> cases hrec
  | @unpinned g next => cases next <;> cases hrec
  | @evicted goal v r hr =>
    obtain rfl : v = f := of_decide_eq_true hrec
    obtain ⟨v', r', hr', hcl⟩ | ⟨hr', -⟩ := hc.evict_spec
    · rw [hr] at hr'
      cases hr'
      exact .inr (by show r.evictable v = false; rw [hcl.evictable, Function.update_self])
    · rw [hr] at hr'
      cases hr'
  | @peeked goal v p hfr =>
    obtain ⟨rfl, -⟩ : v = f ∧ p = (s.frames f).pageId := of_decide_eq_true hrec
    exact .inl ⟨hres, decide_eq_true rfl⟩
  | @pinned goal v p hfr =>
    obtain rfl : v = f := of_decide_eq_true hrec
    exact .inl ⟨hfr.resident, decide_eq_true ⟨rfl, hfr.pageId.symm⟩⟩
  | @dirty g p next _ =>
    cases next with
    | evict goal => exact .inl ⟨hres, hrec⟩
    | finish => cases hrec
    | sweep n => cases hrec
  | @written g p next _ _ =>
    cases next with
    | evict goal => exact .inl ⟨hres, hrec⟩
    | finish => cases hrec
    | sweep n => cases hrec
  | clean =>
    obtain ⟨goal, rfl, rfl⟩ := hflush hrec
    exact .inl ⟨hres, decide_eq_true rfl⟩
  | unwritten =>
    obtain ⟨goal, rfl, rfl⟩ := hflush hrec
    exact .inl ⟨hres, decide_eq_true rfl⟩
  | @marked g p observed next =>
    obtain ⟨goal, rfl, rfl⟩ := hflush hrec
    refine .inl ⟨?_, decide_eq_true rfl⟩
    rw [← hres, Shared.setFrame, Frame.markFlushed]
    split <;> simp
  | @deallocated p g _ _ => cases g <;> cases hrec
  | @notDeallocated p g _ _ _ => cases g <;> cases hrec
  | _ => cases hrec

/-- A Resident and mapped frame belongs to nobody. -/
theorem OnFrame.not_owns {b : Activity} (h : OnFrame s acts f) (hh : Housed s f) (hb : b ∈ acts) : b.owns f = false := by
  by_contra ho
  have hperm : acts.Perm (b :: acts.erase b) := List.perm_cons_erase hb
  exact ((h.perm hperm).owner (by simpa using ho)).2.2.1 hh

/-- It stays so until somebody owns it. -/
theorem Inv.housed_moves (h : Inv s (a :: rest)) (hm : Moves cfg acts s a s' a') (hh : Housed s f)
    (ha' : a'.owns f = false) : Housed s' f := by
  have ha := (h f).not_owns hh (.head _)
  have hid := hm.identity ha ha'
  have hs : (s'.frames f).state ≠ .free := by rw [hid.1, hh.1]; decide
  by_contra hn
  obtain ⟨b, hb, k, hk, howns⟩ := (h.moves hm f).exists_owner hs hn
  have ho := (Activity.owns_some hk).trans howns
  cases hb with
  | head => exact Bool.noConfusion (ha'.symm.trans ho)
  | tail _ hb => exact Bool.noConfusion (((h f).not_owns hh (.tail _ hb)).symm.trans ho)

theorem Inv.alone_last {next : After} (h : Inv s (.unpin f next :: rest)) (hpin : (s.frames f).pinCount = 1)
    (hs : (s.frames f).state = .resident) : ∀ b ∈ rest, b.stakeOn f = none := by
  have hpins : (Activity.unpin f next).pins f = true := Activity.pins_some (k := .leaving) (Activity.stakeOn_same rfl)
  refine (h f).alone_unpinned (by rw [hs]; decide) ?_
  rw [hpins]
  exact hpin

/-- The last pin of a Resident frame is dropped from a mapped one. -/
theorem Inv.housed_of_last {next : After} (h : Inv s (.unpin f next :: rest)) (hpin : (s.frames f).pinCount = 1)
    (hs : (s.frames f).state = .resident) : Housed s f := by
  have hne : (s.frames f).state ≠ .free := by rw [hs]; decide
  have halone := h.alone_last hpin hs
  by_contra hn
  obtain ⟨b, hb, k, hk, howns⟩ := (h f).exists_owner hne hn
  cases hb with
  | head =>
    rw [Activity.stakeOn_same rfl] at hk
    cases hk
    cases howns
  | tail _ hb =>
    rw [halone b hb] at hk
    cases hk

/-- `DeletePage` has the frame to itself until it has taken it out of the set. -/
theorem Inv.deleteClear {p : PageId} {acts : List Activity} (h : Inv s acts) (hmem : .deleteClear p f ∈ acts) :
    (s.frames f).state = .free :=
  ((h f).holds _ hmem .privately (Activity.stakeOn_same rfl)).1

theorem Moves.of_deleteClear {p : PageId} (hm : Moves cfg acts s (.deleteClear p f) s' a') :
    s'.replacer.evictable f = false := by
  cases hm with
  | idle _ ha => cases ha
  | deleteUnlisted =>
    show (s.replacer.setEvictable f false).evictable f = false
    rw [Replacer.setEvictable_evictable, Function.update_self]
  | disposed ha => exact ha.elim nofun nofun
  | pushed ha => exact ha.elim nofun nofun

theorem Moves.of_unpin {next : After} (hm : Moves cfg acts s (.unpin f next) s' a') :
    s' = s.unpinPage f ∧ a' = next.activity := by
  cases hm with
  | idle _ ha => cases ha
  | unpinned => exact ⟨rfl, rfl⟩
  | disposed ha => exact ha.elim nofun nofun
  | pushed ha => exact ha.elim nofun nofun

/-- A candidate that is taken is taken by `DeletePage`. -/
theorem Unlisted.taker (h : Unlisted s (a :: rest)) (hinv : Inv s (a :: rest)) (hm : Moves cfg acts s a s' a')
    (hh : Housed s f) (he : s.replacer.evictable f = true) (ha' : a'.owns f = true) : ∃ p, a' = .deleteClear p f := by
  obtain ho | hfree | ⟨hres, hrec⟩ | hdel := hm.owner ha'
  · exact Bool.noConfusion (((hinv f).not_owns hh (.head _)).symm.trans ho)
  · have hs := ((hinv f).stock hfree).1
    rw [hh.1] at hs
    cases hs
  · exact Bool.noConfusion ((h.out a (.head _) f hres hrec).symm.trans he)
  · exact hdel

/-- A reclaimer that is past its validation has a pin. -/
theorem claims_or_stake {p : PageId} {b : Activity} (h : b.reclaims p f = true) :
    b.claims p f = true ∨ b.stakeOn f ≠ none := by
  cases b with
  | peek => exact .inl h
  | validate => exact .inl h
  | revalidate goal v q =>
    obtain rfl : v = f := of_decide_eq_true h
    exact .inr (by rw [Activity.stakeOn_same rfl]; nofun)
  | isDirty v q next =>
    cases next with
    | evict goal =>
      obtain rfl : v = f := of_decide_eq_true h
      exact .inr (by rw [Activity.stakeOn_same rfl]; nofun)
    | finish => cases h
    | sweep n => cases h
  | writePage v q next =>
    cases next with
    | evict goal =>
      obtain rfl : v = f := of_decide_eq_true h
      exact .inr (by rw [Activity.stakeOn_same rfl]; nofun)
    | finish => cases h
    | sweep n => cases h
  | markFlushed v q observed next =>
    cases next with
    | evict goal =>
      obtain rfl : v = f := of_decide_eq_true h
      exact .inr (by rw [Activity.stakeOn_same rfl]; nofun)
    | finish => cases h
    | sweep n => cases h
  | _ => cases h

theorem Unlisted.listed_moves (h : Unlisted s (a :: rest)) (hinv : Inv s (a :: rest)) (hc : s.replacer.Counted)
    (hm : Moves cfg acts s a s' a') (he : s'.replacer.evictable f = true) :
    Housed s' f ∨ ∃ p, .deleteClear p f ∈ a' :: rest := by
  obtain hold | ⟨next, rfl, hpin, hres⟩ := hm.evictable hc he
  · obtain hh | ⟨p, hmem⟩ := h.listed f hold
    · cases ha' : a'.owns f with
      | false => exact .inl (hinv.housed_moves hm hh ha')
      | true =>
        obtain ⟨p, rfl⟩ := h.taker hinv hm hh hold ha'
        exact .inr ⟨p, .head _⟩
    · cases hmem with
      | head => exact Bool.noConfusion (hm.of_deleteClear.symm.trans he)
      | tail _ hmem => exact .inr ⟨p, .tail _ hmem⟩
  · refine .inl (hinv.housed_moves hm (hinv.housed_of_last hpin hres) ?_)
    rw [hm.of_unpin.2]
    exact Activity.owns_none (Activity.stakeOn_none next.activity_stake)

/-- A candidate that stays one keeps its identity, if it is Resident at all. -/
theorem Unlisted.identity (h : Unlisted s (a :: rest)) (hinv : Inv s (a :: rest)) (hm : Moves cfg acts s a s' a')
    (hold : s.replacer.evictable f = true) (he : s'.replacer.evictable f = true)
    (hres : (s'.frames f).state = .resident) :
    (s'.frames f).state = (s.frames f).state ∧ (s'.frames f).pageId = (s.frames f).pageId := by
  have hdel : ∀ {p}, .deleteClear p f ∉ a' :: rest := by
    intro p hmem
    have := (hinv.moves hm).deleteClear hmem
    rw [hres] at this
    cases this
  obtain hh | ⟨p, hmem⟩ := h.listed f hold
  · refine hm.identity ((hinv f).not_owns hh (.head _)) ?_
    by_contra ho
    obtain ⟨p, rfl⟩ := h.taker hinv hm hh hold (by simpa using ho)
    exact hdel (.head _)
  · cases hmem with
    | head => exact Bool.noConfusion (hm.of_deleteClear.symm.trans he)
    | tail _ hmem => exact absurd (.tail _ hmem) hdel

theorem Unlisted.moves (h : Unlisted s (a :: rest)) (hinv : Inv s (a :: rest)) (hc : s.replacer.Counted)
    (hm : Moves cfg acts s a s' a')
    (hkeep : ∀ f next, a = .unpin f next → (s.frames f).pinCount = 1 → (s.frames f).state = .resident →
      ∀ b ∈ rest, b.claims (s.frames f).pageId f = false) : Unlisted s' (a' :: rest) := by
  refine ⟨fun f he => h.listed_moves hinv hc hm he, fun b hb f hres hrec => ?_⟩
  by_contra hnot
  have he : s'.replacer.evictable f = true := by simpa using hnot
  cases hb with
  | head =>
    obtain ⟨hs, hrec⟩ | hfalse := hm.reclaims hc hres hrec
    · obtain hold | ⟨next, rfl, -⟩ := hm.evictable hc he
      · exact Bool.noConfusion ((h.out a (.head _) f hs hrec).symm.trans hold)
      · cases hrec
    · exact hnot hfalse
  | tail _ hb =>
    obtain hold | ⟨next, rfl, hpin, hs⟩ := hm.evictable hc he
    · -- A candidate before, and the reclaimer was after it before.
      have hid := h.identity hinv hm hold he hres
      rw [hid.2] at hrec
      exact Bool.noConfusion ((h.out b (.tail _ hb) f (hid.1 ▸ hres) hrec).symm.trans hold)
    · -- A new candidate: nobody claims it, and nobody else has a pin.
      obtain ⟨rfl, rfl⟩ := hm.of_unpin
      have hpage : ((s.unpinPage f).frames f).pageId = (s.frames f).pageId := by
        rw [unpinPage_frames, Function.update_self]
      rw [hpage] at hrec
      obtain hcl | hst := claims_or_stake hrec
      · exact Bool.noConfusion ((hkeep f next rfl hpin hs b hb).symm.trans hcl)
      · exact hst (hinv.alone_last hpin hs b hb)

end Steps

/-! Whole runs. -/

section Runs
variable {cfg : PoolConfig} {s s' : System} {disk : DiskManager} {capacity : Nat} {owned : List PageId}

theorem Unlisted.perm {sh : Shared} {acts acts' : List Activity} (h : Unlisted sh acts) (hp : acts.Perm acts') :
    Unlisted sh acts' := by
  refine ⟨fun f he => (h.listed f he).imp id fun hdel => ?_, fun a ha => h.out a (hp.mem_iff.mpr ha)⟩
  obtain ⟨p, hmem⟩ := hdel
  exact ⟨p, hp.mem_iff.mp hmem⟩

theorem Activity.reclaims_of_idle {a : Activity} {p : PageId} {f : Nat} (h : a.idle = true) : a.reclaims p f = false := by
  cases a <;> first | rfl | cases h

theorem Unlisted.taken {c : Choice} (h : Unlisted s.shared s.acts) (hinv : Inv s.shared s.acts)
    (hc : s.shared.replacer.Counted) (hkeep : KeepsVictims s c) (ht : Taken cfg s s' c) :
    Unlisted s'.shared s'.acts := by
  cases ht with
  | call c hshared hacts =>
    rw [hshared]
    refine .perm ⟨fun f he => (h.listed f he).imp id fun hdel => ?_, fun a ha f hs hrec => ?_⟩ hacts.symm
    · obtain ⟨p, hmem⟩ := hdel
      exact ⟨p, .tail _ hmem⟩
    · cases ha with
      | head =>
        rw [Activity.reclaims_of_idle c.start_idle] at hrec
        cases hrec
      | tail _ ha => exact h.out a ha f hs hrec
  | @run i a a' rest hi _ hacts hacts' hm =>
    refine ((h.perm hacts).moves (hinv.perm hacts) hc hm fun f next ha hpin hs b hb => ?_).perm hacts'.symm
    subst ha
    simp only [KeepsVictims, hi] at hkeep
    exact hkeep hpin hs b (hacts.mem_iff.mpr (.tail _ hb))
  | @edit i e p f _ hacts hshared =>
    have hq : Quiet s.shared s'.shared := hshared ▸ (Quiet.refl s.shared).setFrame rfl rfl rfl
    have hrep : s'.shared.replacer = s.shared.replacer := by rw [hshared]; rfl
    rw [hacts]
    refine ⟨fun g he => (h.listed g (hrep ▸ he)).imp (hq.same g).housed.mpr id, fun a ha g hs hrec => ?_⟩
    rw [hrep]
    exact h.out a ha g (hq.state g ▸ hs) (hq.pageId g ▸ hrec)

theorem unlisted_reaches (h : Reaches (step cfg) KeepsVictims (System.new disk capacity owned) s) :
    Unlisted s.shared s.acts := by
  have hall : Inv s.shared s.acts ∧ Candidates s.shared s.acts ∧ Unlisted s.shared s.acts := by
    refine h.invariant (I := fun s => Inv s.shared s.acts ∧ Candidates s.shared s.acts ∧ Unlisted s.shared s.acts)
      ⟨inv_new disk capacity owned, ⟨Replacer.counted_new capacity, rfl, nofun⟩, nofun, nofun⟩ fun hi ha hs => ?_
    have ht := (step_taken hs).2
    exact ⟨hi.1.taken ht, hi.2.1.taken hi.1 ht, hi.2.2.taken hi.1 hi.2.1.counted ha ht⟩
  exact hall.2.2

/-- Free, in no structure, and without a pin. -/
def Private (s : Shared) (f : Nat) : Prop :=
  (s.frames f).state = .free ∧ (∀ p, s.table p ≠ some f) ∧ (s.frames f).pinCount = 0 ∧ f ∉ s.freeList ∧
    s.replacer.evictable f = false

theorem Unlisted.private {sh : Shared} {acts : List Activity} {goal : Goal} {f : Nat} (h : Unlisted sh acts)
    (hinv : Inv sh acts) (hmem : .acquired goal f ∈ acts) : Private sh f := by
  have hperm := List.perm_cons_erase hmem
  have hon := (hinv f).perm hperm
  have hst : (Activity.acquired goal f).stakeOn f = some .privately := Activity.stakeOn_same rfl
  have howns := Activity.owns_some hst
  obtain ⟨hrest, hfree, hnot, -⟩ := hon.owner howns
  have hs : (sh.frames f).state = .free := (hon.holds _ (.head _) _ hst).1
  have halone := hon.alone_free howns hs
  refine ⟨hs, hon.unmapped_of_free hs, ?_, hfree, ?_⟩
  · rw [hon.pins, countP_cons_toNat, pins_of_alone halone, Activity.pins_some hst]
    rfl
  · by_contra he
    obtain hh | ⟨p, hdel⟩ := h.listed f (by simpa using he)
    · exact hnot hh
    · cases hperm.mem_iff.mp hdel with
      | tail _ hdel =>
        have := halone _ hdel
        rw [Activity.stakeOn_same rfl] at this
        cases this

theorem Unlisted.freeList {sh : Shared} {acts : List Activity} {f : Nat} (h : Unlisted sh acts) (hinv : Inv sh acts)
    (hmem : f ∈ sh.freeList) : sh.replacer.evictable f = false := by
  by_contra he
  obtain hh | ⟨p, hdel⟩ := h.listed f (by simpa using he)
  · exact not_housed ((hinv f).stock hmem).1 (by decide) hh
  · have hst : (Activity.deleteClear p f).stakeOn f = some .privately := Activity.stakeOn_same rfl
    exact (((hinv f).perm (List.perm_cons_erase hdel)).owner (Activity.owns_some hst)).2.1 hmem

/-- As many Resident frames. -/
def residentFrames (s : Shared) : Nat := (List.range s.capacity).countP fun f => (s.frames f).state = .resident

theorem acquired_frame_is_private (h : Reaches (step cfg) KeepsVictims (System.new disk capacity owned) s) :
    (∀ goal f, .acquired goal f ∈ s.acts → Private s.shared f) ∧
    (∀ f ∈ s.shared.freeList, s.shared.replacer.evictable f = false) ∧
    (s.Quiescent → s.shared.replacer.evictableCount ≤ residentFrames s.shared) := by
  have hinv := inv_reaches h
  have hun := unlisted_reaches h
  have hcand := candidates_reaches h
  refine ⟨fun goal f => hun.private hinv, fun f => hun.freeList hinv, fun hq => ?_⟩
  rw [hcand.counted.count, hcand.capacity, ← List.countP_eq_length_filter]
  refine List.countP_mono_left fun f _ he => ?_
  obtain hh | ⟨p, hdel⟩ := hun.listed f he
  · exact decide_eq_true hh.1
  · cases hq _ hdel

/-- A system call that fails in a release build. -/
def diskFailsAt (n : Nat) : PoolConfig := ⟨false, 0, fun i => if i = n then some "no space left on device" else none, ""⟩

/-- Page 2 is in the only frame, unpinned. A reclaimer evicts the frame; then another thread fetches page 2 and
drops it; then the reclaimer goes on, and has the frame. -/
def fetchedVictim : List Choice :=
  .call .newPage :: List.replicate 9 (.run 0) ++ [.call .newPage, .run 1, .run 1, .call (.fetchPage .read 2)] ++
    List.replicate 6 (.run 2) ++ List.replicate 6 (.run 1)

/-- The frame is a candidate when it is acquired. `AllocatePage` fails, so it goes to the free list, and with every
call over there is a candidate and no Resident frame. -/
theorem acquired_frame_is_candidate : ∃ d s s', open_ (diskFailsAt 10).disk missing = some (.ok (), d) ∧
    Reaches (step (diskFailsAt 10)) anyStep (System.new d 1 []) s ∧ .acquired .newPage 0 ∈ s.acts ∧
    s.shared.replacer.evictable 0 = true ∧
    exec (step (diskFailsAt 10)) [.run 1, .run 1] s = some s' ∧ s'.Quiescent ∧ 0 ∈ s'.shared.freeList ∧
    s'.shared.replacer.evictable 0 = true ∧ residentFrames s'.shared < s'.shared.replacer.evictableCount := by
  have hrun : endsIn (diskFailsAt 10) anyStep 1 fetchedVictim (fun s => (.acquired .newPage 0 ∈ s.acts ∧
      s.shared.replacer.evictable 0 = true) ∧ (exec (step (diskFailsAt 10)) [.run 1, .run 1] s).any fun s' =>
        s'.Quiescent ∧ 0 ∈ s'.shared.freeList ∧ s'.shared.replacer.evictable 0 = true ∧
          residentFrames s'.shared < s'.shared.replacer.evictableCount) = true := by
    decide +kernel
  obtain ⟨d, s, hopen, hreach, hgood⟩ := of_endsIn hrun
  obtain ⟨⟨hacq, hev⟩, hnext⟩ := of_decide_eq_true hgood
  obtain ⟨s', hs', hgood'⟩ := (Option.any_eq_true _ _).mp hnext
  exact ⟨d, s, s', hopen, hreach, hacq, hev, hs', of_decide_eq_true hgood'⟩

instance (s : System) (c : Choice) : Decidable (KeepsVictims s c) := by
  unfold KeepsVictims
  split
  · split <;> infer_instance
  · infer_instance

/-- The same frame reclaimed with nobody in between. -/
def undisturbed : List Choice := .call .newPage :: List.replicate 9 (.run 0) ++ .call .newPage :: List.replicate 8 (.run 1)

theorem acquired_frame_is_private_demo : ∃ d s, open_ quietDisk.disk missing = some (.ok (), d) ∧
    Reaches (step quietDisk) KeepsVictims (System.new d 1 []) s ∧ .acquired .newPage 0 ∈ s.acts ∧
    Private s.shared 0 := by
  have hrun : endsIn quietDisk KeepsVictims 1 undisturbed (fun s => .acquired .newPage 0 ∈ s.acts) = true := by
    decide +kernel
  obtain ⟨d, s, hopen, hreach, hgood⟩ := of_endsIn hrun
  have hacq := of_decide_eq_true hgood
  exact ⟨d, s, hopen, hreach, hacq, (acquired_frame_is_private hreach).1 _ _ hacq⟩

end Runs
end KernSql.Concurrent
