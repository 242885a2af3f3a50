import KernSql.Buffer.Replacer
import KernSql.Lib.Machine

/- Which frame the clock takes.

   A candidate with credit `u`, `a` frames ahead of the hand, is found without
   credit after `u` whole turns and `a` frames: its rank is `u * n + a`. One round
   of the sweep that claims nothing takes one off every candidate's rank, so the
   sweep ends at the candidate of least rank, after that many rounds. Ranks order
   the candidates by credit first and position second, and a credit of at most 3
   gives a rank below `4 * n`, the bound of the sweep. -/
namespace KernSql.Replacer
variable {r r' : Replacer} {f g v : Nat}

/-- How many frames the hand passes before it is on `f`. -/
def ahead (r : Replacer) (f : Nat) : Nat := (f + r.capacity - r.hand) % r.capacity

def rank (r : Replacer) (f : Nat) : Nat := r.usageCount f * r.capacity + r.ahead f

/-- A round of the sweep that claims nothing. -/
def pass (r : Replacer) : Replacer :=
  if r.evictable r.hand = false then r.advance
  else { r with usageCount := Function.update r.usageCount r.hand (r.usageCount r.hand - 1) }.advance

theorem sweep_succ (n : Nat) (r : Replacer) :
    sweep (n + 1) r =
      if r.evictable r.hand = true ∧ r.usageCount r.hand = 0 then .inl r.claimVictim else sweep n r.pass := by
  rw [sweep, pass]
  cases hc : r.evictable r.hand with
  | false => simp
  | true =>
    by_cases hu : r.usageCount r.hand = 0
    · simp [hu]
    · simp [hu]

@[simp] theorem pass_capacity : r.pass.capacity = r.capacity := by
  unfold pass
  split <;> rfl

@[simp] theorem pass_evictable : r.pass.evictable = r.evictable := by
  unfold pass
  split <;> rfl

@[simp] theorem pass_evictableCount : r.pass.evictableCount = r.evictableCount := by
  unfold pass
  split <;> rfl

@[simp] theorem pass_hand : r.pass.hand = (r.hand + 1) % r.capacity := by
  unfold pass
  split <;> rfl

theorem pass_usage_same (hc : r.evictable r.hand = true) : r.pass.usageCount r.hand = r.usageCount r.hand - 1 := by
  rw [pass, if_neg (by simp [hc])]
  exact Function.update_self ..

theorem pass_usage_other (hf : r.evictable f = true → f ≠ r.hand) : r.pass.usageCount f = r.usageCount f := by
  unfold pass
  split
  · rfl
  · next hc =>
    have hne : f ≠ r.hand := by
      rintro rfl
      exact hf (by simpa using hc) rfl
    exact Function.update_of_ne hne _ _

theorem Counted.pass (h : r.Counted) : Passed r r.pass := by
  refine ⟨pass_evictable, pass_capacity, ⟨?_, ?_, ?_⟩⟩
  · rw [pass_evictableCount, pass_capacity, pass_evictable, h.count]
  · rw [pass_capacity, pass_evictable]
    exact h.inside
  · rw [pass_capacity, pass_hand]
    exact fun h0 => Nat.mod_lt _ h0

/-! Positions and ranks. -/

theorem ahead_of_le (hle : r.hand ≤ f) (hf : f < r.capacity) : r.ahead f = f - r.hand := by
  rw [ahead, show f + r.capacity - r.hand = (f - r.hand) + r.capacity by omega, Nat.add_mod_right]
  exact Nat.mod_eq_of_lt (by omega)

theorem ahead_of_lt (hlt : f < r.hand) (hh : r.hand < r.capacity) : r.ahead f = f + r.capacity - r.hand :=
  Nat.mod_eq_of_lt (by omega)

theorem ahead_lt (h0 : 0 < r.capacity) : r.ahead f < r.capacity := Nat.mod_lt _ h0

theorem ahead_hand (hh : r.hand < r.capacity) : r.ahead r.hand = 0 := by
  rw [ahead_of_le le_rfl hh, Nat.sub_self]

/-- The hand comes to `f` in clock order. -/
theorem hand_add_ahead (hf : f < r.capacity) (hh : r.hand < r.capacity) : (r.hand + r.ahead f) % r.capacity = f := by
  rcases Nat.lt_or_ge f r.hand with hlt | hge
  · rw [ahead_of_lt hlt hh, show r.hand + (f + r.capacity - r.hand) = f + r.capacity by omega, Nat.add_mod_right,
      Nat.mod_eq_of_lt hf]
  · rw [ahead_of_le hge hf, show r.hand + (f - r.hand) = f by omega, Nat.mod_eq_of_lt hf]

theorem ahead_pass_hand (hh : r.hand < r.capacity) : r.pass.ahead r.hand + 1 = r.capacity := by
  unfold ahead
  rw [pass_capacity, pass_hand]
  rcases Nat.lt_or_ge (r.hand + 1) r.capacity with hlt | hge
  · rw [Nat.mod_eq_of_lt hlt, Nat.mod_eq_of_lt (by omega)]
    omega
  · rw [show r.hand + 1 = r.capacity by omega, Nat.mod_self, Nat.sub_zero, Nat.add_mod_right, Nat.mod_eq_of_lt hh]
    omega

theorem ahead_pass_other (hf : f < r.capacity) (hh : r.hand < r.capacity) (hne : f ≠ r.hand) :
    r.pass.ahead f + 1 = r.ahead f := by
  have hp : r.pass.ahead f = (f + r.capacity - (r.hand + 1) % r.capacity) % r.capacity := by
    rw [ahead, pass_capacity, pass_hand]
  rcases Nat.lt_or_ge (r.hand + 1) r.capacity with hlt | hge
  · rw [hp, Nat.mod_eq_of_lt hlt]
    rcases Nat.lt_or_ge f r.hand with hlt' | hge'
    · rw [ahead_of_lt hlt' hh, Nat.mod_eq_of_lt (by omega)]
      omega
    · rw [ahead_of_le hge' hf, show f + r.capacity - (r.hand + 1) = (f - (r.hand + 1)) + r.capacity by omega,
        Nat.add_mod_right, Nat.mod_eq_of_lt (by omega)]
      omega
  · rw [hp, show r.hand + 1 = r.capacity by omega, Nat.mod_self, Nat.sub_zero, Nat.add_mod_right,
      Nat.mod_eq_of_lt hf, ahead_of_lt (by omega) hh]
    omega

/-- A round takes one off the rank of every candidate it does not claim. -/
theorem rank_pass (h : r.Counted) (hf : r.evictable f = true) (hpos : r.rank f ≠ 0) :
    r.pass.rank f + 1 = r.rank f := by
  have hin := h.inside f hf
  have hh := h.hand (by omega)
  by_cases hne : f = r.hand
  · subst hne
    have ha := ahead_hand hh
    obtain ⟨u, hu⟩ : ∃ u, r.usageCount r.hand = u + 1 := by
      apply Nat.exists_eq_succ_of_ne_zero
      intro h0
      rw [rank, h0, ha] at hpos
      simp at hpos
    calc r.pass.rank r.hand + 1
        = u * r.capacity + (r.pass.ahead r.hand + 1) := by
          rw [rank, pass_usage_same hf, hu, pass_capacity, Nat.add_sub_cancel, Nat.add_assoc]
      _ = (u + 1) * r.capacity := by rw [ahead_pass_hand hh, Nat.succ_mul]
      _ = r.rank r.hand := by simp [rank, hu, ha]
  · rw [rank, rank, pass_usage_other fun _ => hne, pass_capacity, Nat.add_assoc, ahead_pass_other hin hh hne]

theorem turns_div {n u a : Nat} (ha : a < n) : (u * n + a) / n = u := by
  rw [Nat.add_comm, Nat.add_mul_div_right _ _ (Nat.zero_lt_of_lt ha), Nat.div_eq_of_lt ha, Nat.zero_add]

/-- A credit is the number of whole turns in the rank. -/
theorem rank_div (h0 : 0 < r.capacity) : r.rank f / r.capacity = r.usageCount f := turns_div (ahead_lt h0)

/-- Ranks order by credit, then by position. -/
theorem of_rank_le (h0 : 0 < r.capacity) (hle : r.rank v ≤ r.rank f) :
    r.usageCount v < r.usageCount f ∨ r.usageCount v = r.usageCount f ∧ r.ahead v ≤ r.ahead f := by
  have hdiv := Nat.div_le_div_right (c := r.capacity) hle
  rw [rank_div h0, rank_div h0] at hdiv
  rcases Nat.lt_or_eq_of_le hdiv with hlt | heq
  · exact .inl hlt
  · rw [rank, rank, heq] at hle
    exact .inr ⟨heq, by omega⟩

/-- Adding positions carries at most one turn. -/
theorem carry {n t u x a : Nat} (hx : x < n + n) (ha : a < n) (h : t * n + x = u * n + a) :
    x = a ∧ t = u ∨ x = n + a ∧ t + 1 = u := by
  rcases Nat.lt_or_ge x n with hlt | hge
  · have htu : t = u := by rw [← turns_div hlt (u := t), h, turns_div ha]
    subst htu
    exact .inl ⟨by omega, rfl⟩
  · have hcarry : (t + 1) * n + (x - n) = u * n + a := by
      rw [Nat.succ_mul]
      omega
    have htu : t + 1 = u := by rw [← turns_div (show x - n < n by omega) (u := t + 1), hcarry, turns_div ha]
    subst htu
    exact .inr ⟨by omega, rfl⟩

theorem rank_zero (h : r.Counted) (hf : r.evictable f = true) (hz : r.rank f = 0) :
    f = r.hand ∧ r.usageCount f = 0 := by
  have hin := h.inside f hf
  have hh := h.hand (by omega)
  have ha : r.ahead f = 0 := Nat.eq_zero_of_add_eq_zero_left hz
  constructor
  · have := hand_add_ahead hin hh
    rw [ha, Nat.add_zero, Nat.mod_eq_of_lt hh] at this
    exact this.symm
  · rw [← rank_div (by omega), hz, Nat.zero_div]

/-! The sweep. -/

/-- What the rounds before the claim leave behind. -/
structure Swept (k : Nat) (r r' : Replacer) : Prop where
  passed : Passed r r'
  count : r'.evictableCount = r.evictableCount
  rank : ∀ f, r.evictable f = true → r'.rank f + k = r.rank f
  kept : ∀ f, r.evictable f = false → r'.usageCount f = r.usageCount f

theorem Swept.cons {k : Nat} {r'' : Replacer} (h : Swept 1 r r') (h' : Swept k r' r'') : Swept (k + 1) r r'' where
  passed := h.passed.trans h'.passed
  count := h'.count.trans h.count
  rank f hf := by
    have h1 := h.rank f hf
    have h2 := h'.rank f (by rw [h.passed.evictable]; exact hf)
    omega
  kept f hf := by
    rw [h'.kept f (by rw [h.passed.evictable]; exact hf), h.kept f hf]

theorem swept_pass (h : r.Counted) (hpos : ∀ f, r.evictable f = true → r.rank f ≠ 0) : Swept 1 r r.pass where
  passed := h.pass
  count := pass_evictableCount
  rank f hf := rank_pass h hf (hpos f hf)
  kept f hf := pass_usage_other fun hc => by simp [hf] at hc

/-- The sweep claims the candidate of least rank, in that many rounds and one. -/
theorem sweep_least {k n : Nat} (h : r.Counted) (hv : r.evictable v = true) (hk : r.rank v = k)
    (hmin : ∀ f, r.evictable f = true → k ≤ r.rank f) (hn : k < n) :
    ∃ r', Swept k r r' ∧ r'.hand = v ∧ sweep n r = .inl r'.claimVictim := by
  induction k generalizing r n with
  | zero =>
    obtain ⟨m, rfl⟩ := Nat.exists_eq_succ_of_ne_zero (Nat.ne_of_gt hn)
    obtain ⟨rfl, hu⟩ := rank_zero h hv hk
    refine ⟨r, ⟨⟨rfl, rfl, h⟩, rfl, fun _ _ => rfl, fun _ _ => rfl⟩, rfl, ?_⟩
    rw [sweep_succ, if_pos ⟨hv, hu⟩]
  | succ k ih =>
    obtain ⟨m, rfl⟩ := Nat.exists_eq_succ_of_ne_zero (Nat.ne_of_gt (Nat.zero_lt_of_lt hn))
    -- No candidate has rank 0 yet, so the frame under the hand is passed over.
    have hpos : ∀ f, r.evictable f = true → r.rank f ≠ 0 := by
      intro f hf
      have := hmin f hf
      omega
    have hpass := swept_pass h hpos
    have hcounted := hpass.passed.counted
    have hev : ∀ f, r.pass.evictable f = true → r.evictable f = true := by
      intro f hf
      rwa [pass_evictable] at hf
    obtain ⟨r', hs, hhand, hsweep⟩ := ih hcounted (by rwa [pass_evictable]) (by
        have := hpass.rank v hv
        omega) (by
        intro f hf
        have h1 := hpass.rank f (hev f hf)
        have h2 := hmin f (hev f hf)
        omega) (Nat.lt_of_succ_lt_succ hn)
    refine ⟨r', hpass.cons hs, hhand, ?_⟩
    rw [sweep_succ, if_neg, hsweep]
    rintro ⟨hc, hu⟩
    apply hpos r.hand hc
    have hin := h.inside _ hc
    rw [rank, hu, ahead_hand hin, Nat.zero_mul]

/-! The choice. -/

/-- The candidate `v` was taken by the rules of the clock. -/
structure Chosen (r : Replacer) (v : Nat) (r' : Replacer) : Prop where
  candidate : r.evictable v = true
  least : ∀ f, r.evictable f = true →
    r.usageCount v < r.usageCount f ∨ r.usageCount v = r.usageCount f ∧ r.ahead v ≤ r.ahead f
  evictable : r'.evictable = Function.update r.evictable v false
  count : r'.evictableCount + 1 = r.evictableCount
  reset : r'.usageCount v = 0
  /-- What is taken off is there to be taken: the sum is the old count. -/
  drop : ∀ f, r.evictable f = true → f ≠ v →
    r'.usageCount f + (if r.ahead f < r.ahead v then r.usageCount v + 1 else r.usageCount v) = r.usageCount f
  kept : ∀ f, r.evictable f = false → r'.usageCount f = r.usageCount f
  hand : r'.hand = (v + 1) % r.capacity
  capacity : r'.capacity = r.capacity

/-- What the rounds took off a candidate that was not claimed. -/
theorem Swept.drop (h : Swept (r.rank v) r r') (h0 : 0 < r.capacity) (hf : r.evictable f = true) :
    r'.usageCount f + (if r.ahead f < r.ahead v then r.usageCount v + 1 else r.usageCount v) = r.usageCount f := by
  have hcap := h.passed.capacity
  have ha' : r'.ahead f < r.capacity := hcap ▸ ahead_lt (hcap.symm ▸ h0)
  have hav : r.ahead v < r.capacity := ahead_lt h0
  have hsum : (r'.usageCount f + r.usageCount v) * r.capacity + (r'.ahead f + r.ahead v) =
      r.usageCount f * r.capacity + r.ahead f := by
    calc (r'.usageCount f + r.usageCount v) * r.capacity + (r'.ahead f + r.ahead v)
        = r'.rank f + r.rank v := by rw [Replacer.rank, Replacer.rank, hcap, Nat.add_mul, Nat.add_add_add_comm]
      _ = r.rank f := h.rank f hf
  rcases carry (by omega) (ahead_lt h0) hsum with ⟨hx, hu⟩ | ⟨hx, hu⟩
  · rw [if_neg (by omega), hu]
  · rw [if_pos (by omega), ← hu]
    omega

theorem Counted.chooses (h : r.Counted) (hmax : ∀ f, r.usageCount f ≤ kMaxUsageCount)
    (hsome : ∃ f, r.evictable f = true) :
    ∃ v r', Replacer.sweep ((kMaxUsageCount + 1) * r.capacity) r = .inl (v, r') ∧ Chosen r v r' := by
  obtain ⟨f₀, hf₀⟩ := hsome
  have h0 : 0 < r.capacity := Nat.zero_lt_of_lt (h.inside f₀ hf₀)
  obtain ⟨v, hv, hleast⟩ := Finset.exists_min_image ((Finset.range r.capacity).filter fun f => r.evictable f = true)
    r.rank ⟨f₀, Finset.mem_filter.mpr ⟨Finset.mem_range.mpr (h.inside f₀ hf₀), hf₀⟩⟩
  have hcand := (Finset.mem_filter.mp hv).2
  have hmin : ∀ f, r.evictable f = true → r.rank v ≤ r.rank f := fun f hf =>
    hleast f (Finset.mem_filter.mpr ⟨Finset.mem_range.mpr (h.inside f hf), hf⟩)
  have hbound : r.rank v < (kMaxUsageCount + 1) * r.capacity := by
    have hmul := Nat.mul_le_mul_right r.capacity (hmax v)
    have ha := ahead_lt (f := v) h0
    rw [Replacer.rank, Nat.succ_mul]
    omega
  obtain ⟨r', hs, rfl, hsweep⟩ := sweep_least h hcand rfl hmin hbound
  have hpos : r.evictableCount ≠ 0 := by
    rw [Ne, h.count_zero]
    exact fun hall => by simp [hall] at hcand
  refine ⟨_, _, hsweep, ?_⟩
  exact {
    candidate := hcand
    least := fun f hf => of_rank_le h0 (hmin f hf)
    evictable := by rw [← hs.passed.evictable]
    count := by
      show r'.evictableCount - 1 + 1 = r.evictableCount
      rw [hs.count]
      omega
    reset := Function.update_self ..
    drop := fun f hf hne => by
      rw [← hs.drop h0 hf]
      exact congrArg (· + _) (Function.update_of_ne hne _ _)
    kept := fun f hf => by
      have hne : f ≠ r'.hand := by
        rintro rfl
        simp [hcand] at hf
      rw [← hs.kept f hf]
      exact Function.update_of_ne hne _ _
    hand := by rw [← hs.passed.capacity]
    capacity := hs.passed.capacity }

/-- The fallback is dead: with credits of at most 3 the answer is the bounded sweep's. -/
theorem Counted.evict_chooses (h : r.Counted) (hmax : ∀ f, r.usageCount f ≤ kMaxUsageCount)
    (hsome : ∃ f, r.evictable f = true) :
    ∃ v r', r.evict = some (some v, r') ∧ Replacer.sweep ((kMaxUsageCount + 1) * r.capacity) r = .inl (v, r') ∧
      Chosen r v r' := by
  obtain ⟨v, r', hsweep, hch⟩ := h.chooses hmax hsome
  have hpos := hch.count
  refine ⟨v, r', ?_, hsweep, hch⟩
  rw [Replacer.evict, if_neg (by omega), hsweep]

/-! Histories. -/

inductive Call where
  | recordAccess (f : Nat)
  | setEvictable (f : Nat) (evictable : Bool)
  | evict
  deriving DecidableEq, Repr

/-- One call; the frame is asserted to be one of the replacer's. -/
def step (r : Replacer) : Call → Option Replacer
  | .recordAccess f => if f < r.capacity then some (r.recordAccess f) else none
  | .setEvictable f evictable => if f < r.capacity then some (r.setEvictable f evictable) else none
  | .evict => r.evict.map Prod.snd

/-- What holds after any history. -/
structure Inv (n : Nat) (r : Replacer) : Prop where
  counted : r.Counted
  capacity : r.capacity = n
  capped : ∀ f, r.usageCount f ≤ kMaxUsageCount

theorem inv_new (n : Nat) : Inv n (new n) where
  counted := counted_new n
  capacity := rfl
  capped _ := Nat.zero_le _

theorem recordAccess_capped (h : ∀ f, r.usageCount f ≤ kMaxUsageCount) (g : Nat) :
    (r.recordAccess f).usageCount g ≤ kMaxUsageCount := by
  unfold recordAccess
  split
  · next hlt =>
    show Function.update r.usageCount f (r.usageCount f + 1) g ≤ kMaxUsageCount
    by_cases hg : g = f
    · subst hg
      rw [Function.update_self]
      exact hlt
    · rw [Function.update_of_ne hg]
      exact h g
  · exact h g

theorem setEvictable_usageCount (b : Bool) : (r.setEvictable f b).usageCount = r.usageCount := by
  unfold setEvictable
  split <;> rfl

/-- No count goes up in an eviction. -/
theorem Chosen.usage_le (h : Chosen r v r') (f : Nat) : r'.usageCount f ≤ r.usageCount f := by
  by_cases hf : r.evictable f = true
  · by_cases hv : f = v
    · subst hv
      rw [h.reset]
      exact Nat.zero_le _
    · have := h.drop f hf hv
      omega
  · rw [h.kept f (by simpa using hf)]

theorem Inv.step {n : Nat} {c : Call} (h : Inv n r) (hs : r.step c = some r') : Inv n r' := by
  cases c with
  | recordAccess f =>
    simp only [Replacer.step, Option.ite_none_right_eq_some, Option.some.injEq] at hs
    obtain ⟨-, rfl⟩ := hs
    exact ⟨h.counted.recordAccess f, recordAccess_capacity.trans h.capacity, recordAccess_capped h.capped⟩
  | setEvictable f b =>
    simp only [Replacer.step, Option.ite_none_right_eq_some, Option.some.injEq] at hs
    obtain ⟨hf, rfl⟩ := hs
    refine ⟨h.counted.setEvictable hf b, (setEvictable_capacity b).trans h.capacity, ?_⟩
    rw [setEvictable_usageCount]
    exact h.capped
  | evict =>
    obtain ⟨⟨o, r₁⟩, he, rfl⟩ := Option.map_eq_some_iff.mp hs
    rcases h.counted.evict_spec with ⟨v, r₂, he', hcl⟩ | ⟨he', -⟩
    · have hsome : ∃ f, r.evictable f = true := ⟨v, hcl.candidate⟩
      obtain ⟨w, r₃, he'', -, hch⟩ := h.counted.evict_chooses h.capped hsome
      rw [he] at he' he''
      cases he'
      cases he''
      exact ⟨hcl.counted, hcl.capacity.trans h.capacity, fun f => (hch.usage_le f).trans (h.capped f)⟩
    · rw [he] at he'
      cases he'
      exact h

/-- After any history of calls on a replacer of `n` frames: the count is right, credits are at most 3, and an
eviction answers by the rules of the clock, out of its bounded sweep. -/
theorem clock_takes_least {n : Nat} (hn : 1 ≤ n) (h : Machine.Reaches step Machine.anyStep (new n) r) :
    r.evictableCount = ((List.range n).filter r.evictable).length ∧
    (∀ f < n, r.usageCount f ≤ 3) ∧
    r.hand < n ∧
    (r.evict = some (none, r) ↔ ∀ f < n, r.evictable f = false) ∧
    ((∃ f < n, r.evictable f = true) →
      ∃ v r', v < n ∧ r.evict = some (some v, r') ∧ sweep (4 * n) r = .inl (v, r') ∧ Chosen r v r') := by
  have hinv : Inv n r := h.invariant (inv_new n) fun hi _ hs => hi.step hs
  obtain ⟨hc, rfl, hmax⟩ := hinv
  have hchoose : (∃ f < r.capacity, r.evictable f = true) →
      ∃ v r', v < r.capacity ∧ r.evict = some (some v, r') ∧ sweep (4 * r.capacity) r = .inl (v, r') ∧
        Chosen r v r' := by
    rintro ⟨f, -, hf⟩
    obtain ⟨v, r', he, hs, hch⟩ := hc.evict_chooses hmax ⟨f, hf⟩
    exact ⟨v, r', hc.inside v hch.candidate, he, hs, hch⟩
  refine ⟨hc.count, fun f _ => hmax f, hc.hand hn, ⟨fun he => ?_, fun hall => ?_⟩, hchoose⟩
  · intro f hf
    by_contra hev
    obtain ⟨v, r', -, he', -, -⟩ := hchoose ⟨f, hf, by simpa using hev⟩
    rw [he] at he'
    cases he'
  · have hzero : r.evictableCount = 0 := hc.count_zero.mpr fun f => by
      by_contra hev
      have hev' : r.evictable f = true := by simpa using hev
      rw [hall f (hc.inside f hev')] at hev'
      cases hev'
    rw [evict, if_pos hzero]

/-- Three candidates, the first of them accessed: the hand passes it and takes the second. -/
theorem clock_takes_least_secondChance :
    ∃ r, Machine.Reaches step Machine.anyStep (new 3) r ∧ r.evict.map Prod.fst = some (some 1) ∧
      ∃ r', Chosen r 1 r' ∧ r'.usageCount 0 = 0 ∧ r'.usageCount 2 = 0 := by
  let r := (((new 3).setEvictable 0 true).setEvictable 1 true).setEvictable 2 true |>.recordAccess 0
  have hrun : Machine.exec step [.setEvictable 0 true, .setEvictable 1 true, .setEvictable 2 true, .recordAccess 0]
      (new 3) = some r := rfl
  have hreach : Machine.Reaches step Machine.anyStep (new 3) r := .of_exec .start hrun
  have hvictim : r.evict.map Prod.fst = some (some 1) := by decide
  obtain ⟨v, r', -, he, -, hch⟩ := (clock_takes_least (by decide) hreach).2.2.2.2 ⟨0, by decide, by decide⟩
  rw [he] at hvictim
  cases hvictim
  refine ⟨r, hreach, by rw [he]; rfl, r', hch, ?_, ?_⟩
  · have := hch.drop 0 (by decide) (by decide)
    rwa [if_pos (by decide), show r.usageCount 1 = 0 from by decide, show r.usageCount 0 = 1 from by decide,
      Nat.zero_add, Nat.add_eq_right] at this
  · have := hch.drop 2 (by decide) (by decide)
    rwa [if_neg (by decide), show r.usageCount 1 = 0 from by decide] at this

end KernSql.Replacer
