import Mathlib

/- The clock replacer (src/buffer/replacer.hpp).

   A sweep over the frames with one hand: a candidate with no credit left is the
   victim, a candidate with credit loses one and is passed over. The sweep is
   bounded by four turns; after that the next candidate is taken whatever its
   credit. A frame index is below `capacity`, the size of both vectors.

   The rest of the pool needs three things of it: a victim is a candidate, it
   leaves the set, and there is none exactly when the set is empty (`evict_spec`).
   The last one rests on the count being the size of the set (`Counted`). -/
namespace KernSql

structure Replacer where
  capacity : Nat
  usageCount : Nat → Nat
  evictable : Nat → Bool
  hand : Nat
  evictableCount : Nat

namespace Replacer

def kMaxUsageCount : Nat := 3

def new (capacity : Nat) : Replacer := ⟨capacity, fun _ => 0, fun _ => false, 0, 0⟩

def recordAccess (r : Replacer) (f : Nat) : Replacer :=
  if r.usageCount f < kMaxUsageCount then
    { r with usageCount := Function.update r.usageCount f (r.usageCount f + 1) }
  else r

def setEvictable (r : Replacer) (f : Nat) (evictable : Bool) : Replacer :=
  if r.evictable f = evictable then r
  else { r with
    evictable := Function.update r.evictable f evictable
    evictableCount := if evictable then r.evictableCount + 1 else r.evictableCount - 1 }

def advance (r : Replacer) : Replacer := { r with hand := (r.hand + 1) % r.capacity }

def claimVictim (r : Replacer) : Nat × Replacer :=
  (r.hand, { r with
    evictable := Function.update r.evictable r.hand false
    evictableCount := r.evictableCount - 1
    usageCount := Function.update r.usageCount r.hand 0
    hand := (r.hand + 1) % r.capacity })

/-- The bounded sweep: a victim, or the hand where it stopped. -/
def sweep : Nat → Replacer → (Nat × Replacer) ⊕ Replacer
  | 0, r => .inr r
  | n + 1, r =>
    if r.evictable r.hand = false then sweep n r.advance
    else if r.usageCount r.hand = 0 then .inl r.claimVictim
    else sweep n { r with usageCount := Function.update r.usageCount r.hand (r.usageCount r.hand - 1) }.advance

/-- The loop after the sweep, which ends at the next candidate; `none` when it goes round for ever. -/
def seek : Nat → Replacer → Option (Nat × Replacer)
  | 0, _ => none
  | n + 1, r => if r.evictable r.hand then some r.claimVictim else seek n r.advance

def evict (r : Replacer) : Option (Option Nat × Replacer) :=
  if r.evictableCount = 0 then some (none, r)
  else match sweep ((kMaxUsageCount + 1) * r.capacity) r with
    | .inl (v, r') => some (some v, r')
    | .inr r' => (seek r.capacity r').map fun (v, r'') => (some v, r'')

/-! The set of candidates. -/

/-- The count is the size of the set, and the hand points at a frame. -/
structure Counted (r : Replacer) : Prop where
  count : r.evictableCount = ((List.range r.capacity).filter r.evictable).length
  inside : ∀ f, r.evictable f = true → f < r.capacity
  hand : 0 < r.capacity → r.hand < r.capacity

variable {r : Replacer} {f : Nat}

theorem counted_new (capacity : Nat) : (new capacity).Counted where
  count := by simp [new]
  inside _ h := by simp [new] at h
  hand h := h

/-- One frame more or less in the set. -/
theorem filter_update_length {e : Nat → Bool} {n f : Nat} (hf : f < n) :
    ((List.range n).filter (Function.update e f true)).length =
      ((List.range n).filter (Function.update e f false)).length + 1 := by
  induction n with
  | zero => omega
  | succ n ih =>
    rw [List.range_succ, List.filter_append, List.filter_append, List.length_append, List.length_append]
    by_cases hfn : f = n
    · subst hfn
      have hsame : (List.range f).filter (Function.update e f true) =
          (List.range f).filter (Function.update e f false) := by
        apply List.filter_congr
        intro x hx
        have hne : x ≠ f := by
          have := List.mem_range.mp hx
          omega
        rw [Function.update_of_ne hne, Function.update_of_ne hne]
      rw [hsame]
      simp
    · have hlast : [n].filter (Function.update e f true) = [n].filter (Function.update e f false) := by
        apply List.filter_congr
        intro x hx
        have hne : x ≠ f := by
          have := List.mem_singleton.mp hx
          omega
        rw [Function.update_of_ne hne, Function.update_of_ne hne]
      rw [hlast, ih (by omega)]
      omega

theorem setEvictable_evictable (b : Bool) : (r.setEvictable f b).evictable = Function.update r.evictable f b := by
  unfold setEvictable
  split
  · next h => rw [← h, Function.update_eq_self]
  · rfl

@[simp] theorem setEvictable_capacity (b : Bool) : (r.setEvictable f b).capacity = r.capacity := by
  unfold setEvictable
  split <;> rfl

@[simp] theorem recordAccess_capacity : (r.recordAccess f).capacity = r.capacity := by
  unfold recordAccess
  split <;> rfl

@[simp] theorem recordAccess_evictable : (r.recordAccess f).evictable = r.evictable := by
  unfold recordAccess
  split <;> rfl

theorem Counted.recordAccess (h : r.Counted) (f : Nat) : (r.recordAccess f).Counted := by
  unfold Replacer.recordAccess
  split
  · exact ⟨h.count, h.inside, h.hand⟩
  · exact h

theorem Counted.setEvictable (h : r.Counted) (hf : f < r.capacity) (b : Bool) : (r.setEvictable f b).Counted := by
  unfold Replacer.setEvictable
  split
  · exact h
  · next hne =>
    have hcount : r.evictableCount =
        ((List.range r.capacity).filter (Function.update r.evictable f (!b))).length := by
      rw [← Bool.eq_not_of_ne hne, Function.update_eq_self]
      exact h.count
    have hdiff := filter_update_length (e := r.evictable) hf
    refine ⟨?_, fun g hg => ?_, h.hand⟩
    · cases b with
      | false =>
        rw [Bool.not_false] at hcount
        show r.evictableCount - 1 = ((List.range r.capacity).filter (Function.update r.evictable f false)).length
        omega
      | true =>
        rw [Bool.not_true] at hcount
        show r.evictableCount + 1 = ((List.range r.capacity).filter (Function.update r.evictable f true)).length
        omega
    · by_cases hgf : g = f
      · exact hgf ▸ hf
      · exact h.inside g (by rw [← hg]; exact (Function.update_of_ne hgf _ _).symm)

/-- What a victim's leaving does to the set. -/
structure Claimed (r : Replacer) (v : Nat) (r' : Replacer) : Prop where
  candidate : r.evictable v = true
  evictable : r'.evictable = Function.update r.evictable v false
  capacity : r'.capacity = r.capacity
  counted : r'.Counted

theorem Counted.claimVictim (h : r.Counted) (hc : r.evictable r.hand = true) :
    Claimed r r.claimVictim.1 r.claimVictim.2 := by
  have hin := h.inside r.hand hc
  have hset := h.setEvictable hin false
  refine ⟨hc, rfl, rfl, ⟨?_, fun g hg => ?_, fun h0 => Nat.mod_lt _ h0⟩⟩
  · have := hset.count
    rw [setEvictable_evictable, setEvictable_capacity] at this
    rw [Replacer.setEvictable, hc, if_neg (by decide)] at this
    exact this
  · have := hset.inside g
    rw [setEvictable_evictable, setEvictable_capacity] at this
    exact this hg

/-- Passing a frame over changes neither the set nor its size. -/
structure Passed (r r' : Replacer) : Prop where
  evictable : r'.evictable = r.evictable
  capacity : r'.capacity = r.capacity
  counted : r'.Counted

theorem Passed.claimed {r' r'' : Replacer} {v : Nat} (h : Passed r r') (h' : Claimed r' v r'') : Claimed r v r'' :=
  ⟨h.evictable ▸ h'.candidate, h.evictable ▸ h'.evictable, h'.capacity.trans h.capacity, h'.counted⟩

theorem Passed.trans {r' r'' : Replacer} (h : Passed r r') (h' : Passed r' r'') : Passed r r'' :=
  ⟨h'.evictable.trans h.evictable, h'.capacity.trans h.capacity, h'.counted⟩

theorem Passed.elim {r' : Replacer} (h : Passed r r') {x : (Nat × Replacer) ⊕ Replacer}
    (hx : Sum.elim (fun x => Claimed r' x.1 x.2) (Passed r') x) :
    Sum.elim (fun x => Claimed r x.1 x.2) (Passed r) x := by
  cases x with
  | inl y => exact h.claimed hx
  | inr y => exact h.trans hx

theorem Counted.advance (h : r.Counted) : Passed r r.advance :=
  ⟨rfl, rfl, h.count, h.inside, fun h0 => Nat.mod_lt _ h0⟩

theorem Counted.sweep : ∀ (n : Nat) {r : Replacer}, r.Counted →
    Sum.elim (fun x => Claimed r x.1 x.2) (Passed r) (Replacer.sweep n r)
  | 0, _, h => ⟨rfl, rfl, h⟩
  | n + 1, r, h => by
    unfold Replacer.sweep
    by_cases hc : r.evictable r.hand = false
    · -- Not a candidate: the hand moves on.
      rw [if_pos hc]
      exact h.advance.elim (Counted.sweep n h.advance.counted)
    · rw [if_neg hc]
      by_cases hu : r.usageCount r.hand = 0
      · rw [if_pos hu]
        exact h.claimVictim (by simpa using hc)
      · -- A candidate with credit loses one.
        rw [if_neg hu]
        have hpaid : Passed r { r with
            usageCount := Function.update r.usageCount r.hand (r.usageCount r.hand - 1) }.advance :=
          ⟨rfl, rfl, h.count, h.inside, fun h0 => Nat.mod_lt _ h0⟩
        exact hpaid.elim (Counted.sweep n hpaid.counted)

/-- From the hand, a candidate `k` frames ahead is found in `k + 1` rounds. -/
theorem Counted.seek : ∀ (n : Nat) {r : Replacer}, r.Counted →
    (∃ k < n, r.evictable ((r.hand + k) % r.capacity) = true) →
    ∃ v r', Replacer.seek n r = some (v, r') ∧ Claimed r v r'
  | 0, _, _, ⟨_, hk, _⟩ => absurd hk (Nat.not_lt_zero _)
  | n + 1, r, h, ⟨k, hk, hev⟩ => by
    unfold Replacer.seek
    split
    · next hc => exact ⟨_, _, rfl, h.claimVictim hc⟩
    · next hc =>
      have h0 : 0 < r.capacity := Nat.lt_of_le_of_lt (Nat.zero_le _) (h.inside _ hev)
      -- The hand itself is no candidate, so the one ahead is at least one frame away.
      cases k with
      | zero => exact absurd (by rwa [Nat.add_zero, Nat.mod_eq_of_lt (h.hand h0)] at hev) hc
      | succ k =>
        have hev' : r.advance.evictable ((r.advance.hand + k) % r.advance.capacity) = true := by
          show r.evictable (((r.hand + 1) % r.capacity + k) % r.capacity) = true
          rw [Nat.mod_add_mod]
          rwa [Nat.add_right_comm, Nat.add_assoc]
        obtain ⟨v, r', hs, hcl⟩ := Counted.seek n h.advance.counted ⟨k, by omega, hev'⟩
        exact ⟨v, r', hs, h.advance.claimed hcl⟩

theorem Counted.ahead (h : r.Counted) (hf : r.evictable f = true) :
    ∃ k < r.capacity, r.evictable ((r.hand + k) % r.capacity) = true := by
  have hin := h.inside f hf
  have hh := h.hand (by omega)
  by_cases hle : r.hand ≤ f
  · refine ⟨f - r.hand, by omega, ?_⟩
    rwa [Nat.add_sub_cancel' hle, Nat.mod_eq_of_lt hin]
  · refine ⟨f + r.capacity - r.hand, by omega, ?_⟩
    rw [show r.hand + (f + r.capacity - r.hand) = f + r.capacity by omega, Nat.add_mod_right, Nat.mod_eq_of_lt hin]
    exact hf

theorem Counted.count_zero (h : r.Counted) : r.evictableCount = 0 ↔ ∀ f, r.evictable f = false := by
  rw [h.count, List.length_eq_zero_iff, List.filter_eq_nil_iff]
  constructor
  · intro hall f
    by_contra hf
    have hf' : r.evictable f = true := by simpa using hf
    exact hall f (List.mem_range.mpr (h.inside f hf')) hf'
  · intro hall f _
    simp [hall f]

/-- No victim, no change. -/
theorem evict_none {r' : Replacer} (h : r.evict = some (none, r')) : r' = r := by
  unfold evict at h
  split at h
  · cases h
    rfl
  split at h
  · cases h
  · obtain ⟨x, -, hx⟩ := Option.map_eq_some_iff.mp h
    cases hx

/-- A candidate leaves the set, or there is none. -/
theorem Counted.evict_spec (h : r.Counted) :
    (∃ v r', r.evict = some (some v, r') ∧ Claimed r v r') ∨
      (r.evict = some (none, r) ∧ ∀ f, r.evictable f = false) := by
  unfold evict
  split
  · next h0 => exact .inr ⟨rfl, h.count_zero.mp h0⟩
  · next h0 =>
    refine .inl ?_
    have hsweep := h.sweep ((kMaxUsageCount + 1) * r.capacity)
    cases hs : Replacer.sweep ((kMaxUsageCount + 1) * r.capacity) r with
    | inl x =>
      rw [hs] at hsweep
      exact ⟨x.1, x.2, rfl, hsweep⟩
    | inr r' =>
      rw [hs] at hsweep
      have hsome : ∃ f, r.evictable f = true := by
        by_contra hn
        exact h0 (h.count_zero.mpr fun f => by simpa using fun hf => hn ⟨f, hf⟩)
      obtain ⟨f, hf⟩ := hsome
      obtain ⟨v, r'', hk, hcl⟩ := hsweep.counted.seek r.capacity
        (hsweep.capacity ▸ hsweep.counted.ahead (f := f) (by rw [hsweep.evictable]; exact hf))
      exact ⟨v, r'', by simp [hk], hsweep.claimed hcl⟩

end Replacer
end KernSql
