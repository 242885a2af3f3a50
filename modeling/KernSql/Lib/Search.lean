import Mathlib

/- Binary search over a bounded index range, and the prefix it finds.

   `bsearch w p fuel lo hi` is the half-open loop: test the middle, move `lo`
   past it when the test holds and `hi` down to it when it does not, stop when
   they meet. Indices are kept modulo `w`, the size of the machine word. The
   test is partial (`none` is a read that must not happen) and the fuel is a
   bound on the iterations; `bsearch_eq` says that for a test true exactly below
   `c` the search ends at `c` within `hi - lo` iterations. `states` is the list of
   `(lo, hi)` the loop goes through, and `within_states` says of any test that no
   iteration wraps or leaves `[lo, hi)`. -/
namespace Search

def bsearch (w : Nat) (p : Nat → Option Bool) : Nat → Nat → Nat → Option Nat
  | 0, _, _ => none
  | fuel + 1, lo, hi =>
    if lo < hi then
      let mid := (lo + (hi - lo) / 2) % w
      match p mid with
      | none => none
      | some true => bsearch w p fuel ((mid + 1) % w) hi
      | some false => bsearch w p fuel lo mid
    else some lo

theorem bsearch_eq {w : Nat} {p : Nat → Option Bool} {c : Nat} : ∀ (fuel lo hi : Nat),
    lo ≤ c → c ≤ hi → hi < w → hi - lo < fuel →
    (∀ i, lo ≤ i → i < hi → p i = some (decide (i < c))) → bsearch w p fuel lo hi = some c
  | 0, _, _, _, _, _, hf, _ => by omega
  | fuel + 1, lo, hi, hlo, hhi, hw, hf, hp => by
    unfold bsearch
    by_cases hlt : lo < hi
    · have hmid : (lo + (hi - lo) / 2) % w = lo + (hi - lo) / 2 := Nat.mod_eq_of_lt (by omega)
      simp only [hlt, if_true, hmid]
      rw [hp _ (by omega) (by omega)]
      by_cases hc : lo + (hi - lo) / 2 < c
      · simp only [hc, decide_true]
        have hnext : (lo + (hi - lo) / 2 + 1) % w = lo + (hi - lo) / 2 + 1 :=
          Nat.mod_eq_of_lt (by omega)
        rw [hnext]
        exact bsearch_eq fuel _ hi (by omega) hhi hw (by omega) (fun i h1 h2 => hp i (by omega) h2)
      · simp only [hc, decide_false]
        exact bsearch_eq fuel lo _ hlo (by omega) (by omega) (by omega)
          (fun i h1 h2 => hp i h1 (by omega))
    · rw [if_neg hlt, show lo = c by omega]

/-! The iterations. -/

/-- The index an iteration tests. -/
def middle (s : Nat × Nat) : Nat := s.1 + (s.2 - s.1) / 2

/-- `(lo, hi)` at the head of each iteration. -/
def states (w : Nat) (p : Nat → Option Bool) : Nat → Nat → Nat → List (Nat × Nat)
  | 0, _, _ => []
  | fuel + 1, lo, hi =>
    if lo < hi then
      let mid := (lo + (hi - lo) / 2) % w
      (lo, hi) :: match p mid with
        | none => []
        | some true => states w p fuel ((mid + 1) % w) hi
        | some false => states w p fuel lo mid
    else []

/-- An iteration tests an index of `[first, last)`, and neither that index nor the one after it is cut to the word. -/
structure Within (w first last : Nat) (s : Nat × Nat) : Prop where
  lo_lt_hi : s.1 < s.2
  first_le : first ≤ middle s
  lt_last : middle s < last
  fits : middle s + 1 < w

theorem Within.mono {w first last first' last' : Nat} {s : Nat × Nat} (h : Within w first last s)
    (hf : first' ≤ first) (hl : last ≤ last') : Within w first' last' s :=
  ⟨h.lo_lt_hi, hf.trans h.first_le, h.lt_last.trans_le hl, h.fits⟩

theorem within_states {w : Nat} {p : Nat → Option Bool} : ∀ (fuel lo hi : Nat), hi < w →
    ∀ s ∈ states w p fuel lo hi, Within w lo hi s
  | 0, _, _, _, s, hs => by simp [states] at hs
  | fuel + 1, lo, hi, hw, s, hs => by
    unfold states at hs
    by_cases hlt : lo < hi
    · have hmid : (lo + (hi - lo) / 2) % w = lo + (hi - lo) / 2 := Nat.mod_eq_of_lt (by omega)
      have hnext : (lo + (hi - lo) / 2 + 1) % w = lo + (hi - lo) / 2 + 1 := Nat.mod_eq_of_lt (by omega)
      simp only [hlt, if_true, hmid, hnext, List.mem_cons] at hs
      rcases hs with rfl | hs
      · constructor
        · exact hlt
        · show lo ≤ lo + (hi - lo) / 2
          omega
        · show lo + (hi - lo) / 2 < hi
          omega
        · show lo + (hi - lo) / 2 + 1 < w
          omega
      · split at hs
        · simp at hs
        · exact (within_states fuel _ hi hw s hs).mono (by omega) le_rfl
        · exact (within_states fuel lo _ (by omega) s hs).mono le_rfl (by omega)
    · simp [hlt] at hs

/-- Every iteration makes the range smaller. -/
theorem length_states_le {w : Nat} {p : Nat → Option Bool} : ∀ (fuel lo hi : Nat), hi < w →
    (states w p fuel lo hi).length ≤ hi - lo
  | 0, _, _, _ => by simp [states]
  | fuel + 1, lo, hi, hw => by
    unfold states
    by_cases hlt : lo < hi
    · have hmid : (lo + (hi - lo) / 2) % w = lo + (hi - lo) / 2 := Nat.mod_eq_of_lt (by omega)
      have hnext : (lo + (hi - lo) / 2 + 1) % w = lo + (hi - lo) / 2 + 1 := Nat.mod_eq_of_lt (by omega)
      simp only [hlt, if_true, hmid, hnext, List.length_cons]
      split
      · simp
        omega
      · have := length_states_le (p := p) fuel (lo + (hi - lo) / 2 + 1) hi hw
        omega
      · have := length_states_le (w := w) (p := p) fuel lo (lo + (hi - lo) / 2) (by omega)
        omega
    · simp [hlt]

/-- The search looks at its test only where an iteration is. -/
theorem bsearch_congr {w : Nat} {p q : Nat → Option Bool} : ∀ (fuel lo hi : Nat), hi < w →
    (∀ s ∈ states w p fuel lo hi, q (middle s) = p (middle s)) →
    bsearch w q fuel lo hi = bsearch w p fuel lo hi
  | 0, _, _, _, _ => rfl
  | fuel + 1, lo, hi, hw, h => by
    unfold bsearch
    unfold states at h
    by_cases hlt : lo < hi
    · have hmid : (lo + (hi - lo) / 2) % w = lo + (hi - lo) / 2 := Nat.mod_eq_of_lt (by omega)
      simp only [hlt, if_true, hmid, List.mem_cons, forall_eq_or_imp] at h ⊢
      obtain ⟨hhere, hrest⟩ := h
      rw [show q (lo + (hi - lo) / 2) = p (lo + (hi - lo) / 2) from hhere]
      split
      · rfl
      · next hp =>
        rw [hp] at hrest
        have hnext : (lo + (hi - lo) / 2 + 1) % w = lo + (hi - lo) / 2 + 1 := Nat.mod_eq_of_lt (by omega)
        simp only [hnext] at hrest ⊢
        exact bsearch_congr fuel _ hi hw hrest
      · next hp =>
        rw [hp] at hrest
        exact bsearch_congr fuel lo _ (by omega) hrest
    · simp only [hlt, if_false]

/-! Tests that hold on a prefix of a list. -/

section Leading
variable {α : Type} {p : α → Bool} {l : List α}

/-- `p` holds on a leading part of `l` and nowhere after it. -/
def Leading (p : α → Bool) (l : List α) : Prop := l.Pairwise fun x y => p y = true → p x = true

theorem Leading.countP_zero {a : α} (h : Leading p (a :: l)) (ha : p a = false) :
    l.countP p = 0 := by
  rw [List.countP_eq_zero]
  intro b hb hpb
  have := (List.pairwise_cons.mp h).1 b hb hpb
  simp [ha] at this

/-- The test at index `i` is whether `i` is below the number of entries that pass. -/
theorem Leading.getElem {l : List α} (h : Leading p l) (i : Nat) (hi : i < l.length) :
    p l[i] = decide (i < l.countP p) := by
  induction l generalizing i with
  | nil => simp at hi
  | cons a l ih =>
    have htail : Leading p l := (List.pairwise_cons.mp h).2
    cases ha : p a with
    | true =>
      cases i with
      | zero => simp [ha]
      | succ i => simp [ih htail i (by simpa using hi), ha]
    | false =>
      have hz := h.countP_zero ha
      have hall : ∀ b ∈ a :: l, p b = false := by
        intro b hb
        rcases List.mem_cons.mp hb with rfl | hb
        · exact ha
        · simpa using List.countP_eq_zero.mp hz b hb
      rw [hall _ (List.getElem_mem hi)]
      simp [hz, ha]

theorem Leading.take {l : List α} (h : Leading p l) : ∀ x ∈ l.take (l.countP p), p x = true := by
  intro x hx
  obtain ⟨i, hi, rfl⟩ := List.mem_iff_getElem.mp hx
  simp only [List.length_take] at hi
  rw [List.getElem_take, h.getElem i (by omega)]
  simp; omega

theorem Leading.drop {l : List α} (h : Leading p l) : ∀ x ∈ l.drop (l.countP p), p x = false := by
  intro x hx
  obtain ⟨i, hi, rfl⟩ := List.mem_iff_getElem.mp hx
  simp only [List.length_drop] at hi
  rw [List.getElem_drop, h.getElem _ (by omega)]
  simp

end Leading
end Search
