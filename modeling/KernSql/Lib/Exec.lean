import Mathlib

/- Programs that change a state, may return an error, and may go wrong.

   `Exec σ ε α` runs from a state to a result and the state it leaves. There
   are three ways to end: a value, an error of type `ε` that the caller sees (the
   state keeps every change made before it), and `none`, which is no result at
   all: a failed assertion, an access outside a buffer, a program that waits for
   itself. `wp m Q E s` says that `m` run from `s` does not go wrong, leaves a
   state satisfying `Q` when it returns and `E` when it fails. The rules below
   take a program apart at its binds, so a caller's proof uses the
   specification of what it calls (`wp_call`) and never its body. -/

/-- A run from a state to a result and a state; `none` is a run gone wrong. -/
def Exec (σ ε α : Type) := σ → Option (Except ε α × σ)

/-- An assertion inside a pure computation: `none` when it fails. -/
def require (c : Prop) [Decidable c] : Option Unit := if c then some () else none

@[simp] theorem require_pos {c : Prop} [Decidable c] (h : c) : require c = some () := if_pos h

theorem of_require {c : Prop} [Decidable c] {u : Unit} (h : require c = some u) : c := by
  unfold require at h
  split at h
  · assumption
  · cases h

namespace Exec
variable {σ ε α β : Type}

def ret (a : α) : Exec σ ε α := fun s => some (.ok a, s)

def andThen (m : Exec σ ε α) (f : α → Exec σ ε β) : Exec σ ε β := fun s =>
  match m s with
  | none => none
  | some (.error e, s') => some (.error e, s')
  | some (.ok a, s') => f a s'

instance : Monad (Exec σ ε) where
  pure := ret
  bind := andThen

/-- Fail with `e`. -/
def fail (e : ε) : Exec σ ε α := fun s => some (.error e, s)

/-- A result that must be there. -/
def lift (o : Option α) : Exec σ ε α := fun s => o.map fun a => (.ok a, s)

def get : Exec σ ε σ := fun s => some (.ok s, s)

def modify (f : σ → σ) : Exec σ ε Unit := fun s => some (.ok (), f s)

/-- An assertion: goes wrong when it fails. -/
def check (c : Prop) [Decidable c] : Exec σ ε Unit := fun s => if c then some (.ok (), s) else none

/-- Run `m` and hand its error to the caller as a value. -/
def attempt (m : Exec σ ε α) : Exec σ ε (Except ε α) := fun s =>
  match m s with
  | none => none
  | some (r, s') => some (.ok r, s')

/-- Run `m`, whose failure would be a bug: an error goes wrong. -/
def orFault (m : Exec σ ε α) : Exec σ ε α := fun s =>
  match m s with
  | some (.ok a, s') => some (.ok a, s')
  | _ => none

/-- Run `m` and apply `f` to the state it started from and the state it leaves,
however it ends. -/
def finally_ (m : Exec σ ε α) (f : σ → σ → σ) : Exec σ ε α := fun s =>
  match m s with
  | none => none
  | some (r, s') => some (r, f s s')

/-- `m` from `s` does not go wrong, and ends as `Q` or `E` say. -/
def wp (m : Exec σ ε α) (Q : α → σ → Prop) (E : ε → σ → Prop) (s : σ) : Prop :=
  match m s with
  | none => False
  | some (.ok a, s') => Q a s'
  | some (.error e, s') => E e s'

section Rules
variable {Q : α → σ → Prop} {R : β → σ → Prop} {E : ε → σ → Prop} {s : σ}

@[simp] theorem wp_pure (a : α) : wp (pure a : Exec σ ε α) Q E s ↔ Q a s := Iff.rfl

@[simp] theorem wp_bind (m : Exec σ ε α) (f : α → Exec σ ε β) :
    wp (m >>= f) R E s ↔ wp m (fun a s' => wp (f a) R E s') E s := by
  show wp (andThen m f) R E s ↔ _
  unfold wp andThen
  rcases m s with _ | ⟨_ | _, _⟩ <;> rfl

@[simp] theorem wp_fail (e : ε) : wp (fail e : Exec σ ε α) Q E s ↔ E e s := Iff.rfl

@[simp] theorem wp_get {Q : σ → σ → Prop} : wp (get : Exec σ ε σ) Q E s ↔ Q s s := Iff.rfl

@[simp] theorem wp_modify (f : σ → σ) {Q : Unit → σ → Prop} :
    wp (modify f : Exec σ ε Unit) Q E s ↔ Q () (f s) := Iff.rfl

@[simp] theorem wp_lift (o : Option α) :
    wp (lift o : Exec σ ε α) Q E s ↔ ∃ a, o = some a ∧ Q a s := by
  cases o <;> simp [wp, lift]

@[simp] theorem wp_check (c : Prop) [Decidable c] {Q : Unit → σ → Prop} :
    wp (check c : Exec σ ε Unit) Q E s ↔ c ∧ Q () s := by
  by_cases h : c <;> simp [wp, check, h]

@[simp] theorem wp_attempt (m : Exec σ ε α) {Q : Except ε α → σ → Prop} :
    wp (attempt m) Q E s ↔ wp m (fun a => Q (.ok a)) (fun e => Q (.error e)) s := by
  unfold wp attempt
  rcases m s with _ | ⟨_ | _, _⟩ <;> rfl

@[simp] theorem wp_orFault (m : Exec σ ε α) :
    wp (orFault m) Q E s ↔ wp m Q (fun _ _ => False) s := by
  unfold wp orFault
  rcases m s with _ | ⟨_ | _, _⟩ <;> rfl

@[simp] theorem wp_finally (m : Exec σ ε α) (f : σ → σ → σ) :
    wp (finally_ m f) Q E s ↔ wp m (fun a s' => Q a (f s s')) (fun e s' => E e (f s s')) s := by
  unfold wp finally_
  rcases m s with _ | ⟨_ | _, _⟩ <;> rfl

@[simp] theorem wp_ite (c : Prop) [Decidable c] (m m' : Exec σ ε α) :
    wp (if c then m else m') Q E s ↔ (c → wp m Q E s) ∧ (¬c → wp m' Q E s) := by
  by_cases h : c <;> simp [h]

/-- Consequence. -/
theorem wp_mono {m : Exec σ ε α} {Q' : α → σ → Prop} {E' : ε → σ → Prop} (h : wp m Q E s)
    (hQ : ∀ a s', Q a s' → Q' a s') (hE : ∀ e s', E e s' → E' e s') : wp m Q' E' s := by
  unfold wp at h ⊢
  rcases hm : m s with _ | ⟨_ | _, _⟩
  · rw [hm] at h; exact h
  · rw [hm] at h; exact hE _ _ h
  · rw [hm] at h; exact hQ _ _ h

/-- A call inside a larger program, by its specification. -/
theorem wp_call {m : Exec σ ε α} {f : α → Exec σ ε β} {E' : ε → σ → Prop} (h : wp m Q E' s)
    (hQ : ∀ a s', Q a s' → wp (f a) R E s') (hE : ∀ e s', E' e s' → E e s') :
    wp (m >>= f) R E s :=
  (wp_bind m f).mpr (wp_mono h hQ hE)

/-- Both specifications of one program hold together. -/
theorem wp_and {m : Exec σ ε α} {Q' : α → σ → Prop} {E' : ε → σ → Prop} (h : wp m Q E s)
    (h' : wp m Q' E' s) :
    wp m (fun a s' => Q a s' ∧ Q' a s') (fun e s' => E e s' ∧ E' e s') s := by
  unfold wp at h h' ⊢
  rcases hm : m s with _ | ⟨_ | _, _⟩
  · rw [hm] at h; exact h
  · rw [hm] at h h'; exact ⟨h, h'⟩
  · rw [hm] at h h'; exact ⟨h, h'⟩

theorem wp_of_ok {m : Exec σ ε α} {a : α} {s' : σ} (h : m s = some (.ok a, s')) (hQ : Q a s') :
    wp m Q E s := by
  unfold wp; rw [h]; exact hQ

theorem wp_of_error {m : Exec σ ε α} {e : ε} {s' : σ} (h : m s = some (.error e, s')) (hE : E e s') :
    wp m Q E s := by
  unfold wp; rw [h]; exact hE

theorem wp_ok {m : Exec σ ε α} {a : α} {s' : σ} (h : wp m Q E s) (hm : m s = some (.ok a, s')) : Q a s' := by
  unfold wp at h
  rw [hm] at h
  exact h

theorem wp_error {m : Exec σ ε α} {e : ε} {s' : σ} (h : wp m Q E s) (hm : m s = some (.error e, s')) : E e s' := by
  unfold wp at h
  rw [hm] at h
  exact h

/-- What a specification says of the run itself. -/
theorem wp_run {m : Exec σ ε α} (h : wp m Q E s) :
    (∃ a s', m s = some (.ok a, s') ∧ Q a s') ∨ (∃ e s', m s = some (.error e, s') ∧ E e s') := by
  unfold wp at h
  rcases hm : m s with _ | ⟨_ | _, _⟩
  · rw [hm] at h; exact h.elim
  · rw [hm] at h; exact .inr ⟨_, _, rfl, h⟩
  · rw [hm] at h; exact .inl ⟨_, _, rfl, h⟩

theorem bind_of_ok {m : Exec σ ε α} {f : α → Exec σ ε β} {a : α} {s' : σ} (h : m s = some (.ok a, s')) :
    (m >>= f) s = f a s' := by
  show andThen m f s = _
  rw [andThen, h]

theorem bind_of_error {m : Exec σ ε α} {f : α → Exec σ ε β} {e : ε} {s' : σ} (h : m s = some (.error e, s')) :
    (m >>= f) s = some (.error e, s') := by
  show andThen m f s = _
  rw [andThen, h]

theorem bind_of_none {m : Exec σ ε α} {f : α → Exec σ ε β} (h : m s = none) : (m >>= f) s = none := by
  show andThen m f s = _
  rw [andThen, h]

theorem check_of_pos {c : Prop} [Decidable c] (h : c) : (check c : Exec σ ε Unit) s = some (.ok (), s) := if_pos h

theorem attempt_of_none {m : Exec σ ε α} (h : m s = none) : attempt m s = none := by
  rw [attempt, h]

/-- A sequence that returned has returned at its bind. -/
theorem bind_eq_ok {m : Exec σ ε α} {f : α → Exec σ ε β} {b : β} {s' : σ} :
    (m >>= f) s = some (.ok b, s') ↔ ∃ a s₁, m s = some (.ok a, s₁) ∧ f a s₁ = some (.ok b, s') := by
  show andThen m f s = _ ↔ _
  unfold andThen
  rcases m s with _ | ⟨_ | _, _⟩ <;> simp

/-- A sequence that failed has failed in its first part or after it. -/
theorem bind_eq_error {m : Exec σ ε α} {f : α → Exec σ ε β} {e : ε} {s' : σ} :
    (m >>= f) s = some (.error e, s') ↔
      m s = some (.error e, s') ∨ ∃ a s₁, m s = some (.ok a, s₁) ∧ f a s₁ = some (.error e, s') := by
  show andThen m f s = _ ↔ _
  unfold andThen
  rcases m s with _ | ⟨_ | _, _⟩ <;> simp

theorem attempt_eq_ok {m : Exec σ ε α} {r : Except ε α} {s' : σ} :
    attempt m s = some (.ok r, s') ↔ m s = some (r, s') := by
  unfold attempt
  rcases m s with _ | ⟨_, _⟩ <;> simp

/-- A run that comes to an end, whatever it ends in. -/
theorem wp_ends {m : Exec σ ε α} {r : Except ε α} {s' : σ} (h : m s = some (r, s')) :
    wp m (fun _ _ => True) (fun _ _ => True) s := by
  cases r with
  | ok a => exact wp_of_ok h trivial
  | error e => exact wp_of_error h trivial

end Rules
/-! Programs that differ in their assertions. -/

/-- Wherever `m` comes to an end, `m'` ends the same way. -/
def Extends (m m' : Exec σ ε α) : Prop := ∀ s r, m s = some r → m' s = some r

namespace Extends
variable {m m' n n' : Exec σ ε α}

theorem refl (m : Exec σ ε α) : Extends m m := fun _ _ h => h

theorem bind {f f' : α → Exec σ ε β} (h : Extends m m') (hf : ∀ a, Extends (f a) (f' a)) :
    Extends (m >>= f) (m' >>= f') := by
  intro s r hr
  change andThen m f s = some r at hr
  show andThen m' f' s = some r
  unfold andThen at hr ⊢
  cases hm : m s with
  | none => rw [hm] at hr; cases hr
  | some x =>
    rw [hm] at hr
    rw [h s x hm]
    obtain ⟨_ | a, s'⟩ := x
    · exact hr
    · exact hf a s' r hr

theorem attempt (h : Extends m m') : Extends (attempt m) (Exec.attempt m') := by
  intro s r hr
  unfold Exec.attempt at hr ⊢
  cases hm : m s with
  | none => rw [hm] at hr; cases hr
  | some x =>
    rw [hm] at hr
    rw [h s x hm]
    exact hr

theorem ite {c : Prop} [Decidable c] (h : Extends m m') (hn : Extends n n') :
    Extends (if c then m else n) (if c then m' else n') := by
  by_cases hc : c
  · rw [if_pos hc, if_pos hc]
    exact h
  · rw [if_neg hc, if_neg hc]
    exact hn

/-- A weaker assertion. -/
theorem check {c c' : Prop} [Decidable c] [Decidable c'] (h : c → c') :
    Extends (check c : Exec σ ε Unit) (Exec.check c') := by
  intro s r hr
  unfold Exec.check at hr ⊢
  split at hr
  · next hc =>
    rw [if_pos (h hc)]
    exact hr
  · cases hr

/-- One assertion more. -/
theorem check_bind {c : Prop} [Decidable c] {f : Unit → Exec σ ε α} (h : c → Extends (f ()) m) :
    Extends (Exec.check c >>= f) m := by
  intro s r hr
  by_cases hc : c
  · rw [bind_of_ok (check_of_pos hc)] at hr
    exact h hc s r hr
  · have hnone : (Exec.check c : Exec σ ε Unit) s = none := if_neg hc
    rw [bind_of_none hnone] at hr
    cases hr

theorem of_eq (h : m = m') : Extends m m' := h ▸ refl m

/-- A step that at most asserts something on the way to its value. -/
theorem pure_bind {m : Exec σ ε α} {f : α → Exec σ ε β} {a : α} {n : Exec σ ε β} (h : Extends m (pure a))
    (hf : Extends (f a) n) : Extends (m >>= f) n := fun s r hr => hf s r (h.bind (fun b => refl (f b)) s r hr)

end Extends

/-! Loops that are given a number of passes. -/
section Passes
variable {γ : Type} {m : Nat → γ → Exec σ ε α}

/-- A loop every pass of which ends it, makes progress or tries again comes to an end, if it does not try again
forever: `turn` says which pass is due in a state, and `moves` holds of infinitely many. -/
theorem loop_ends (size : γ → Nat) (turn : σ → Nat) {moves : Nat → Prop} (hfair : ∀ i, ∃ j, i ≤ j ∧ moves j)
    (hpass : ∀ c s, (∃ x, ∀ n, m (n + 1) c s = some x) ∨
      (∃ c' s', size c' < size c ∧ ∀ n, m (n + 1) c s = m n c' s') ∨
      ∃ s', turn s' = turn s + 1 ∧ ¬moves (turn s) ∧ ∀ n, m (n + 1) c s = m n c s') (c : γ) (s : σ) :
    ∃ n x, m n c s = some x := by
  induction hsize : size c using Nat.strong_induction_on generalizing c s with
  | _ k ih =>
    obtain ⟨j, hj, hmoves⟩ := hfair (turn s)
    -- on the number of passes until one moves
    obtain ⟨wait, rfl⟩ := Nat.exists_eq_add_of_le hj
    induction wait generalizing s with
    | zero =>
      rcases hpass c s with ⟨x, hx⟩ | ⟨c', s', hlt, hrun⟩ | ⟨s', -, hstill, -⟩
      · exact ⟨1, x, hx 0⟩
      · obtain ⟨n, x, hx⟩ := ih (size c') (hsize ▸ hlt) c' s' rfl
        exact ⟨n + 1, x, (hrun n).trans hx⟩
      · exact absurd hmoves hstill
    | succ wait ihw =>
      rcases hpass c s with ⟨x, hx⟩ | ⟨c', s', hlt, hrun⟩ | ⟨s', hturn, -, hrun⟩
      · exact ⟨1, x, hx 0⟩
      · obtain ⟨n, x, hx⟩ := ih (size c') (hsize ▸ hlt) c' s' rfl
        exact ⟨n + 1, x, (hrun n).trans hx⟩
      · have hmoves' : moves (turn s' + wait) := by rwa [hturn, Nat.add_assoc, Nat.add_comm 1 wait]
        obtain ⟨n, x, hx⟩ := ihw s' (Nat.le_add_right _ _) hmoves'
        exact ⟨n + 1, x, (hrun n).trans hx⟩

/-- A loop that ends within some number of passes ends the same way within every larger number. -/
theorem ends_of_mono {m : Nat → Exec σ ε α} (hmono : ∀ n, Extends (m n) (m (n + 1))) {s : σ}
    {x : Except ε α × σ} {n : Nat} (h : m n s = some x) : ∀ more, m (n + more) s = some x := by
  intro more
  induction more with
  | zero => exact h
  | succ more ih => exact hmono _ s x ih

end Passes
end Exec
