import KernSql.Lib.Prog

/- What a computation leaves alone.

   `Fixes f m` says that no run of `m` changes what `f` reads of the state, however
   it ends. The rules take a computation apart as those of `wp` do; a client's whole
   run fixes what each call of its handler fixes. -/
namespace Exec
variable {σ ε α β γ : Type} {f : σ → γ}

def Fixes (f : σ → γ) (m : Exec σ ε α) : Prop := ∀ s r s', m s = some (r, s') → f s' = f s

theorem fixes_pure (a : α) : Fixes f (pure a : Exec σ ε α) := by
  intro s r s' h
  cases h
  rfl

theorem fixes_fail (e : ε) : Fixes f (fail e : Exec σ ε α) := by
  intro s r s' h
  cases h
  rfl

theorem fixes_get : Fixes f (get : Exec σ ε σ) := by
  intro s r s' h
  cases h
  rfl

theorem fixes_modify {g : σ → σ} (h : ∀ s, f (g s) = f s) : Fixes f (modify g : Exec σ ε Unit) := by
  intro s r s' hs
  cases hs
  exact h s

theorem fixes_lift (o : Option α) : Fixes f (lift o : Exec σ ε α) := by
  intro s r s' h
  obtain ⟨a, -, he⟩ := Option.map_eq_some_iff.mp h
  cases he
  rfl

theorem fixes_check (c : Prop) [Decidable c] : Fixes f (check c : Exec σ ε Unit) := by
  intro s r s' h
  unfold check at h
  split at h
  · cases h
    rfl
  · cases h

theorem Fixes.bind {m : Exec σ ε α} {k : α → Exec σ ε β} (hm : Fixes f m) (hk : ∀ a, Fixes f (k a)) :
    Fixes f (m >>= k) := by
  intro s r s' h
  change andThen m k s = _ at h
  unfold andThen at h
  rcases hrun : m s with _ | ⟨_ | a, s₁⟩ <;> rw [hrun] at h
  · cases h
  · cases h
    exact hm s _ s' hrun
  · exact (hk a s₁ r s' h).trans (hm s _ s₁ hrun)

theorem Fixes.attempt {m : Exec σ ε α} (hm : Fixes f m) : Fixes f (attempt m) := by
  intro s r s' h
  unfold Exec.attempt at h
  rcases hrun : m s with _ | ⟨r₁, s₁⟩ <;> rw [hrun] at h
  · cases h
  · cases h
    exact hm s _ s' hrun

theorem Fixes.ite {c : Prop} [Decidable c] {m m' : Exec σ ε α} (h : Fixes f m) (h' : Fixes f m') :
    Fixes f (if c then m else m') := by
  split
  · exact h
  · exact h'

end Exec

/-- A client changes what its calls change. -/
theorem Prog.fixes_run {C : Type} {R : C → Type} {ε α σ γ : Type} {f : σ → γ} {h : Handler C R σ}
    (hh : ∀ c s r s', h c s = some (r, s') → f s' = f s) (m : Prog C R ε α) : Exec.Fixes f (m.run h) := by
  induction m with
  | ret r =>
    intro s r' s' hrun
    cases hrun
    rfl
  | fault =>
    intro s r s' hrun
    cases hrun
  | call c k ih =>
    intro s r s' hrun
    obtain ⟨⟨r₁, s₁⟩, hc, hk⟩ := Option.bind_eq_some_iff.mp hrun
    exact (ih r₁ s₁ r s' hk).trans (hh c s r₁ s₁ hc)
