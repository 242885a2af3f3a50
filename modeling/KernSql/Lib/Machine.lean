import Mathlib

/- Machines that take labelled steps.

   `step s i` is the state after step `i`, or `none` when `s` cannot take it; the
   label carries every choice that is not the machine's own (who moves, what a
   device answers). `Reaches step allowed s₀` are the states of the runs from
   `s₀` whose every step `allowed` admits in the state it is taken in. What all
   of them have in common is shown by an invariant: true at the start, kept by
   every admitted step. `exec` runs a given list of labels. -/
namespace Machine
variable {σ ι : Type} {step : σ → ι → Option σ} {allowed allowed' : σ → ι → Prop} {s₀ s s' : σ}

/-- The states that runs of admitted steps lead to. -/
inductive Reaches (step : σ → ι → Option σ) (allowed : σ → ι → Prop) (s₀ : σ) : σ → Prop where
  | start : Reaches step allowed s₀ s₀
  | next {s s' : σ} {i : ι} : Reaches step allowed s₀ s → allowed s i → step s i = some s' →
      Reaches step allowed s₀ s'

/-- Every step is admitted. -/
def anyStep (_ : σ) (_ : ι) : Prop := True

/-- The state after a list of steps. -/
def exec (step : σ → ι → Option σ) : List ι → σ → Option σ
  | [], s => some s
  | i :: is, s => (step s i).bind (exec step is)

/-- The machine that stops before a step that is not admitted. -/
def checked (step : σ → ι → Option σ) (allowed : σ → ι → Prop) [∀ s i, Decidable (allowed s i)] (s : σ) (i : ι) :
    Option σ := if allowed s i then step s i else none

namespace Reaches

theorem invariant {I : σ → Prop} (h : Reaches step allowed s₀ s) (hstart : I s₀)
    (hstep : ∀ {s s' : σ} {i : ι}, I s → allowed s i → step s i = some s' → I s') : I s := by
  induction h with
  | start => exact hstart
  | next _ ha hs ih => exact hstep ih ha hs

theorem mono (h : Reaches step allowed s₀ s) (hle : ∀ s i, allowed s i → allowed' s i) :
    Reaches step allowed' s₀ s := by
  induction h with
  | start => exact .start
  | next _ ha hs ih => exact ih.next (hle _ _ ha) hs

theorem trans {s₁ : σ} (h : Reaches step allowed s₀ s₁) (h' : Reaches step allowed s₁ s) :
    Reaches step allowed s₀ s := by
  induction h' with
  | start => exact h
  | next _ ha hs ih => exact ih.next ha hs

/-- A list of steps that can be taken is a run. -/
theorem of_exec : ∀ {is : List ι} {s₁ : σ}, Reaches step anyStep s₀ s₁ → exec step is s₁ = some s →
    Reaches step anyStep s₀ s
  | [], _, h, he => Option.some.inj he ▸ h
  | i :: is, s₁, h, he => by
    obtain ⟨s₂, hs, he⟩ := Option.bind_eq_some_iff.mp he
    exact of_exec (h.next trivial hs) he

/-- The same for the machine that checks its steps. -/
theorem of_exec_checked [∀ s i, Decidable (allowed s i)] : ∀ {is : List ι} {s₁ : σ}, Reaches step allowed s₀ s₁ →
    exec (checked step allowed) is s₁ = some s → Reaches step allowed s₀ s
  | [], _, h, he => Option.some.inj he ▸ h
  | i :: is, s₁, h, he => by
    obtain ⟨s₂, hs, he⟩ := Option.bind_eq_some_iff.mp he
    unfold checked at hs
    split at hs
    · next ha => exact of_exec_checked (h.next ha hs) he
    · cases hs

end Reaches
end Machine
