import KernSql.Lib.Exec

/- Sequences of operations against what they are for.

   `perform` runs one operation on a concrete state; `spec m op a m'` says that an
   abstract state `m` may answer `a` to `op` and become `m'`. A simulation relates
   the two states and carries one operation across. The state may count the faults
   of its environment: an operation during which none happened answers as the
   specification says, one that met a fault only has to keep the relation. A
   caller may owe something at each call (`legal`, in the state the call is made
   in); `Kept` says that it holds along a sequence. The run rule lifts a
   simulation from one operation to every finite sequence of them. -/
namespace Refine
open Exec
variable {σ ε α ι μ : Type}

/-- The answers to a sequence of operations, errors included. -/
def run (perform : ι → Exec σ ε α) : List ι → Exec σ ε (List (Except ε α))
  | [] => pure []
  | op :: ops => do
    let a ← attempt (perform op)
    let as ← run perform ops
    pure (a :: as)

/-- The sequences of answers a specification allows. -/
inductive Allowed (spec : μ → ι → Except ε α → μ → Prop) : μ → List ι → List (Except ε α) → μ → Prop where
  | nil (m : μ) : Allowed spec m [] [] m
  | cons {m m' m'' : μ} {op : ι} {ops : List ι} {a : Except ε α} {as : List (Except ε α)} :
      spec m op a m' → Allowed spec m' ops as m'' → Allowed spec m (op :: ops) (a :: as) m''

/-- Every operation of the sequence is legal in the state it is performed in. -/
def Kept (perform : ι → Exec σ ε α) (legal : σ → ι → Prop) : List ι → σ → Prop
  | [], _ => True
  | op :: ops, s => legal s op ∧ ∀ a s', perform op s = some (a, s') → Kept perform legal ops s'

theorem Kept.of_forall {perform : ι → Exec σ ε α} {legal : σ → ι → Prop} : ∀ {ops : List ι} {s : σ},
    (∀ op ∈ ops, ∀ s, legal s op) → Kept perform legal ops s
  | [], _, _ => trivial
  | op :: ops, s, h => ⟨h op (by simp) s, fun _ _ _ => of_forall fun o ho => h o (by simp [ho])⟩

theorem Kept.imp {perform : ι → Exec σ ε α} {legal legal' : σ → ι → Prop} (himp : ∀ s op, legal s op → legal' s op) :
    ∀ {ops : List ι} {s : σ}, Kept perform legal ops s → Kept perform legal' ops s
  | [], _, _ => trivial
  | op :: _, s, h => ⟨himp s op h.1, fun a s' hs => Kept.imp himp (h.2 a s' hs)⟩

/-- `Kept` for one given sequence, by running it. -/
def keeps (perform : ι → Exec σ ε α) (legal : σ → ι → Prop) [∀ s op, Decidable (legal s op)] : List ι → σ → Bool
  | [], _ => true
  | op :: ops, s => legal s op && match perform op s with
    | none => true
    | some (_, s') => keeps perform legal ops s'

theorem Kept.of_keeps {perform : ι → Exec σ ε α} {legal : σ → ι → Prop} [∀ s op, Decidable (legal s op)] :
    ∀ {ops : List ι} {s : σ}, keeps perform legal ops s = true → Kept perform legal ops s
  | [], _, _ => trivial
  | op :: ops, s, h => by
    rw [keeps, Bool.and_eq_true, decide_eq_true_eq] at h
    refine ⟨h.1, fun a s' hs => of_keeps ?_⟩
    have h2 := h.2
    rw [hs] at h2
    exact h2

/-- What every legal operation preserves, a sequence of them preserves. -/
theorem Kept.run_preserves {perform : ι → Exec σ ε α} {legal : σ → ι → Prop} {I : σ → Prop}
    (hstep : ∀ {s op a s'}, legal s op → I s → perform op s = some (a, s') → I s') {r : Except ε (List (Except ε α))} {s' : σ} :
    ∀ {ops : List ι} {s : σ}, Kept perform legal ops s → I s → run perform ops s = some (r, s') → I s'
  | [], s, _, hI, hrun => by
    cases hrun
    exact hI
  | op :: ops, s, hk, hI, hrun => by
    change andThen (attempt (perform op)) _ s = _ at hrun
    unfold andThen attempt at hrun
    rcases hop : perform op s with _ | ⟨a, s₁⟩ <;> rw [hop] at hrun
    · cases hrun
    · change andThen (run perform ops) _ s₁ = _ at hrun
      unfold andThen at hrun
      rcases hops : run perform ops s₁ with _ | ⟨_ | as, s₂⟩ <;> rw [hops] at hrun <;> cases hrun
      · exact run_preserves hstep (hk.2 a s₁ hop) (hstep hk.1 hI hop) hops
      · exact run_preserves hstep (hk.2 a s₁ hop) (hstep hk.1 hI hop) hops

/-- Legal operations keep `R`, and answer as `spec` says unless a fault happened on the way. -/
structure Simulation (perform : ι → Exec σ ε α) (spec : μ → ι → Except ε α → μ → Prop)
    (legal : σ → ι → Prop) (R : σ → μ → Prop) (faults : σ → Nat) : Prop where
  step : ∀ {s : σ} {m : μ} {op : ι}, legal s op → R s m → ∃ a s' m', perform op s = some (a, s') ∧ R s' m' ∧
    faults s ≤ faults s' ∧ (faults s' = faults s → spec m op a m')

namespace Simulation
variable {perform : ι → Exec σ ε α} {spec : μ → ι → Except ε α → μ → Prop} {legal : σ → ι → Prop}
  {R : σ → μ → Prop} {faults : σ → Nat}

/-- One operation by its specification as a program. -/
theorem of_wp (h : ∀ {s m op}, legal s op → R s m →
    wp (attempt (perform op)) (fun a s' => ∃ m', R s' m' ∧ faults s ≤ faults s' ∧
      (faults s' = faults s → spec m op a m')) (fun _ _ => False) s) :
    Simulation perform spec legal R faults where
  step {s m op} hop hR := by
    have := h hop hR
    unfold wp attempt at this
    rcases hrun : perform op s with _ | ⟨a, s'⟩
    · rw [hrun] at this; exact this.elim
    · rw [hrun] at this
      obtain ⟨m', hm'⟩ := this
      exact ⟨a, s', m', rfl, hm'⟩

/-- A whole run: it ends, the relation holds at the end, and without faults the answers are allowed. -/
theorem run (h : Simulation perform spec legal R faults) : ∀ {ops : List ι} {s : σ} {m : μ},
    Kept perform legal ops s → R s m → ∃ as s' m', Refine.run perform ops s = some (.ok as, s') ∧ R s' m' ∧
      faults s ≤ faults s' ∧ (faults s' = faults s → Allowed spec m ops as m')
  | [], s, m, _, hR => ⟨[], s, m, rfl, hR, le_refl _, fun _ => .nil m⟩
  | op :: ops, s, m, hlegal, hR => by
    obtain ⟨a, s₁, m₁, hop, hR₁, hle₁, hspec⟩ := h.step hlegal.1 hR
    obtain ⟨as, s₂, m₂, hops, hR₂, hle₂, hall⟩ := run h (hlegal.2 a s₁ hop) hR₁
    refine ⟨a :: as, s₂, m₂, ?_, hR₂, by omega, fun he => .cons (hspec (by omega)) (hall (by omega))⟩
    show andThen (attempt (perform op)) _ s = _
    unfold andThen attempt
    rw [hop]
    show andThen (Refine.run perform ops) _ s₁ = _
    unfold andThen
    rw [hops]
    rfl

end Simulation

/-- A specification that is a function: the answers and the state it computes. -/
def compute (f : μ → ι → Except ε α × μ) : μ → List ι → List (Except ε α) × μ
  | m, [] => ([], m)
  | m, op :: ops => ((f m op).1 :: (compute f (f m op).2 ops).1, (compute f (f m op).2 ops).2)

theorem Allowed.compute_eq {f : μ → ι → Except ε α × μ} {m m' : μ} {ops : List ι} {as : List (Except ε α)}
    (h : Allowed (fun m op a m' => (a, m') = f m op) m ops as m') : (as, m') = compute f m ops := by
  induction h with
  | nil m => rfl
  | cons hs _ ih => rw [compute, ← hs, ← ih]

/-- A source that hands out a list, one element a call, and is then empty for good. -/
def pop {β : Type} (rem : List β) (_ : Unit) : Except ε (Option β) × List β := (.ok rem.head?, rem.tail)

/-- The answers to `k` calls of such a source. -/
def popped {β : Type} (rem : List β) (k : Nat) : List (Except ε (Option β)) :=
  (rem.map fun x => .ok (some x)).take k ++ List.replicate (k - rem.length) (.ok none)

theorem compute_pop {β : Type} : ∀ (k : Nat) (rem : List β),
    (compute (ε := ε) pop rem (List.replicate k ())).1 = popped rem k
  | 0, rem => by simp [popped, compute]
  | k + 1, [] => by
    rw [List.replicate_succ, compute, pop]
    show _ :: (compute pop [] _).1 = _
    rw [compute_pop k []]
    simp [popped, List.replicate_succ]
  | k + 1, x :: rem => by
    rw [List.replicate_succ, compute, pop]
    show _ :: (compute pop rem _).1 = _
    rw [compute_pop k rem]
    simp [popped]

/-- The abstract state that a record of operations and answers determines. -/
def replay (record : μ → ι → Except ε α → μ) : μ → List ι → List (Except ε α) → μ
  | m, op :: ops, a :: as => replay record (record m op a) ops as
  | m, _, _ => m

theorem Allowed.replay_eq {spec : μ → ι → Except ε α → μ → Prop} {record : μ → ι → Except ε α → μ}
    (hspec : ∀ {m op a m'}, spec m op a m' → m' = record m op a) {m m' : μ} {ops : List ι} {as : List (Except ε α)}
    (h : Allowed spec m ops as m') : m' = replay record m ops as := by
  induction h with
  | nil m => rfl
  | cons hs _ ih => rw [replay, ← hspec hs]; exact ih

end Refine
