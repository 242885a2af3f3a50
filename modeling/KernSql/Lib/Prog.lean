import KernSql.Lib.Exec

/- Programs over an interface of calls.

   `Prog C R ε α` is the code of a client: the calls it makes, each with what it
   does on every reply. It fixes no meaning for the calls; a `Handler` does, and
   `run` gives the program's run under it. One program can thus be run over an
   abstract state and over the one that implements it.

   A `Protocol` says which calls a client may make, from what it has done so far and
   the replies it got; `Follows` says that a program keeps to it on every path,
   whatever the replies. If the client keeps to a protocol, a call-by-call
   simulation carries its run from the implementation to the abstract state
   (`Simulates.run`). The abstract state leaves some choices open (which call fails,
   which id is new): a script makes them, one entry a call, and the simulation writes
   the script as it goes. -/

inductive Prog (C : Type) (R : C → Type) (ε α : Type) where
  /-- The end: a value or an error. -/
  | ret (r : Except ε α)
  /-- A failed assertion of the program itself. -/
  | fault
  | call (c : C) (k : R c → Prog C R ε α)

/-- What a state answers to each call, and becomes; `none` is a call gone wrong. -/
abbrev Handler (C : Type) (R : C → Type) (σ : Type) := (c : C) → σ → Option (R c × σ)

/-- The rules of an interface: `γ` is what the client knows of its own calls. -/
structure Protocol (C : Type) (R : C → Type) (γ : Type) where
  legal : γ → C → Prop
  /-- The replies that can come. -/
  answers : γ → (c : C) → R c → Prop
  next : γ → (c : C) → R c → γ

/-- No rule but which calls may be made. -/
def Protocol.only {C : Type} {R : C → Type} (ok : C → Prop) : Protocol C R Unit where
  legal _ c := ok c
  answers _ _ _ := True
  next _ _ _ := ()

namespace Prog
variable {C : Type} {R : C → Type} {ε α β σ τ γ : Type}

/-- What follows `m`, however it ended. -/
def andThen (m : Prog C R ε α) (f : Except ε α → Prog C R ε β) : Prog C R ε β :=
  match m with
  | .ret r => f r
  | .fault => .fault
  | .call c k => .call c fun r => (k r).andThen f

def onOk (f : α → Prog C R ε β) : Except ε α → Prog C R ε β
  | .ok a => f a
  | .error e => .ret (.error e)

instance : Monad (Prog C R ε) where
  pure a := .ret (.ok a)
  bind m f := m.andThen (onOk f)

def fail (e : ε) : Prog C R ε α := .ret (.error e)

def lift : Option α → Prog C R ε α
  | some a => .ret (.ok a)
  | none => .fault

def check (c : Prop) [Decidable c] : Prog C R ε Unit := if c then .ret (.ok ()) else .fault

def attempt (m : Prog C R ε α) : Prog C R ε (Except ε α) := m.andThen fun r => .ret (.ok r)

def orFault (m : Prog C R ε α) : Prog C R ε α := m.andThen fun
  | .ok a => .ret (.ok a)
  | .error _ => .fault

/-! The run under a handler. -/

def run (h : Handler C R σ) : Prog C R ε α → Exec σ ε α
  | .ret r, s => some (r, s)
  | .fault, _ => none
  | .call c k, s => (h c s).bind fun x => (k x.1).run h x.2

section Runs
variable (h : Handler C R σ)

@[simp] theorem run_ret (r : Except ε α) (s : σ) : (ret r : Prog C R ε α).run h s = some (r, s) := rfl

@[simp] theorem run_fault (s : σ) : (fault : Prog C R ε α).run h s = none := rfl

theorem run_call (c : C) (k : R c → Prog C R ε α) (s : σ) :
    (call c k).run h s = (h c s).bind fun x => (k x.1).run h x.2 := rfl

theorem run_andThen (m : Prog C R ε α) (f : Except ε α → Prog C R ε β) (s : σ) :
    (m.andThen f).run h s = (m.run h s).bind fun x => (f x.1).run h x.2 := by
  induction m generalizing s with
  | ret r => rfl
  | fault => rfl
  | call c k ih =>
    show (h c s).bind (fun x => ((k x.1).andThen f).run h x.2) = ((h c s).bind _).bind _
    rw [Option.bind_assoc]
    congr 1
    funext x
    exact ih x.1 x.2

@[simp] theorem run_pure (a : α) : (pure a : Prog C R ε α).run h = pure a := rfl

@[simp] theorem run_bind (m : Prog C R ε α) (f : α → Prog C R ε β) :
    (m >>= f).run h = m.run h >>= fun a => (f a).run h := by
  funext s
  show (m.andThen (onOk f)).run h s = Exec.andThen (m.run h) _ s
  rw [run_andThen]
  unfold Exec.andThen
  rcases m.run h s with _ | ⟨_ | _, _⟩ <;> rfl

@[simp] theorem run_fail (e : ε) : (fail e : Prog C R ε α).run h = Exec.fail e := rfl

@[simp] theorem run_lift (o : Option α) : (lift o : Prog C R ε α).run h = Exec.lift o := by
  funext s
  cases o <;> rfl

@[simp] theorem run_check (c : Prop) [Decidable c] : (check c : Prog C R ε Unit).run h = Exec.check c := by
  funext s
  unfold check Exec.check
  split <;> rfl

@[simp] theorem run_attempt (m : Prog C R ε α) : m.attempt.run h = Exec.attempt (m.run h) := by
  funext s
  unfold attempt Exec.attempt
  rw [run_andThen]
  rcases m.run h s with _ | ⟨_, _⟩ <;> rfl

@[simp] theorem run_orFault (m : Prog C R ε α) : m.orFault.run h = Exec.orFault (m.run h) := by
  funext s
  unfold orFault Exec.orFault
  rw [run_andThen]
  rcases m.run h s with _ | ⟨_ | _, _⟩ <;> rfl

@[simp] theorem run_ite (c : Prop) [Decidable c] (m m' : Prog C R ε α) :
    (if c then m else m').run h = if c then m.run h else m'.run h := by
  split <;> rfl

end Runs

/-! Keeping to a protocol. -/

/-- Every call `m` makes from `g` on is legal, and it ends as `Q` or `E` say. -/
def Follows (P : Protocol C R γ) (Q : α → γ → Prop) (E : ε → γ → Prop) : Prog C R ε α → γ → Prop
  | .ret (.ok a), g => Q a g
  | .ret (.error e), g => E e g
  | .fault, _ => True
  | .call c k, g => P.legal g c ∧ ∀ r, P.answers g c r → (k r).Follows P Q E (P.next g c r)

section Follows
variable {P : Protocol C R γ} {Q : α → γ → Prop} {E : ε → γ → Prop} {g : γ}

theorem follows_andThen {F : β → γ → Prop} {G : ε → γ → Prop} (m : Prog C R ε α) (f : Except ε α → Prog C R ε β) :
    (m.andThen f).Follows P F G g ↔
      m.Follows P (fun a g' => (f (.ok a)).Follows P F G g') (fun e g' => (f (.error e)).Follows P F G g') g := by
  induction m generalizing g with
  | ret r => cases r <;> rfl
  | fault => rfl
  | call c k ih => exact and_congr_right fun _ => forall_congr' fun r => forall_congr' fun _ => ih r

@[simp] theorem follows_pure (a : α) : (pure a : Prog C R ε α).Follows P Q E g ↔ Q a g := Iff.rfl

@[simp] theorem follows_bind {F : β → γ → Prop} (m : Prog C R ε α) (f : α → Prog C R ε β) :
    (m >>= f).Follows P F E g ↔ m.Follows P (fun a g' => (f a).Follows P F E g') E g :=
  follows_andThen m (onOk f)

@[simp] theorem follows_fail (e : ε) : (fail e : Prog C R ε α).Follows P Q E g ↔ E e g := Iff.rfl

@[simp] theorem follows_lift (o : Option α) :
    (lift o : Prog C R ε α).Follows P Q E g ↔ ∀ a, o = some a → Q a g := by
  cases o with
  | none => exact iff_of_true trivial fun a ha => by cases ha
  | some a => exact ⟨fun h b hb => Option.some.inj hb ▸ h, fun h => h a rfl⟩

@[simp] theorem follows_check (c : Prop) [Decidable c] {Q : Unit → γ → Prop} :
    (check c : Prog C R ε Unit).Follows P Q E g ↔ (c → Q () g) := by
  unfold check
  split
  · next h => exact ⟨fun hq _ => hq, fun hq => hq h⟩
  · next h => exact iff_of_true trivial fun hc => absurd hc h

@[simp] theorem follows_attempt (m : Prog C R ε α) {Q : Except ε α → γ → Prop} :
    m.attempt.Follows P Q E g ↔ m.Follows P (fun a => Q (.ok a)) (fun e => Q (.error e)) g :=
  follows_andThen m _

@[simp] theorem follows_orFault (m : Prog C R ε α) :
    m.orFault.Follows P Q E g ↔ m.Follows P Q (fun _ _ => True) g :=
  follows_andThen m _

@[simp] theorem follows_ite (c : Prop) [Decidable c] (m m' : Prog C R ε α) :
    (if c then m else m').Follows P Q E g ↔ (c → m.Follows P Q E g) ∧ (¬c → m'.Follows P Q E g) := by
  by_cases h : c <;> simp [h]

theorem Follows.mono {m : Prog C R ε α} {Q' : α → γ → Prop} {E' : ε → γ → Prop} (h : m.Follows P Q E g)
    (hQ : ∀ a g', Q a g' → Q' a g') (hE : ∀ e g', E e g' → E' e g') : m.Follows P Q' E' g := by
  induction m generalizing g with
  | ret r =>
    cases r with
    | ok a => exact hQ a g h
    | error e => exact hE e g h
  | fault => trivial
  | call c k ih => exact ⟨h.1, fun r hr => ih r (h.2 r hr)⟩

/-- A call inside a larger program. -/
theorem Follows.bind {m : Prog C R ε α} {f : α → Prog C R ε β} {F : β → γ → Prop} {E' : ε → γ → Prop}
    (h : m.Follows P Q E' g) (hQ : ∀ a g', Q a g' → (f a).Follows P F E g') (hE : ∀ e g', E' e g' → E e g') :
    (m >>= f).Follows P F E g :=
  (follows_bind m f).mpr (h.mono hQ hE)

end Follows

/-! The calls a run makes. -/

/-- No call of the run from `t` is one that `bad` names in the state it is made in. -/
def Avoids (k : Handler C R τ) (bad : τ → C → Prop) : Prog C R ε α → τ → Prop
  | .ret _, _ => True
  | .fault, _ => True
  | .call c f, t => ¬bad t c ∧ ∀ r t', k c t = some (r, t') → (f r).Avoids k bad t'

section Avoids
variable {k : Handler C R τ} {bad : τ → C → Prop}

theorem avoids_andThen (m : Prog C R ε α) (f : Except ε α → Prog C R ε β) {t : τ} :
    (m.andThen f).Avoids k bad t ↔
      m.Avoids k bad t ∧ ∀ r t', m.run k t = some (r, t') → (f r).Avoids k bad t' := by
  induction m generalizing t with
  | ret r =>
    constructor
    · intro h
      refine ⟨trivial, fun r' t' hr => ?_⟩
      cases hr
      exact h
    · exact fun h => h.2 r t rfl
  | fault => exact iff_of_true trivial ⟨trivial, fun _ _ hr => by cases hr⟩
  | call c k' ih =>
    constructor
    · rintro ⟨hc, hk⟩
      refine ⟨⟨hc, fun r t' hr => ((ih r).mp (hk r t' hr)).1⟩, fun r t' hr => ?_⟩
      obtain ⟨⟨r₁, t₁⟩, h₁, h₂⟩ := Option.bind_eq_some_iff.mp hr
      exact ((ih r₁).mp (hk r₁ t₁ h₁)).2 r t' h₂
    · rintro ⟨⟨hc, hk⟩, hf⟩
      refine ⟨hc, fun r t' hr => (ih r).mpr ⟨hk r t' hr, fun r' t'' hr' => hf r' t'' ?_⟩⟩
      rw [run_call, hr]
      exact hr'

theorem avoids_bind {m : Prog C R ε α} {f : α → Prog C R ε β} {t : τ} :
    (m >>= f).Avoids k bad t ↔ m.Avoids k bad t ∧ ∀ a t', m.run k t = some (.ok a, t') → (f a).Avoids k bad t' := by
  refine (avoids_andThen m (onOk f)).trans (and_congr_right fun _ => ⟨fun h a t' => h (.ok a) t', fun h r t' hr => ?_⟩)
  cases r with
  | ok a => exact h a t' hr
  | error e => trivial

/-- `Avoids` of one given run, by running it. -/
def avoids (k : Handler C R τ) (bad : τ → C → Prop) [∀ t c, Decidable (bad t c)] : Prog C R ε α → τ → Bool
  | .ret _, _ => true
  | .fault, _ => true
  | .call c f, t => !decide (bad t c) && match k c t with
    | none => true
    | some (r, t') => (f r).avoids k bad t'

theorem Avoids.of_avoids [∀ t c, Decidable (bad t c)] {m : Prog C R ε α} {t : τ} (h : m.avoids k bad t = true) :
    m.Avoids k bad t := by
  induction m generalizing t with
  | ret r => trivial
  | fault => trivial
  | call c f ih =>
    rw [avoids, Bool.and_eq_true, Bool.not_eq_true', decide_eq_false_iff_not] at h
    refine ⟨h.1, fun r t' hr => ih r ?_⟩
    have h2 := h.2
    rw [hr] at h2
    exact h2

/-- A client that makes only calls which are never bad. -/
theorem Follows.avoids {ok : C → Prop} {Q : α → Unit → Prop} {E : ε → Unit → Prop} (hok : ∀ t c, ok c → ¬bad t c)
    {m : Prog C R ε α} (hm : m.Follows (.only ok) Q E ()) {t : τ} : m.Avoids k bad t := by
  induction m generalizing t with
  | ret r => trivial
  | fault => trivial
  | call c f ih => exact ⟨hok t c hm.1, fun r t' _ => ih r (hm.2 r trivial)⟩

end Avoids

/-! Simulation. -/

/-- A family of handlers that read a script: a call reads the entry at the state's clock and moves the clock on, or
reads nothing. -/
structure Scripted {X : Type} (h : (Nat → X) → Handler C R σ) (clock : σ → Nat) : Prop where
  reads : ∀ {f f' : Nat → X} {c : C} {s : σ}, f (clock s) = f' (clock s) → h f c s = h f' c s
  ticks : ∀ {f : Nat → X} {c : C} {s s' : σ} {r : R c}, h f c s = some (r, s') →
    clock s < clock s' ∨ clock s' = clock s ∧ ∀ f', h f' c s = h f c s

section Simulation
variable {X : Type} {h : (Nat → X) → Handler C R σ} {clock : σ → Nat}

/-- A run reads the script from its clock on. -/
theorem Scripted.run_congr (hs : Scripted h clock) {f f' : Nat → X} (m : Prog C R ε α) {s : σ}
    (heq : ∀ n, clock s ≤ n → f n = f' n) : m.run (h f) s = m.run (h f') s := by
  induction m generalizing s with
  | ret r => rfl
  | fault => rfl
  | call c k ih =>
    rw [run_call, run_call, ← hs.reads (heq _ (Nat.le_refl _))]
    cases hc : h f c s with
    | none => rfl
    | some x =>
      refine ih x.1 fun n hn => heq n (Nat.le_trans ?_ hn)
      rcases hs.ticks hc with hlt | ⟨he, -⟩
      · exact Nat.le_of_lt hlt
      · exact Nat.le_of_eq he.symm

/-- Each legal call of the implementation is answered alike by the abstract state, for some entry of the script. -/
structure Simulates (h : (Nat → X) → Handler C R σ) (clock : σ → Nat) (k : Handler C R τ) (P : Protocol C R γ)
    (view : σ → γ) (rel : σ → τ → Prop) (bad : τ → C → Prop) : Prop where
  scripted : Scripted h clock
  step : ∀ {s : σ} {t t' : τ} {c : C} {r : R c}, rel s t → P.legal (view s) c → ¬bad t c → k c t = some (r, t') →
    P.answers (view s) c r ∧ ∃ x, ∀ f, f (clock s) = x →
      ∃ s', h f c s = some (r, s') ∧ rel s' t' ∧ view s' = P.next (view s) c r
  stuck : ∀ {s : σ} {t : τ} {c : C}, rel s t → P.legal (view s) c → ¬bad t c → k c t = none → ∀ f, h f c s = none

/-- The whole run of a client that keeps to the protocol: some script gives the same run of the abstract state. -/
theorem Simulates.run [Inhabited X] {k : Handler C R τ} {P : Protocol C R γ} {view : σ → γ} {rel : σ → τ → Prop}
    {bad : τ → C → Prop} (hsim : Simulates h clock k P view rel bad) {Q : α → γ → Prop} {E : ε → γ → Prop}
    (m : Prog C R ε α) {s : σ} {t : τ} (hrel : rel s t) (hm : m.Follows P Q E (view s)) (hav : m.Avoids k bad t) :
    ∃ f, (∀ r t', m.run k t = some (r, t') → ∃ s', m.run (h f) s = some (r, s') ∧ rel s' t') ∧
      (m.run k t = none → m.run (h f) s = none) := by
  induction m generalizing s t with
  | ret r =>
    refine ⟨default, fun r' t' hr => ?_, fun hr => by cases hr⟩
    cases hr
    exact ⟨s, rfl, hrel⟩
  | fault =>
    refine ⟨default, fun r t' hr => ?_, fun _ => rfl⟩
    cases hr
  | call c next ih =>
    obtain ⟨hlegal, hnext⟩ := hm
    obtain ⟨hgood, hrest⟩ := hav
    cases hc : k c t with
    | none =>
      refine ⟨default, fun r t' hr => ?_, fun _ => ?_⟩
      · rw [run_call, hc] at hr
        cases hr
      · rw [run_call, hsim.stuck hrel hlegal hgood hc]
        rfl
    | some y =>
      obtain ⟨r, t₁⟩ := y
      obtain ⟨hans, x, hx⟩ := hsim.step hrel hlegal hgood hc
      obtain ⟨s₁, hs₁, hrel₁, hview⟩ := hx (fun _ => x) rfl
      obtain ⟨f₁, hsome, hnone⟩ := ih r hrel₁ (hview ▸ hnext r hans) (hrest r t₁ hc)
      -- the entry of this call in front of the script of the rest
      let f : Nat → X := fun n => if n < clock s₁ then x else f₁ n
      have hcall : h f c s = some (r, s₁) := by
        rcases hsim.scripted.ticks hs₁ with hlt | ⟨-, hsame⟩
        · rw [← hs₁]
          exact hsim.scripted.reads (if_pos hlt)
        · rw [hsame f, hs₁]
      have htail : (next r).run (h f) s₁ = (next r).run (h f₁) s₁ :=
        hsim.scripted.run_congr (next r) fun n hn => if_neg (Nat.not_lt.mpr hn)
      have hall : (call c next).run (h f) s = (next r).run (h f₁) s₁ := by
        rw [run_call, hcall]
        exact htail
      have hconc : (call c next).run k t = (next r).run k t₁ := by
        rw [run_call, hc]
        rfl
      refine ⟨f, fun r' t' hr => ?_, fun hr => ?_⟩
      · rw [hall]
        exact hsome r' t' (hconc ▸ hr)
      · rw [hall]
        exact hnone (hconc ▸ hr)

/-- A specification of the abstract runs, whatever the script, is one of the run of the implementation. -/
theorem Simulates.wp [Inhabited X] {k : Handler C R τ} {P : Protocol C R γ} {view : σ → γ} {rel : σ → τ → Prop}
    {bad : τ → C → Prop} (hsim : Simulates h clock k P view rel bad) {Q : α → γ → Prop} {E : ε → γ → Prop}
    {m : Prog C R ε α} {s : σ} {t : τ} (hrel : rel s t) (hm : m.Follows P Q E (view s)) (hav : m.Avoids k bad t)
    {A : (Nat → X) → α → σ → Prop} {B : (Nat → X) → ε → σ → Prop}
    (hspec : ∀ f, Exec.wp (m.run (h f)) (A f) (B f) s) :
    Exec.wp (m.run k) (fun a t' => ∃ f s', rel s' t' ∧ A f a s') (fun e t' => ∃ f s', rel s' t' ∧ B f e s') t := by
  obtain ⟨f, hsome, hnone⟩ := hsim.run m hrel hm hav
  cases hrun : m.run k t with
  | none =>
    have := hspec f
    unfold Exec.wp at this
    rw [hnone hrun] at this
    exact this.elim
  | some y =>
    obtain ⟨r, t'⟩ := y
    obtain ⟨s', hs', hrel'⟩ := hsome r t' hrun
    cases r with
    | ok a => exact Exec.wp_of_ok hrun ⟨f, s', hrel', Exec.wp_ok (hspec f) hs'⟩
    | error e => exact Exec.wp_of_error hrun ⟨f, s', hrel', Exec.wp_error (hspec f) hs'⟩

end Simulation
end Prog

/-! Clients that also have fields of their own. -/

/-- The calls of an interface, and a field that is read and set. -/
inductive WithField (τ C : Type) where
  | call (c : C)
  | read
  | set (o : τ)

namespace WithField
variable {C : Type} {R : C → Type} {ε α σ τ θ γ X : Type}

@[reducible] def Reply (R : C → Type) : WithField τ C → Type
  | .call c => R c
  | .read => τ
  | .set _ => Unit

def handler (h : Handler C R σ) : Handler (WithField τ C) (Reply R) (σ × τ)
  | .call c, s => (h c s.1).map fun x => (x.1, (x.2, s.2))
  | .read, s => some (s.2, s)
  | .set o, s => some ((), (s.1, o))

def protocol (P : Protocol C R γ) : Protocol (WithField τ C) (Reply R) (γ × τ) where
  legal g
    | .call c => P.legal g.1 c
    | .read => True
    | .set _ => True
  answers g
    | .call c, r => P.answers g.1 c r
    | .read, r => r = g.2
    | .set _, _ => True
  next g
    | .call c, r => (P.next g.1 c r, g.2)
    | .read, _ => g
    | .set o, _ => (g.1, o)

/-- A program that leaves the field alone. -/
def onCalls : Prog C R ε α → Prog (WithField τ C) (Reply R) ε α
  | .ret r => .ret r
  | .fault => .fault
  | .call c k => .call (.call c) fun r => onCalls (k r)

def self : Prog (WithField τ C) (Reply R) ε τ := .call .read fun o => .ret (.ok o)

def setSelf (o : τ) : Prog (WithField τ C) (Reply R) ε Unit := .call (.set o) fun _ => .ret (.ok ())

theorem run_onCalls (h : Handler C R σ) (m : Prog C R ε α) (s : σ × τ) :
    (onCalls m : Prog (WithField τ C) (Reply R) ε α).run (handler h) s =
      (m.run h s.1).map fun x => (x.1, (x.2, s.2)) := by
  induction m generalizing s with
  | ret r => rfl
  | fault => rfl
  | call c k ih =>
    show ((h c s.1).map _).bind _ = ((h c s.1).bind _).map _
    rw [Option.bind_map, Option.map_bind]
    congr 1
    funext x
    exact ih x.1 _

theorem follows_onCalls {P : Protocol C R γ} {Q : α → γ × τ → Prop} {E : ε → γ × τ → Prop} (m : Prog C R ε α)
    {g : γ × τ} : (onCalls m : Prog (WithField τ C) (Reply R) ε α).Follows (protocol P) Q E g ↔
      m.Follows P (fun a g' => Q a (g', g.2)) (fun e g' => E e (g', g.2)) g.1 := by
  induction m generalizing g with
  | ret r => cases r <;> rfl
  | fault => rfl
  | call c k ih => exact and_congr_right fun _ => forall_congr' fun r => forall_congr' fun _ => ih r

@[simp] theorem follows_self {P : Protocol C R γ} {Q : τ → γ × τ → Prop} {E : ε → γ × τ → Prop} {g : γ × τ} :
    (self : Prog (WithField τ C) (Reply R) ε τ).Follows (protocol P) Q E g ↔ Q g.2 g := by
  constructor
  · exact fun h => h.2 g.2 rfl
  · exact fun h => ⟨trivial, fun r hr => hr ▸ h⟩

@[simp] theorem follows_setSelf {P : Protocol C R γ} {Q : Unit → γ × τ → Prop} {E : ε → γ × τ → Prop} {g : γ × τ}
    {o : τ} : (setSelf o : Prog (WithField τ C) (Reply R) ε Unit).Follows (protocol P) Q E g ↔ Q () (g.1, o) := by
  constructor
  · exact fun h => h.2 () trivial
  · exact fun h => ⟨trivial, fun _ _ => h⟩

/-- The program with its field passed along: the value of the field at the end is part of the result. -/
def passing : Prog (WithField τ C) (Reply R) ε α → τ → Prog C R ε (Except ε α × τ)
  | .ret r, o => .ret (.ok (r, o))
  | .fault, _ => .fault
  | .call (.call c) k, o => .call c fun r => passing (k r) o
  | .call .read k, o => passing (k o) o
  | .call (.set o') k, _ => passing (k ()) o'

theorem run_passing (h : Handler C R σ) (m : Prog (WithField τ C) (Reply R) ε α) (s : σ) (o : τ) :
    (passing m o).run h s = (m.run (handler h) (s, o)).map fun x => (.ok (x.1, x.2.2), x.2.1) := by
  induction m generalizing s o with
  | ret r => rfl
  | fault => rfl
  | call c k ih =>
    cases c with
    | call c =>
      show (h c s).bind _ = (((h c s).map _).bind _).map _
      rw [Option.bind_map, Option.map_bind]
      congr 1
      funext x
      exact ih x.1 x.2 o
    | read => exact ih o s o
    | set o' => exact ih () s o'

theorem follows_passing {P : Protocol C R γ} {Q : α → γ × τ → Prop} {E : ε → γ × τ → Prop}
    {F : Except ε α × τ → γ → Prop} {G : ε → γ → Prop} {m : Prog (WithField τ C) (Reply R) ε α} {g : γ} {o : τ}
    (h : m.Follows (protocol P) Q E (g, o)) (hQ : ∀ a g' o', Q a (g', o') → F (.ok a, o') g')
    (hE : ∀ e g' o', E e (g', o') → F (.error e, o') g') : (passing m o).Follows P F G g := by
  induction m generalizing g o with
  | ret r =>
    cases r with
    | ok a => exact hQ a g o h
    | error e => exact hE e g o h
  | fault => trivial
  | call c k ih =>
    cases c with
    | call c => exact ⟨h.1, fun r hr => ih r (h.2 r hr)⟩
    | read => exact ih o (h.2 o rfl)
    | set o' => exact ih () (h.2 () trivial)

end WithField
