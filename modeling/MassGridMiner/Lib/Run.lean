import Mathlib.Data.List.Basic

/-!
# Runs of a partial step function

A component is a step function that takes a state and an event to the next state,
or to `none` where the event is not enabled.  A run is a list of events, all of
them enabled.  This module supplies the inductions every result about runs goes
through: an invariant that each admissible step keeps, and the exchange of a
step-wise law for a step-wise condition.

## Main definitions

* `exec step s es` — the state the events `es` lead to from `s`.
* `AllSteps step P s es` — every step of the run satisfies `P`.
* `exec_invariant` — a guarded run keeps an invariant.
* `allSteps_of_invariant` — an invariant that makes every step lawful.
* `allSteps_congr` — a law of the steps and the condition for it hold of the same runs.
-/

namespace Run

universe u v
variable {σ : Type u} {ε : Type v} (step : σ → ε → Option σ)

/-- The state that the events lead to, provided each is enabled where it comes. -/
def exec : σ → List ε → Option σ
  | s, [] => some s
  | s, e :: es => (step s e).bind fun s' => exec s' es

/-- Every step the run takes satisfies `P`.  A run that meets a disabled event is
judged by the steps before it. -/
def AllSteps (P : σ → ε → σ → Prop) : σ → List ε → Prop
  | _, [] => True
  | s, e :: es => ∀ s', step s e = some s' → P s e s' ∧ AllSteps P s' es

@[simp] theorem exec_nil (s : σ) : exec step s [] = some s := rfl

@[simp] theorem exec_cons (s : σ) (e : ε) (es : List ε) :
    exec step s (e :: es) = (step s e).bind fun s' => exec step s' es := rfl

theorem exec_append (s : σ) (es es' : List ε) :
    exec step s (es ++ es') = (exec step s es).bind fun t => exec step t es' := by
  induction es generalizing s with
  | nil => rfl
  | cons e es ih =>
      simp only [List.cons_append, exec_cons, Option.bind_assoc, ih]

@[simp] theorem allSteps_nil (P : σ → ε → σ → Prop) (s : σ) : AllSteps step P s [] := trivial

theorem allSteps_cons (P : σ → ε → σ → Prop) (s : σ) (e : ε) (es : List ε) :
    AllSteps step P s (e :: es) ↔
      ∀ s', step s e = some s' → P s e s' ∧ AllSteps step P s' es := Iff.rfl

variable {step}

/-- A run whose first step is known. -/
theorem allSteps_cons_of_eq {P : σ → ε → σ → Prop} {s s' : σ} {e : ε} {es : List ε}
    (hs : step s e = some s') (hP : P s e s') (htail : AllSteps step P s' es) :
    AllSteps step P s (e :: es) := by
  intro t ht
  obtain rfl := Option.some.inj (hs.symm.trans ht)
  exact ⟨hP, htail⟩

/-- A run is judged part by part. -/
theorem allSteps_append {P : σ → ε → σ → Prop} {s : σ} {es es' : List ε} :
    AllSteps step P s (es ++ es') ↔
      AllSteps step P s es ∧ ∀ t, exec step s es = some t → AllSteps step P t es' := by
  induction es generalizing s with
  | nil => simp
  | cons e es ih =>
      simp only [List.cons_append, allSteps_cons, ih, exec_cons, Option.bind_eq_some_iff]
      constructor
      · intro h
        refine ⟨fun s' hs' => ⟨(h s' hs').1, (h s' hs').2.1⟩, ?_⟩
        rintro t ⟨s', hs', hrun⟩
        exact (h s' hs').2.2 t hrun
      · rintro ⟨hhead, htail⟩ s' hs'
        exact ⟨(hhead s' hs').1, (hhead s' hs').2, fun t hrun => htail t ⟨s', hs', hrun⟩⟩

/-- **The invariant rule.**  What holds at the start and is kept by every step that
satisfies `P` holds wherever a run of such steps ends. -/
theorem exec_invariant {P : σ → ε → σ → Prop} {I : σ → Prop}
    (hstep : ∀ s e s', I s → step s e = some s' → P s e s' → I s')
    {s t : σ} {es : List ε} (h0 : I s) (hrun : exec step s es = some t)
    (hall : AllSteps step P s es) : I t := by
  induction es generalizing s with
  | nil =>
      rw [exec_nil, Option.some.injEq] at hrun
      exact hrun ▸ h0
  | cons e es ih =>
      obtain ⟨s', hs', hrest⟩ := Option.bind_eq_some_iff.mp hrun
      obtain ⟨hP, htail⟩ := hall s' hs'
      exact ih (hstep s e s' h0 hs' hP) hrest htail

/-- What every step keeps holds wherever a run ends. -/
theorem exec_of_invariant {I : σ → Prop} (hstep : ∀ s e s', I s → step s e = some s' → I s')
    {s t : σ} {es : List ε} (h0 : I s) (hrun : exec step s es = some t) : I t := by
  induction es generalizing s with
  | nil =>
      rw [exec_nil, Option.some.injEq] at hrun
      exact hrun ▸ h0
  | cons e es ih =>
      obtain ⟨s', hs', hrest⟩ := Option.bind_eq_some_iff.mp hrun
      exact ih (hstep s e s' h0 hs') hrest

/-- Where every step keeps an invariant and the invariant makes it lawful, every run from a
state with the invariant is lawful. -/
theorem allSteps_of_invariant {P : σ → ε → σ → Prop} {I : σ → Prop}
    (hstep : ∀ s e s', I s → step s e = some s' → I s' ∧ P s e s')
    {s : σ} (es : List ε) (h0 : I s) : AllSteps step P s es := by
  induction es generalizing s with
  | nil => trivial
  | cons e es ih =>
      intro s' hs'
      obtain ⟨hI, hP⟩ := hstep s e s' h0 hs'
      exact ⟨hP, ih hI⟩

/-- The same with a condition on the steps: together with the invariant it makes them
lawful. -/
theorem allSteps_imp_of_invariant {P Q : σ → ε → σ → Prop} {I : σ → Prop}
    (hstep : ∀ s e s', I s → step s e = some s' → P s e s' → I s' ∧ Q s e s')
    {s : σ} {es : List ε} (h0 : I s) (H : AllSteps step P s es) : AllSteps step Q s es := by
  induction es generalizing s with
  | nil => trivial
  | cons e es ih =>
      intro s' hs'
      obtain ⟨hP, htail⟩ := H s' hs'
      obtain ⟨hI, hQ⟩ := hstep s e s' h0 hs' hP
      exact ⟨hQ, ih hI htail⟩

/-- **The exchange rule.**  Where an invariant makes a law `P` of one step equivalent
to a condition `Q` on it, and a lawful step keeps the invariant, every step of a run
is lawful exactly when every step meets the condition. -/
theorem allSteps_congr {P Q : σ → ε → σ → Prop} {I : σ → Prop}
    (hiff : ∀ s e s', I s → step s e = some s' → (P s e s' ↔ Q s e s'))
    (hkeep : ∀ s e s', I s → step s e = some s' → P s e s' → I s')
    {s : σ} (es : List ε) (h0 : I s) : AllSteps step P s es ↔ AllSteps step Q s es := by
  induction es generalizing s with
  | nil => simp
  | cons e es ih =>
      rw [allSteps_cons, allSteps_cons]
      constructor
      · intro h s' hs'
        obtain ⟨hP, htail⟩ := h s' hs'
        exact ⟨(hiff s e s' h0 hs').mp hP, (ih (hkeep s e s' h0 hs' hP)).mp htail⟩
      · intro h s' hs'
        obtain ⟨hQ, htail⟩ := h s' hs'
        have hP : P s e s' := (hiff s e s' h0 hs').mpr hQ
        exact ⟨hP, (ih (hkeep s e s' h0 hs' hP)).mpr htail⟩

end Run
