/-!
# Runs of a transition system

A system is given by a partial step function `step : σ → ε → Option σ`, which answers `none` on an
event that is not enabled. `Reach step ok s₀` holds of the states reached from `s₀` by steps that
all meet the guard `ok`, a predicate on the state before the step and the event; the guard `Always`
admits every run. `Reach.invariant` is the induction rule the safety results use, and `reached`
runs a list of events, so that a concrete run is a computation.
-/

namespace DistLabs.Lib

variable {σ ε : Type}

/-- The guard that admits every step. -/
def Always (_ : σ) (_ : ε) : Prop := True

instance (s : σ) (e : ε) : Decidable (Always s e) := isTrue trivial

/-- The states reached from `s₀` by steps that all meet the guard `ok`. -/
inductive Reach (step : σ → ε → Option σ) (ok : σ → ε → Prop) (s₀ : σ) : σ → Prop where
  | init : Reach step ok s₀ s₀
  | step {s s' : σ} {e : ε} (h : Reach step ok s₀ s) (hok : ok s e) (he : step s e = some s') :
      Reach step ok s₀ s'

section
variable {step : σ → ε → Option σ} {ok ok' : σ → ε → Prop} {s₀ s s' : σ}

/-- What holds initially and is kept by every admitted step from a state where it holds, holds of
every reachable state. -/
theorem Reach.invariant {P : σ → Prop} (h0 : P s₀)
    (hstep : ∀ {s s' : σ} {e : ε}, P s → ok s e → step s e = some s' → P s')
    (h : Reach step ok s₀ s) : P s := by
  induction h with
  | init => exact h0
  | step _ hok he ih => exact hstep ih hok he

/-- A weaker guard admits more runs. -/
theorem Reach.mono (himp : ∀ s e, ok s e → ok' s e) (h : Reach step ok s₀ s) :
    Reach step ok' s₀ s := by
  induction h with
  | init => exact .init
  | step _ hok he ih => exact .step ih (himp _ _ hok) he

/-- Runs compose. -/
theorem Reach.trans (h : Reach step ok s₀ s) (h' : Reach step ok s s') : Reach step ok s₀ s' := by
  induction h' with
  | init => exact h
  | step _ hok he ih => exact .step ih hok he

/-- Forward simulation: if every admitted step from a related state is matched by steps of another
system, then every run is. -/
theorem Reach.simulates {σ' ε' : Type} {step' : σ' → ε' → Option σ'}
    {ok' : σ' → ε' → Prop} {t₀ : σ'} {R : σ → σ' → Prop} (h0 : R s₀ t₀)
    (hstep : ∀ {s s' : σ} {e : ε} {t : σ'}, Reach step' ok' t₀ t → R s t → ok s e →
      step s e = some s' →
      ∃ t', Reach step' ok' t t' ∧ R s' t')
    (h : Reach step ok s₀ s) : ∃ t, Reach step' ok' t₀ t ∧ R s t := by
  induction h with
  | init => exact ⟨t₀, .init, h0⟩
  | step _ hok he ih =>
    obtain ⟨t, ht, hR⟩ := ih
    obtain ⟨t', ht', hR'⟩ := hstep ht hR hok he
    exact ⟨t', ht.trans ht', hR'⟩

/-- If every state that is not final leads to one of smaller measure, then every state leads to a
final one. -/
theorem Reach.exists_final {P final : σ → Prop} (μ : σ → Nat)
    (hstep : ∀ s, P s → ¬ final s → ∃ s', Reach step ok s s' ∧ P s' ∧ μ s' < μ s) (hs : P s) :
    ∃ s', Reach step ok s s' ∧ final s' := by
  induction hn : μ s using Nat.strongRecOn generalizing s with
  | ind n ih =>
    by_cases hfin : final s
    · exact ⟨s, .init, hfin⟩
    obtain ⟨s', hreach, hs', hlt⟩ := hstep s hs hfin
    obtain ⟨s'', hreach', hfin'⟩ := ih (μ s') (hn ▸ hlt) hs' rfl
    exact ⟨s'', hreach.trans hreach', hfin'⟩

/-- Run a list of events. -/
def runAll (step : σ → ε → Option σ) : σ → List ε → Option σ
  | s, [] => some s
  | s, e :: es => (step s e).bind fun s' => runAll step s' es

/-- The step function that refuses what the guard does not admit. -/
def guarded (step : σ → ε → Option σ) (ok : σ → ε → Prop) [∀ s e, Decidable (ok s e)] (s : σ)
    (e : ε) : Option σ :=
  if ok s e then step s e else none

/-- Where a list of admitted events leads, or the initial state if it is not a run. -/
def reached (step : σ → ε → Option σ) (ok : σ → ε → Prop) [∀ s e, Decidable (ok s e)] (s₀ : σ)
    (es : List ε) : σ :=
  (runAll (guarded step ok) s₀ es).getD s₀

variable [∀ s e, Decidable (ok s e)]

/-- A run that the guard admits at every step leads to reachable states. -/
theorem Reach.of_runAll : ∀ {es : List ε} {s s' : σ}, Reach step ok s₀ s →
    runAll (guarded step ok) s es = some s' → Reach step ok s₀ s'
  | [], s, s', h, hr => by
    cases hr
    exact h
  | e :: es, s, s', h, hr => by
    simp only [runAll, Option.bind_eq_some_iff] at hr
    obtain ⟨s₁, he, hr⟩ := hr
    unfold guarded at he
    split at he
    · next hok => exact Reach.of_runAll (h.step hok he) hr
    · cases he

/-- Where a list of events leads is reachable. -/
theorem reach_reached (es : List ε) : Reach step ok s₀ (reached step ok s₀ es) := by
  unfold reached
  cases hr : runAll (guarded step ok) s₀ es with
  | none => exact .init
  | some s => exact .of_runAll .init hr

end

end DistLabs.Lib
