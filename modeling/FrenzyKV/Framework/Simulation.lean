import FrenzyKV.Framework.Machine

namespace Framework

variable {σ τ α : Type*}

/-- Each allowed step of the concrete machine is a step of the abstract one, between states that
are related again. -/
structure Simulates (A : Machine σ α) (C : Machine τ α) (ok : τ → α → Prop) (R : σ → τ → Prop) :
    Prop where
  start : ∀ t, C.init t → ∃ s, A.init s ∧ R s t
  step : ∀ s t a t', R s t → ok t a → C.step t a = some t' → ∃ s', A.step s a = some s' ∧ R s' t'

namespace Simulates

variable {A : Machine σ α} {C : Machine τ α} {ok : τ → α → Prop} {R : σ → τ → Prop} {s : σ}
  {t t' : τ}

theorem run (sim : Simulates A C ok R) {as : List α} (related : R s t)
    (allowed : C.StepsMeet ok t as) (ran : C.run t as = some t') :
    ∃ s', A.run s as = some s' ∧ R s' t' := by
  induction as generalizing s t with
  | nil =>
    obtain rfl := Option.some.inj ran
    exact ⟨s, rfl, related⟩
  | cons a as ih =>
    obtain ⟨mid, taken, rest⟩ := Option.bind_eq_some_iff.mp ran
    obtain ⟨met, later⟩ := allowed mid taken
    obtain ⟨mid', taken', related'⟩ := sim.step s t a mid related met taken
    obtain ⟨s', ran', last⟩ := ih related' later rest
    exact ⟨s', by rw [Machine.run, taken', Option.bind_some, ran'], last⟩

/-- The runs of the concrete machine are runs of the abstract one. -/
theorem reach (sim : Simulates A C ok R) (reached : Reach C ok t) :
    ∃ s, Reach A (fun _ _ => True) s ∧ R s t := by
  induction reached with
  | init initial =>
    obtain ⟨s, start, related⟩ := sim.start _ initial
    exact ⟨s, .init start, related⟩
  | step _ allowed taken ih =>
    obtain ⟨s, before, related⟩ := ih
    obtain ⟨s', taken', related'⟩ := sim.step _ _ _ _ related allowed taken
    exact ⟨s', .step before trivial taken', related'⟩

end Simulates

end Framework
