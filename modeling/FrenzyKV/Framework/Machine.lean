import Mathlib.Algebra.GroupWithZero.Nat
import Mathlib.Data.Option.Basic

namespace Framework

variable {σ α : Type*}

/-- A system that takes one partial step for each action. -/
structure Machine (σ α : Type*) where
  init : σ → Prop
  step : σ → α → Option σ

/-- The states of the runs whose every step meets `ok`. -/
inductive Reach (M : Machine σ α) (ok : σ → α → Prop) : σ → Prop
  | init {s : σ} (initial : M.init s) : Reach M ok s
  | step {s s' : σ} {a : α} (before : Reach M ok s) (allowed : ok s a)
      (taken : M.step s a = some s') : Reach M ok s'

namespace Reach

variable {M : Machine σ α} {ok : σ → α → Prop}

/-- What holds at the start and survives every allowed step holds along every run. -/
theorem invariant {P : σ → Prop} (base : ∀ s, M.init s → P s)
    (keep : ∀ s a s', P s → ok s a → M.step s a = some s' → P s') {s : σ}
    (reached : Reach M ok s) : P s := by
  induction reached with
  | init initial => exact base _ initial
  | step _ allowed taken ih => exact keep _ _ _ ih allowed taken

end Reach

namespace Machine

/-- Run a list of actions, refusing the run at the first action that is not enabled. -/
def run (M : Machine σ α) : σ → List α → Option σ
  | s, [] => some s
  | s, a :: as => (M.step s a).bind fun s' => M.run s' as

theorem run_append (M : Machine σ α) (s : σ) (as bs : List α) :
    M.run s (as ++ bs) = (M.run s as).bind fun s' => M.run s' bs := by
  induction as generalizing s with
  | nil => rfl
  | cons a as ih => simp only [List.cons_append, run, ih, Option.bind_assoc]

/-- An action that changes nothing changes nothing when it is repeated. -/
theorem eq_of_run_replicate {M : Machine σ α} {s s' : σ} {a : α} (idle : M.step s a = some s) {n : Nat}
    (ran : M.run s (List.replicate n a) = some s') : s' = s := by
  induction n with
  | zero => exact (Option.some.inj ran).symm
  | succ n ih =>
    obtain ⟨mid, taken, rest⟩ := Option.bind_eq_some_iff.mp ran
    obtain rfl := Option.some.inj (idle.symm.trans taken)
    exact ih rest

theorem reach_of_run (M : Machine σ α) {ok : σ → α → Prop} (free : ∀ s a, ok s a)
    {s s' : σ} {as : List α} (start : Reach M ok s) (ran : M.run s as = some s') :
    Reach M ok s' := by
  induction as generalizing s with
  | nil =>
    obtain rfl : s = s' := by simpa [run] using ran
    exact start
  | cons a as ih =>
    obtain ⟨mid, taken, rest⟩ := Option.bind_eq_some_iff.mp ran
    exact ih (.step start (free s a) taken) rest

/-- What every step keeps holds at the end of a run. -/
theorem invariant_of_run {M : Machine σ α} {P : σ → Prop}
    (keep : ∀ s a s', P s → M.step s a = some s' → P s') {s s' : σ} {as : List α} (start : P s)
    (ran : M.run s as = some s') : P s' := by
  induction as generalizing s with
  | nil => exact Option.some.inj ran ▸ start
  | cons a as ih =>
    obtain ⟨mid, taken, rest⟩ := Option.bind_eq_some_iff.mp ran
    exact ih (keep s a mid start taken) rest

/-- The machine that takes only the allowed steps. -/
def restrict (M : Machine σ α) (ok : σ → α → Prop) [∀ s a, Decidable (ok s a)] :
    Machine σ α where
  init := M.init
  step s a := if ok s a then M.step s a else none

theorem reach_of_restrict {M : Machine σ α} {ok : σ → α → Prop} [∀ s a, Decidable (ok s a)]
    {s : σ} (reached : Reach (M.restrict ok) (fun _ _ => True) s) : Reach M ok s := by
  induction reached with
  | init initial => exact .init initial
  | @step s s' a _ _ taken ih =>
    simp only [restrict] at taken
    split at taken
    · exact .step ih ‹_› taken
    · simp at taken

theorem run_of_restrict {M : Machine σ α} {ok : σ → α → Prop} [∀ s a, Decidable (ok s a)]
    {s s' : σ} {as : List α} (ran : (M.restrict ok).run s as = some s') :
    M.run s as = some s' := by
  induction as generalizing s with
  | nil => exact ran
  | cons a as ih =>
    obtain ⟨mid, taken, rest⟩ := Option.bind_eq_some_iff.mp ran
    simp only [restrict] at taken
    split at taken
    · exact Option.bind_eq_some_iff.mpr ⟨mid, taken, ih rest⟩
    · simp at taken

/-- `P` holds in every state that a list of actions leads through, up to the first action that is
not enabled. -/
def Throughout (M : Machine σ α) (P : σ → Prop) : σ → List α → Prop
  | s, [] => P s
  | s, a :: as => P s ∧ ∀ s', M.step s a = some s' → Throughout M P s' as

/-- Every step that a list of actions takes meets `ok`. -/
def StepsMeet (M : Machine σ α) (ok : σ → α → Prop) : σ → List α → Prop
  | _, [] => True
  | s, a :: as => ∀ s', M.step s a = some s' → ok s a ∧ StepsMeet M ok s' as

variable {M : Machine σ α} {P : σ → Prop} {ok : σ → α → Prop} {s : σ} {as : List α}

theorem stepsMeet_of_restrict [∀ s a, Decidable (ok s a)] {s' : σ}
    (ran : (M.restrict ok).run s as = some s') : M.StepsMeet ok s as := by
  induction as generalizing s with
  | nil => trivial
  | cons a as ih =>
    obtain ⟨mid, taken, rest⟩ := Option.bind_eq_some_iff.mp ran
    obtain ⟨met, taken⟩ := Option.ite_none_right_eq_some.mp taken
    intro t taken'
    obtain rfl := Option.some.inj (taken.symm.trans taken')
    exact ⟨met, ih rest⟩

/-- What every step that meets `ok` keeps holds at the end of a run of such steps. -/
theorem invariant_of_stepsMeet
    (keep : ∀ s a s', P s → ok s a → M.step s a = some s' → P s') (start : P s)
    (meets : M.StepsMeet ok s as) {s' : σ} (ran : M.run s as = some s') : P s' := by
  induction as generalizing s with
  | nil => exact Option.some.inj ran ▸ start
  | cons a as ih =>
    obtain ⟨mid, taken, rest⟩ := Option.bind_eq_some_iff.mp ran
    obtain ⟨met, later⟩ := meets mid taken
    exact ih (keep s a mid start met taken) later rest

theorem Throughout.start (all : M.Throughout P s as) : P s := by
  cases as with
  | nil => exact all
  | cons a as => exact all.1

/-- How many steps of a run meet `p`. -/
def count (M : Machine σ α) (p : σ → α → Bool) : σ → List α → Nat
  | _, [] => 0
  | s, a :: as => (if p s a then 1 else 0) + (M.step s a).elim 0 fun s' => M.count p s' as

/-- When every step that meets `p` is paid from a potential, the runs make no more of them than the
potential gains. -/
theorem count_add_le {I : σ → Prop} {p : σ → α → Bool} (potential : σ → Nat) (gain : α → Nat)
    (keep : ∀ s a s', I s → M.step s a = some s' → I s')
    (pays : ∀ s a s', I s → M.step s a = some s' →
      (if p s a then 1 else 0) + potential s' ≤ potential s + gain a)
    (inv : I s) {s' : σ} (ran : M.run s as = some s') :
    M.count p s as + potential s' ≤ potential s + (as.map gain).sum := by
  induction as generalizing s with
  | nil =>
    obtain rfl := Option.some.inj ran
    exact Nat.le_of_eq (Nat.zero_add _)
  | cons a as ih =>
    obtain ⟨mid, taken, rest⟩ := Option.bind_eq_some_iff.mp ran
    have later := ih (keep s a mid inv taken) rest
    have here := pays s a mid inv taken
    rw [count, taken, Option.elim_some, List.map_cons, List.sum_cons]
    omega

/-- When a step keeps `P` exactly if it meets `ok`, given an invariant of all steps, a run keeps `P`
exactly if its steps do. -/
theorem throughout_iff_of_invariant {I : σ → Prop} (keep : ∀ s a s', I s → M.step s a = some s' → I s')
    (exactly : ∀ s a s', I s → P s → M.step s a = some s' → (P s' ↔ ok s a)) (inv : I s)
    (start : P s) : M.Throughout P s as ↔ M.StepsMeet ok s as := by
  induction as generalizing s with
  | nil => exact iff_of_true start trivial
  | cons a as ih =>
    constructor
    · rintro ⟨_, later⟩ s' taken
      have all := later s' taken
      have inv' := keep s a s' inv taken
      exact ⟨(exactly s a s' inv start taken).mp all.start, (ih inv' all.start).mp all⟩
    · intro meets
      refine ⟨start, fun s' taken => ?_⟩
      obtain ⟨met, later⟩ := meets s' taken
      exact (ih (keep s a s' inv taken) ((exactly s a s' inv start taken).mpr met)).mpr later

theorem throughout_iff (exactly : ∀ s a s', P s → M.step s a = some s' → (P s' ↔ ok s a))
    (start : P s) : M.Throughout P s as ↔ M.StepsMeet ok s as :=
  @throughout_iff_of_invariant _ _ M P ok s as (fun _ => True) (fun _ _ _ _ _ => trivial)
    (fun s a s' _ => exactly s a s') trivial start

end Machine

end Framework
