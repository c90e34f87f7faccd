import Mathlib.Data.List.Basic

namespace Framework

variable {σ ε : Type*} (apply : σ → ε → σ)

/-- The states after each number of effects. -/
def crashStates : σ → List ε → List σ
  | s, [] => [s]
  | s, e :: es => s :: crashStates (apply s e) es

variable {apply} {s t : σ} {es fs : List ε}

theorem start_mem_crashStates : s ∈ crashStates apply s es := by
  cases es <;> simp [crashStates]

theorem end_mem_crashStates : es.foldl apply s ∈ crashStates apply s es := by
  induction es generalizing s with
  | nil => simp [crashStates]
  | cons e es ih => exact List.mem_cons_of_mem _ ih

theorem mem_crashStates_append :
    t ∈ crashStates apply s (es ++ fs) ↔
      t ∈ crashStates apply s es ∨ t ∈ crashStates apply (es.foldl apply s) fs := by
  induction es generalizing s with
  | nil =>
    simp only [List.nil_append, crashStates, List.foldl_nil, List.mem_singleton, iff_or_self]
    intro eq
    exact eq ▸ start_mem_crashStates
  | cons e es ih => simp only [List.cons_append, crashStates, List.mem_cons, List.foldl_cons, ih, or_assoc]

/-- What holds at the start and survives each effect holds wherever the sequence is cut. -/
theorem forall_crashStates {P : σ → Prop} (start : P s) (keep : ∀ s, ∀ e ∈ es, P s → P (apply s e)) :
    ∀ t ∈ crashStates apply s es, P t := by
  induction es generalizing s with
  | nil =>
    intro t mem
    exact List.mem_singleton.mp mem ▸ start
  | cons e es ih =>
    intro t mem
    cases List.mem_cons.mp mem with
    | inl eq => exact eq ▸ start
    | inr later =>
      exact ih (keep s e List.mem_cons_self start)
        (fun s x hx => keep s x (List.mem_cons_of_mem _ hx)) t later

end Framework
