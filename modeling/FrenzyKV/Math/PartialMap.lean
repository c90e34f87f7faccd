import Mathlib.Data.List.Forall2

namespace PartialMap

variable {α β γ : Type*} {f : α → Option β} {g : β → Option γ} {l : List α} {r : List β} {b : β}

/-- A partial map over a list is defined where it is defined on each element. -/
theorem mapM_eq_some_iff : l.mapM f = some r ↔ List.Forall₂ (fun a b => f a = some b) l r := by
  constructor
  · intro run
    induction l generalizing r with
    | nil =>
      obtain rfl := Option.some.inj run
      exact .nil
    | cons a l ih =>
      rw [List.mapM_cons] at run
      obtain ⟨b, first, run⟩ := Option.bind_eq_some_iff.mp run
      obtain ⟨later, rest, eq⟩ := Option.bind_eq_some_iff.mp run
      obtain rfl := Option.some.inj eq
      exact .cons first (ih rest)
  · intro each
    induction each with
    | nil => rfl
    | cons first _ ih =>
      rw [List.mapM_cons, first, ih]
      rfl

theorem exists_mapM (each : ∀ a ∈ l, ∃ b, f a = some b) : ∃ r, l.mapM f = some r := by
  induction l with
  | nil => exact ⟨[], rfl⟩
  | cons a l ih =>
    obtain ⟨⟨b, first⟩, later⟩ := List.forall_mem_cons.mp each
    obtain ⟨r, rest⟩ := ih later
    exact ⟨b :: r, mapM_eq_some_iff.mpr (.cons first (mapM_eq_some_iff.mp rest))⟩

theorem mem_of_mapM (run : l.mapM f = some r) (mem : b ∈ r) : ∃ a ∈ l, f a = some b := by
  induction mapM_eq_some_iff.mp run with
  | nil => exact absurd mem List.not_mem_nil
  | @cons a c l r first rest ih =>
    cases List.mem_cons.mp mem with
    | inl same => exact ⟨a, List.mem_cons_self, same ▸ first⟩
    | inr later =>
      obtain ⟨a', inside, found⟩ := ih (mapM_eq_some_iff.mpr rest) later
      exact ⟨a', List.mem_cons_of_mem a inside, found⟩

theorem exists_of_mapM {a : α} (run : l.mapM f = some r) (mem : a ∈ l) : ∃ b, f a = some b := by
  induction mapM_eq_some_iff.mp run with
  | nil => exact absurd mem List.not_mem_nil
  | @cons a' c l r first rest ih =>
    cases List.mem_cons.mp mem with
    | inl same => exact ⟨c, same ▸ first⟩
    | inr later => exact ih (mapM_eq_some_iff.mpr rest) later

theorem mapM_map_eq_some {h : α → γ} {k : α → β} {p : γ → Option β} (each : ∀ a ∈ l, p (h a) = some (k a)) :
    (l.map h).mapM p = some (l.map k) := by
  refine mapM_eq_some_iff.mpr (List.forall₂_map_left_iff.mpr (List.forall₂_map_right_iff.mpr ?_))
  exact List.forall₂_same.mpr each

/-- Two partial maps one after the other are one partial map. -/
theorem mapM_bind (f : α → Option β) (g : β → Option γ) (l : List α) :
    (l.mapM f).bind (·.mapM g) = l.mapM fun a => (f a).bind g := by
  induction l with
  | nil => rfl
  | cons a l ih =>
    rw [List.mapM_cons, List.mapM_cons, ← ih]
    cases f a with
    | none => rfl
    | some b =>
      cases rest : l.mapM f with
      | none => exact (Option.bind_fun_none (g b)).symm
      | some r =>
        change ((b :: r).mapM g) = _
        rw [List.mapM_cons]
        rfl

end PartialMap
