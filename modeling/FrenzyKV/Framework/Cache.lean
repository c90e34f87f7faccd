import Mathlib.Data.List.Basic

namespace Framework

/-- The operations of a cache that evicts as it likes. A phantom lookup does not count as a use. -/
structure Cache (κ ν : Type) where
  State : Type
  empty : State
  get : State → κ → State × Option ν
  phantomGet : State → κ → State × Option ν
  put : State → κ → ν → State
  Holds : State → κ → ν → Prop
  not_holds_empty : ∀ k v, ¬ Holds empty k v
  holds_of_get : ∀ s k v, (get s k).2 = some v → Holds s k v
  holds_of_holds_get : ∀ s k k' v, Holds (get s k).1 k' v → Holds s k' v
  holds_of_phantomGet : ∀ s k v, (phantomGet s k).2 = some v → Holds s k v
  holds_of_holds_phantomGet : ∀ s k k' v, Holds (phantomGet s k).1 k' v → Holds s k' v
  holds_of_holds_put : ∀ s k v k' v', Holds (put s k v) k' v' → k' = k ∧ v' = v ∨ Holds s k' v'

namespace Cache

variable {κ ν : Type} (C : Cache κ ν) {P : κ → ν → Prop} {s : C.State} {k : κ} {v : ν}

/-- Everything that is cached meets `P`. -/
def Only (P : κ → ν → Prop) (s : C.State) : Prop := ∀ k v, C.Holds s k v → P k v

variable {C}

theorem only_empty : C.Only P C.empty := fun k v holds => absurd holds (C.not_holds_empty k v)

theorem Only.get (only : C.Only P s) (k : κ) :
    C.Only P (C.get s k).1 ∧ ∀ v, (C.get s k).2 = some v → P k v :=
  ⟨fun k' v holds => only k' v (C.holds_of_holds_get s k k' v holds),
    fun v found => only k v (C.holds_of_get s k v found)⟩

theorem Only.phantomGet (only : C.Only P s) (k : κ) :
    C.Only P (C.phantomGet s k).1 ∧ ∀ v, (C.phantomGet s k).2 = some v → P k v :=
  ⟨fun k' v holds => only k' v (C.holds_of_holds_phantomGet s k k' v holds),
    fun v found => only k v (C.holds_of_phantomGet s k v found)⟩

theorem Only.put (only : C.Only P s) (meets : P k v) : C.Only P (C.put s k v) := by
  intro k' v' holds
  rcases C.holds_of_holds_put s k v k' v' holds with ⟨rfl, rfl⟩ | before
  · exact meets
  · exact only k' v' before

theorem Only.mono {Q : κ → ν → Prop} (only : C.Only P s) (weaker : ∀ k v, P k v → Q k v) : C.Only Q s :=
  fun k v holds => weaker k v (only k v holds)

theorem mem_of_lookup [BEq κ] [LawfulBEq κ] {l : List (κ × ν)} (found : l.lookup k = some v) :
    (k, v) ∈ l := by
  obtain ⟨front, back, rfl, -⟩ := List.lookup_eq_some_iff.mp found
  exact List.mem_append_right _ List.mem_cons_self

/-- The last `capacity` entries that were put in. -/
def latest (κ ν : Type) [BEq κ] [LawfulBEq κ] (capacity : Nat) : Cache κ ν where
  State := List (κ × ν)
  empty := []
  get s k := (s, s.lookup k)
  phantomGet s k := (s, s.lookup k)
  put s k v := ((k, v) :: s).take capacity
  Holds s k v := (k, v) ∈ s
  not_holds_empty _ _ := List.not_mem_nil
  holds_of_get _ _ _ found := mem_of_lookup found
  holds_of_holds_get _ _ _ _ holds := holds
  holds_of_phantomGet _ _ _ found := mem_of_lookup found
  holds_of_holds_phantomGet _ _ _ _ holds := holds
  holds_of_holds_put s k v k' v' holds := by
    cases List.mem_cons.mp (List.mem_of_mem_take holds) with
    | inl here => exact .inl (Prod.mk.inj here)
    | inr before => exact .inr before

section Agrees

variable {α β : Type} (C) (P)

/-- A computation over a cache that holds right entries does what `r` says, and leaves right entries. -/
def Agrees (m : StateT C.State Option α) (r : Option α) : Prop :=
  ∀ s, C.Only P s → match r with
    | none => m s = none
    | some a => ∃ s', m s = some (a, s') ∧ C.Only P s'

variable {C P} {m : StateT C.State Option α} {r : Option α} {f : α → StateT C.State Option β}
  {g : α → Option β}

namespace Agrees

theorem pure (a : α) : C.Agrees P (Pure.pure a) (some a) := fun s only => ⟨s, rfl, only⟩

theorem bind (first : C.Agrees P m r) (next : ∀ a, r = some a → C.Agrees P (f a) (g a)) :
    C.Agrees P (m >>= f) (r.bind g) := by
  intro s only
  have ran := first s only
  cases r with
  | none =>
    change (m s).bind _ = none
    rw [ran]
    rfl
  | some a =>
    obtain ⟨s', eq, only'⟩ := ran
    have rest := next a rfl s' only'
    have step : (m >>= f) s = f a s' := by
      change (m s).bind _ = _
      rw [eq]
      rfl
    rw [Option.bind_some, step]
    exact rest

theorem lift (r : Option α) : C.Agrees P (StateT.lift r) r := by
  intro s only
  cases r with
  | none => rfl
  | some a => exact ⟨s, rfl, only⟩

theorem mapM {l : List α} (each : ∀ a ∈ l, C.Agrees P (f a) (g a)) : C.Agrees P (l.mapM f) (l.mapM g) := by
  induction l with
  | nil => exact pure []
  | cons a l ih =>
    obtain ⟨here, later⟩ := List.forall_mem_cons.mp each
    rw [List.mapM_cons, List.mapM_cons]
    exact here.bind fun b _ => (ih later).bind fun bs _ => pure (b :: bs)

end Agrees

end Agrees

end Cache

end Framework
