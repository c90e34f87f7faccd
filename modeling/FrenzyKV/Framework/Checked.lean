import FrenzyKV.Math.Bytes
import Mathlib.Logic.Relation

namespace Framework

open Bytes Relation

/-- How a computation ends without a result: with an error that it reports, or where it would leave the memory
or wrap a subtraction. -/
inductive Ending (ε : Type)
  | reported (error : ε)
  | outside
deriving DecidableEq, Repr

abbrev Checked (ε α : Type) := Except (Ending ε) α

namespace Checked

variable {ε α β σ τ : Type}

def report (error : ε) : Checked ε α := .error (.reported error)

def leave : Checked ε α := .error .outside

/-- A place that has to be inside. -/
def require (inside : Prop) [Decidable inside] : Checked ε Unit := if inside then .ok () else leave

/-- A difference of unsigned numbers, or of positions. -/
def sub (m n : Nat) : Checked ε Nat := if n ≤ m then .ok (m - n) else leave

/-- The number in the bytes at a position, as far as there are any. -/
def numberAt (width pos : Nat) (bytes : ByteString) : Nat := decodeBigEndian ((bytes.drop pos).take width)

def readAt (width pos : Nat) (bytes : ByteString) : Checked ε Nat := do
  require (pos + width ≤ bytes.length)
  return numberAt width pos bytes

/-- The computation does not leave the memory. -/
def Inside (c : Checked ε α) : Prop := c ≠ leave

variable {c : Checked ε α} {f : α → Checked ε β}

@[simp] theorem inside_ok (a : α) : Inside (.ok a : Checked ε α) := fun left => by cases left

@[simp] theorem inside_pure (a : α) : Inside (pure a : Checked ε α) := inside_ok a

@[simp] theorem inside_report (error : ε) : Inside (report error : Checked ε α) := fun left => by cases left

@[simp] theorem not_inside_leave : ¬ Inside (leave : Checked ε α) := fun inside => inside rfl

/-- A computation inside that reports nothing has a result. -/
theorem exists_ok (inside : c.Inside) (silent : ∀ error, c ≠ report error) : ∃ a, c = .ok a := by
  rcases c with (error | _) | a
  · exact absurd rfl (silent error)
  · exact absurd rfl inside
  · exact ⟨a, rfl⟩

theorem inside_bind_iff : (c >>= f).Inside ↔ c.Inside ∧ ∀ a, c = .ok a → (f a).Inside := by
  cases c with
  | ok a =>
    constructor
    · intro inside
      refine ⟨inside_ok a, fun b same => ?_⟩
      obtain rfl := Except.ok.inj same
      exact inside
    · exact fun both => both.2 a rfl
  | error e =>
    constructor
    · intro inside
      exact ⟨fun left => inside (congrArg (· >>= f) left), fun b same => by cases same⟩
    · exact fun both left => both.1 (by cases left; rfl)

/-- What comes behind needs the same whatever the result is. -/
theorem inside_bind_iff_of_forall {p : Prop} (same : ∀ a, c = .ok a → ((f a).Inside ↔ p)) :
    (c >>= f).Inside ↔ c.Inside ∧ ((∃ a, c = .ok a) → p) := by
  rw [inside_bind_iff]
  refine and_congr_right fun _ => ?_
  constructor
  · rintro all ⟨a, run⟩
    exact (same a run).mp (all a run)
  · exact fun holds a run => (same a run).mpr (holds ⟨a, run⟩)

@[simp] theorem inside_bind_pure_iff {g : α → β} : (c >>= fun a => pure (g a)).Inside ↔ c.Inside := by
  rw [inside_bind_iff]
  exact and_iff_left fun _ _ => inside_pure _

@[simp] theorem inside_require_bind {inside : Prop} [Decidable inside] {f : Unit → Checked ε β} :
    (require inside >>= f).Inside ↔ inside ∧ (f ()).Inside := by
  rw [require]
  split
  · rename_i holds
    exact (and_iff_right holds).symm
  · rename_i fails
    exact iff_of_false (fun inside => inside rfl) fun both => fails both.1

theorem sub_eq_require (m n : Nat) : (sub m n : Checked ε Nat) = require (n ≤ m) >>= fun _ => pure (m - n) := by
  rw [sub, require]
  split
  · rfl
  · rfl

@[simp] theorem inside_sub_bind {m n : Nat} {f : Nat → Checked ε β} :
    (sub m n >>= f).Inside ↔ n ≤ m ∧ (f (m - n)).Inside := by
  rw [sub_eq_require, bind_assoc, inside_require_bind]
  rfl

@[simp] theorem inside_readAt_bind {width pos : Nat} {bytes : ByteString} {f : Nat → Checked ε β} :
    (readAt width pos bytes >>= f).Inside ↔
      pos + width ≤ bytes.length ∧ (f (numberAt width pos bytes)).Inside := by
  rw [readAt, bind_assoc, inside_require_bind]
  rfl

@[simp] theorem inside_ite {p : Prop} [Decidable p] {d : Checked ε α} :
    (if p then c else d).Inside ↔ (p → c.Inside) ∧ (¬ p → d.Inside) := by
  split
  · rename_i holds
    exact ⟨fun inside => ⟨fun _ => inside, fun fails => absurd holds fails⟩, fun both => both.1 holds⟩
  · rename_i fails
    exact ⟨fun inside => ⟨fun holds => absurd holds fails, fun _ => inside⟩, fun both => both.2 fails⟩

theorem bind_eq_ok_iff {b : β} : c >>= f = .ok b ↔ ∃ a, c = .ok a ∧ f a = .ok b := by
  cases c with
  | ok a =>
    constructor
    · exact fun run => ⟨a, rfl, run⟩
    · rintro ⟨a', same, run⟩
      obtain rfl := Except.ok.inj same
      exact run
  | error e =>
    constructor
    · intro run
      cases run
    · rintro ⟨a, same, _⟩
      cases same

theorem exists_bind_iff_of_forall {p : Prop} (same : ∀ a, c = .ok a → ((∃ b, f a = .ok b) ↔ p)) :
    (∃ b, c >>= f = .ok b) ↔ (∃ a, c = .ok a) ∧ p := by
  constructor
  · rintro ⟨b, run⟩
    obtain ⟨a, before, later⟩ := bind_eq_ok_iff.mp run
    exact ⟨⟨a, before⟩, (same a before).mp ⟨b, later⟩⟩
  · rintro ⟨⟨a, before⟩, holds⟩
    obtain ⟨b, later⟩ := (same a before).mpr holds
    exact ⟨b, bind_eq_ok_iff.mpr ⟨a, before, later⟩⟩

@[simp] theorem exists_bind_pure_iff {g : α → β} :
    (∃ b, c >>= (fun a => pure (g a)) = .ok b) ↔ ∃ a, c = .ok a := by
  have same (a : α) (_ : c = .ok a) : (∃ b, (pure (g a) : Checked ε β) = .ok b) ↔ True :=
    iff_of_true ⟨g a, rfl⟩ trivial
  rw [exists_bind_iff_of_forall same, and_true]

@[simp] theorem require_bind_eq_ok_iff {inside : Prop} [Decidable inside] {f : Unit → Checked ε β} {b : β} :
    require inside >>= f = .ok b ↔ inside ∧ f () = .ok b := by
  rw [require]
  split
  · rename_i holds
    exact (and_iff_right holds).symm
  · rename_i fails
    exact iff_of_false (fun run => by cases run) fun both => fails both.1

@[simp] theorem sub_bind_eq_ok_iff {m n : Nat} {f : Nat → Checked ε β} {b : β} :
    sub m n >>= f = .ok b ↔ n ≤ m ∧ f (m - n) = .ok b := by
  rw [sub_eq_require, bind_assoc, require_bind_eq_ok_iff]
  rfl

@[simp] theorem readAt_bind_eq_ok_iff {width pos : Nat} {bytes : ByteString} {f : Nat → Checked ε β} {b : β} :
    readAt width pos bytes >>= f = .ok b ↔
      pos + width ≤ bytes.length ∧ f (numberAt width pos bytes) = .ok b := by
  rw [readAt, bind_assoc, require_bind_eq_ok_iff]
  rfl

@[simp] theorem not_report_eq_ok {error : ε} {a : α} : ¬ (report error : Checked ε α) = .ok a :=
  fun run => by cases run

@[simp] theorem not_leave_eq_ok {a : α} : ¬ (leave : Checked ε α) = .ok a := fun run => by cases run

@[simp] theorem pure_eq_ok_iff {a b : α} : (pure a : Checked ε α) = .ok b ↔ a = b :=
  ⟨Except.ok.inj, congrArg _⟩

theorem readAt_of_inside {width pos : Nat} {bytes : ByteString} (inside : pos + width ≤ bytes.length) :
    (readAt width pos bytes : Checked ε Nat) = .ok (numberAt width pos bytes) := by
  rw [readAt, require, if_pos inside]
  rfl

theorem readAt_bind_of_inside {width pos : Nat} {bytes : ByteString} {f : Nat → Checked ε β}
    (inside : pos + width ≤ bytes.length) : readAt width pos bytes >>= f = f (numberAt width pos bytes) := by
  rw [readAt_of_inside inside]
  rfl

theorem sub_of_le {m n : Nat} (le : n ≤ m) : (sub m n : Checked ε Nat) = .ok (m - n) := if_pos le

theorem sub_bind_of_le {m n : Nat} {f : Nat → Checked ε β} (le : n ≤ m) : sub m n >>= f = f (m - n) := by
  rw [sub_of_le le]
  rfl

section Walk

/-- The step goes on to another place. -/
def Hops (step : σ → Checked ε (Option (β × σ))) (s s' : σ) : Prop := ∃ b, step s = .ok (some (b, s'))

/-- A loop that goes from place to place until its step ends it: what it collects, and where it ends. -/
def walk (step : σ → Checked ε (Option (β × σ))) (size : σ → Nat)
    (shrinks : ∀ s s', Hops step s s' → size s' < size s) (s : σ) : Checked ε (List β × σ) :=
  match _taken : step s with
  | .error e => .error e
  | .ok none => .ok ([], s)
  | .ok (some (b, s')) => (walk step size shrinks s').map fun rest => (b :: rest.1, rest.2)
termination_by size s
decreasing_by exact shrinks s s' ⟨b, _taken⟩

variable {step : σ → Checked ε (Option (β × σ))} {size : σ → Nat}
  {shrinks : ∀ s s', Hops step s s' → size s' < size s} {s : σ}

theorem walk_of_error {e : Ending ε} (ends : step s = .error e) : walk step size shrinks s = .error e := by
  rw [walk]
  split
  · rename_i same
    rw [ends] at same
    exact congrArg _ (Except.error.inj same).symm
  · rename_i same
    rw [ends] at same
    cases same
  · rename_i same
    rw [ends] at same
    cases same

theorem walk_of_none (ends : step s = .ok none) : walk step size shrinks s = .ok ([], s) := by
  rw [walk]
  split
  · rename_i same
    rw [ends] at same
    cases same
  · rfl
  · rename_i same
    rw [ends] at same
    cases same

theorem walk_of_some {b : β} {s' : σ} (taken : step s = .ok (some (b, s'))) :
    walk step size shrinks s = (walk step size shrinks s').map fun rest => (b :: rest.1, rest.2) := by
  rw [walk]
  split
  · rename_i same
    rw [taken] at same
    cases same
  · rename_i same
    rw [taken] at same
    cases same
  · rename_i same
    rw [taken] at same
    obtain ⟨rfl, rfl⟩ := Prod.mk.inj (Option.some.inj (Except.ok.inj same))
    rfl

theorem inside_map {g : α → β} : Inside (c.map g) ↔ c.Inside := by
  cases c with
  | ok a => exact iff_of_true (inside_ok _) (inside_ok _)
  | error e =>
    constructor
    · intro inside left
      cases left
      exact inside rfl
    · intro inside left
      cases left
      exact inside rfl

/-- A walk stays inside exactly when the step does at every place that it reaches. -/
theorem inside_walk_iff : (walk step size shrinks s).Inside ↔
    ∀ s', ReflTransGen (Hops step) s s' → (step s').Inside := by
  induction s using walk.induct step size shrinks with
  | case1 s e ends =>
    rw [walk_of_error ends]
    constructor
    · intro inside s' reached
      cases reached.cases_head with
      | inl here =>
        rw [← here, ends]
        exact fun left => inside (by cases left; rfl)
      | inr later =>
        obtain ⟨_, ⟨b, taken⟩, _⟩ := later
        rw [ends] at taken
        cases taken
    · intro all
      have here := all s .refl
      rw [ends] at here
      exact fun left => here (by cases left; rfl)
  | case2 s ends =>
    rw [walk_of_none ends]
    refine iff_of_true (inside_ok _) fun s' reached => ?_
    cases reached.cases_head with
    | inl here =>
      rw [← here, ends]
      exact inside_ok _
    | inr later =>
      obtain ⟨_, ⟨b, taken⟩, _⟩ := later
      rw [ends] at taken
      cases taken
  | case3 s b s' taken ih =>
    rw [walk_of_some taken, inside_map, ih]
    constructor
    · intro all t reached
      cases reached.cases_head with
      | inl here =>
        rw [← here, taken]
        exact inside_ok _
      | inr later =>
        obtain ⟨next, ⟨b', taken'⟩, rest⟩ := later
        rw [taken] at taken'
        obtain ⟨_, rfl⟩ := Prod.mk.inj (Option.some.inj (Except.ok.inj taken'))
        exact all t rest
    · exact fun all t rest => all t (rest.head ⟨b, taken⟩)

/-- A walk that ends has reached its last place, where the step goes nowhere. -/
theorem reached_of_walk {bs : List β} {last : σ} (walked : walk step size shrinks s = .ok (bs, last)) :
    ReflTransGen (Hops step) s last ∧ step last = .ok none := by
  induction s using walk.induct step size shrinks generalizing bs with
  | case1 s e ends =>
    rw [walk_of_error ends] at walked
    cases walked
  | case2 s ends =>
    rw [walk_of_none ends] at walked
    obtain ⟨_, rfl⟩ := Prod.mk.inj (Except.ok.inj walked)
    exact ⟨.refl, ends⟩
  | case3 s b s' taken ih =>
    rw [walk_of_some taken] at walked
    cases later : walk step size shrinks s' with
    | error e =>
      rw [later] at walked
      cases walked
    | ok rest =>
      rw [later] at walked
      obtain ⟨_, rfl⟩ := Prod.mk.inj (Except.ok.inj walked)
      obtain ⟨reached, ends⟩ := ih later
      exact ⟨reached.head ⟨b, taken⟩, ends⟩

/-- A walk that fails fails at a place that it has reached. -/
theorem reached_of_walk_error {e : Ending ε} (walked : walk step size shrinks s = .error e) :
    ∃ s', ReflTransGen (Hops step) s s' ∧ step s' = .error e := by
  induction s using walk.induct step size shrinks with
  | case1 s e' ends =>
    rw [walk_of_error ends] at walked
    exact ⟨s, .refl, Except.error.inj walked ▸ ends⟩
  | case2 s ends =>
    rw [walk_of_none ends] at walked
    cases walked
  | case3 s b s' taken ih =>
    rw [walk_of_some taken] at walked
    cases later : walk step size shrinks s' with
    | ok rest =>
      rw [later] at walked
      cases walked
    | error e' =>
      rw [later] at walked
      obtain rfl := Except.error.inj walked
      obtain ⟨t, reached, fails⟩ := ih later
      exact ⟨t, reached.head ⟨b, taken⟩, fails⟩

theorem walk_of_reached {last : σ} (reached : ReflTransGen (Hops step) s last) (ends : step last = .ok none) :
    ∃ bs, walk step size shrinks s = .ok (bs, last) := by
  induction reached using ReflTransGen.head_induction_on with
  | refl => exact ⟨[], walk_of_none ends⟩
  | head hop _ ih =>
    obtain ⟨b, taken⟩ := hop
    obtain ⟨bs, walked⟩ := ih
    refine ⟨b :: bs, ?_⟩
    rw [walk_of_some taken, walked]
    rfl

end Walk

section Places

variable {R : σ → σ → Prop} {R' : τ → τ → Prop} {place : σ → τ} {P : τ → Prop}

theorem reached_place (same : ∀ s t, P (place s) → (R' (place s) t ↔ ∃ s', R s s' ∧ place s' = t)) {s : σ}
    (all : ∀ s', ReflTransGen R s s' → P (place s')) {t : τ} (reached : ReflTransGen R' (place s) t) :
    ∃ s', ReflTransGen R s s' ∧ place s' = t := by
  induction reached with
  | refl => exact ⟨s, .refl, rfl⟩
  | tail _ hop ih =>
    obtain ⟨s', before, rfl⟩ := ih
    obtain ⟨s'', taken, eq⟩ := (same s' _ (all s' before)).mp hop
    exact ⟨s'', before.tail taken, eq⟩

/-- A property of places holds wherever the states go exactly if it holds wherever the places go, when they go
the same ways as long as it does. -/
theorem forall_reached_iff (same : ∀ s t, P (place s) → (R' (place s) t ↔ ∃ s', R s s' ∧ place s' = t))
    (s : σ) : (∀ s', ReflTransGen R s s' → P (place s')) ↔ ∀ t, ReflTransGen R' (place s) t → P t := by
  constructor
  · intro all t reached
    obtain ⟨s', there, rfl⟩ := reached_place same all reached
    exact all s' there
  · intro all s' reached
    apply all
    induction reached with
    | refl => exact .refl
    | tail _ taken ih => exact ih.tail ((same _ _ (all _ ih)).mpr ⟨_, taken, rfl⟩)

end Places

end Checked

end Framework
