import Mathlib.Logic.Relation

namespace Framework

/-- What a program does with locks. All other data decides which branch it takes. -/
inductive LockProgram (L : Type*) where
  | done
  | lock (l : L) (body : LockProgram L)
  | tryLock (l : L) (body : LockProgram L)
  | seq (first second : LockProgram L)
  | choice (left right : LockProgram L)
  | loop (body : LockProgram L)
deriving DecidableEq

namespace LockProgram

variable {L : Type*}

/-- What a thread still has to do. It holds the locks that it has to release. -/
inductive Task (L : Type*) where
  | run (p : LockProgram L)
  | release (l : L)
deriving DecidableEq

abbrev Thread (L : Type*) := List (Task L)

def held : Thread L → List L
  | [] => []
  | .run _ :: rest => held rest
  | .release l :: rest => l :: held rest

/-- One step of a thread when `taken` says which locks are held; `b` decides what the data decides.
A thread that is done, or that waits for a lock, has no step. -/
def stepThread (taken : L → Bool) (b : Bool) : Thread L → Option (Thread L)
  | [] => none
  | .release _ :: rest => some rest
  | .run .done :: rest => some rest
  | .run (.lock l p) :: rest => if taken l then none else some (.run p :: .release l :: rest)
  | .run (.tryLock l p) :: rest =>
    if taken l then some rest else some (.run p :: .release l :: rest)
  | .run (.seq p q) :: rest => some (.run p :: .run q :: rest)
  | .run (.choice p q) :: rest => some (.run (if b then p else q) :: rest)
  | .run (.loop p) :: rest => some (if b then .run p :: .run (.loop p) :: rest else rest)

inductive Action (L : Type*) where
  | spawn (p : LockProgram L)
  | move (i : Nat) (b : Bool)

section System

variable [DecidableEq L]

def taken (s : List (Thread L)) (l : L) : Bool := s.any fun t => l ∈ held t

def step (s : List (Thread L)) : Action L → Option (List (Thread L))
  | .spawn p => some (s ++ [[.run p]])
  | .move i b => (s[i]?).bind fun t => (stepThread (taken s) b t).map (s.set i)

def CanMove (s : List (Thread L)) (i : Nat) : Prop := ∃ b s', step s (.move i b) = some s'

/-- The next task of thread `i` is to take a lock that thread `j` holds. -/
def WaitsFor (s : List (Thread L)) (i j : Nat) : Prop :=
  ∃ l p rest t, s[i]? = some (.run (.lock l p) :: rest) ∧ s[j]? = some t ∧ l ∈ held t

end System

section Order

variable (rank : L → Nat)

/-- The program waits only for locks that rank above all that are held then. -/
def Ordered : List L → LockProgram L → Prop
  | _, .done => True
  | above, .lock l p => (∀ h ∈ above, rank h < rank l) ∧ Ordered (l :: above) p
  | above, .tryLock l p => Ordered (l :: above) p
  | above, .seq p q => Ordered above p ∧ Ordered above q
  | above, .choice p q => Ordered above p ∧ Ordered above q
  | above, .loop p => Ordered above p

def OrderedThread : Thread L → Prop
  | [] => True
  | .run p :: rest => Ordered rank (held rest) p ∧ OrderedThread rest
  | .release _ :: rest => OrderedThread rest

variable {rank}

theorem orderedThread_step {locked : L → Bool} {b : Bool} {t t' : Thread L}
    (ordered : OrderedThread rank t) (moved : stepThread locked b t = some t') : OrderedThread rank t' := by
  cases t with
  | nil => cases moved
  | cons task rest =>
    cases task with
    | release l => exact Option.some.inj moved ▸ ordered
    | run p =>
      obtain ⟨here, later⟩ := ordered
      cases p with
      | done => exact Option.some.inj moved ▸ later
      | lock l p =>
        obtain ⟨-, eq⟩ := Option.ite_none_left_eq_some.mp moved
        exact Option.some.inj eq ▸ ⟨here.2, later⟩
      | tryLock l p =>
        rw [stepThread] at moved
        split at moved
        · exact Option.some.inj moved ▸ later
        · exact Option.some.inj moved ▸ ⟨here, later⟩
      | seq p q => exact Option.some.inj moved ▸ ⟨here.1, here.2, later⟩
      | choice p q =>
        cases b with
        | true => exact Option.some.inj moved ▸ ⟨here.1, later⟩
        | false => exact Option.some.inj moved ▸ ⟨here.2, later⟩
      | loop p =>
        cases b with
        | true => exact Option.some.inj moved ▸ ⟨here, here, later⟩
        | false => exact Option.some.inj moved ▸ later

/-- A thread with something to do can go on, or waits for a lock. -/
theorem exists_stepThread (locked : L → Bool) {t : Thread L} (busy : t ≠ []) :
    (∃ t', stepThread locked true t = some t') ∨
      ∃ l p rest, t = .run (.lock l p) :: rest ∧ locked l = true := by
  cases t with
  | nil => exact absurd rfl busy
  | cons task rest =>
    cases task with
    | release l => exact Or.inl ⟨_, rfl⟩
    | run p =>
      cases p with
      | lock l p =>
        cases held : locked l with
        | true => exact Or.inr ⟨l, p, rest, rfl, held⟩
        | false => exact Or.inl ⟨_, by rw [stepThread, held]; rfl⟩
      | tryLock l p =>
        cases held : locked l with
        | true => exact Or.inl ⟨_, by rw [stepThread, held]; rfl⟩
        | false => exact Or.inl ⟨_, by rw [stepThread, held]; rfl⟩
      | done => exact Or.inl ⟨_, rfl⟩
      | seq p q => exact Or.inl ⟨_, rfl⟩
      | choice p q => exact Or.inl ⟨_, rfl⟩
      | loop p => exact Or.inl ⟨_, rfl⟩

variable [DecidableEq L]

theorem ordered_step {s s' : List (Thread L)} (all : ∀ t ∈ s, OrderedThread rank t) {a : Action L}
    (started : ∀ p, a = .spawn p → Ordered rank [] p) (taken : step s a = some s') :
    ∀ t ∈ s', OrderedThread rank t := by
  cases a with
  | spawn p =>
    obtain rfl := Option.some.inj taken
    intro t mem
    rcases List.mem_append.mp mem with old | new
    · exact all t old
    · obtain rfl := List.mem_singleton.mp new
      exact ⟨started p rfl, trivial⟩
  | move i b =>
    obtain ⟨t, found, rest⟩ := Option.bind_eq_some_iff.mp taken
    obtain ⟨t', moved, rfl⟩ := Option.map_eq_some_iff.mp rest
    intro u mem
    rcases List.mem_or_eq_of_mem_set mem with old | rfl
    · exact all u old
    · exact orderedThread_step (all t (List.mem_of_getElem? found)) moved

theorem canMove_of_stepThread {s : List (Thread L)} {i : Nat} {t t' : Thread L} {b : Bool}
    (found : s[i]? = some t) (moved : stepThread (taken s) b t = some t') : CanMove s i :=
  ⟨b, s.set i t', by rw [step, found, Option.bind_some, moved, Option.map_some]⟩

/-- Along the chain of waiting threads the wanted locks climb. -/
theorem waitsFor_of_blocked {bound : Nat} (bounded : ∀ l, rank l ≤ bound) {s : List (Thread L)}
    (ordered : ∀ t ∈ s, OrderedThread rank t) {l : L} {p : LockProgram L} {rest : Thread L} {i : Nat}
    (found : s[i]? = some (.run (.lock l p) :: rest)) (locked : taken s l = true) :
    ∃ j, Relation.ReflTransGen (WaitsFor s) i j ∧ CanMove s j := by
  induction room : bound - rank l using Nat.strongRecOn generalizing i l p rest with
  | ind n ih =>
    obtain ⟨u, mem, holds⟩ := List.any_eq_true.mp locked
    have holds := of_decide_eq_true holds
    obtain ⟨j, at_j⟩ := List.mem_iff_getElem?.mp mem
    have waits : WaitsFor s i j := ⟨l, p, rest, u, found, at_j, holds⟩
    have busy : u ≠ [] := by
      rintro rfl
      exact absurd holds List.not_mem_nil
    rcases exists_stepThread (taken s) busy with ⟨u', moved⟩ | ⟨l', p', rest', rfl, locked'⟩
    · exact ⟨j, .single waits, canMove_of_stepThread at_j moved⟩
    · have climbs : rank l < rank l' := (ordered _ mem).1.1 l holds
      have top := bounded l'
      obtain ⟨k, chain, moves⟩ := ih (bound - rank l') (by omega) at_j locked' rfl
      exact ⟨k, chain.head waits, moves⟩

/-- With locks taken in order, every thread that is not done can go on, or waits, through a chain of
threads that hold what the one before wants, for a thread that can. -/
theorem waitsFor_canMove {bound : Nat} (bounded : ∀ l, rank l ≤ bound) {s : List (Thread L)}
    (ordered : ∀ t ∈ s, OrderedThread rank t) {i : Nat} {t : Thread L} (found : s[i]? = some t)
    (busy : t ≠ []) :
    ∃ j, Relation.ReflTransGen (WaitsFor s) i j ∧ CanMove s j := by
  rcases exists_stepThread (taken s) busy with ⟨t', moved⟩ | ⟨l, p, rest, rfl, locked⟩
  · exact ⟨i, .refl, canMove_of_stepThread found moved⟩
  · exact waitsFor_of_blocked bounded ordered found locked

end Order

end LockProgram

end Framework
