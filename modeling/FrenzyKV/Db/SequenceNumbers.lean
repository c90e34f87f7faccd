import FrenzyKV.Db.Snapshot
import FrenzyKV.Util.WriteBatch
import FrenzyKV.Framework.Machine

/-! Inserts that number their batches at the same time (`db/snapshot.h`, `util/write_batch.cc`,
`db/db_local.cc`). -/

namespace FrenzyKV

open Framework

/-- The numbers of `count` entries from `first` on, in 32 bits. -/
def seqRange (first count : Nat) : List Nat :=
  (List.range' first count).map (· % sequenceNumberModulus)

theorem seqRange_of_le {first count : Nat} (fits : first + count ≤ sequenceNumberModulus) :
    seqRange first count = List.range' first count := by
  have same : ∀ n ∈ List.range' first count, n % sequenceNumberModulus = id n := by
    intro n mem
    have inside := List.mem_range'_1.mp mem
    exact Nat.mod_eq_of_lt (by omega)
  rw [seqRange, List.map_congr_left same, List.map_id]

/-- Where the numbers start at zero or do not fit, zero is one of them. -/
theorem zero_mem_seqRange {first count : Nat} (some_entry : count ≠ 0)
    (small : first < sequenceNumberModulus)
    (wraps : first = 0 ∨ sequenceNumberModulus < first + count) : 0 ∈ seqRange first count := by
  rw [seqRange, List.mem_map]
  cases wraps with
  | inl zero => exact ⟨0, List.mem_range'_1.mpr (by omega), Nat.zero_mod _⟩
  | inr beyond => exact ⟨sequenceNumberModulus, List.mem_range'_1.mpr (by omega), Nat.mod_self _⟩

/-- The numbers of the entries. -/
def WriteBatch.seqs (b : WriteBatch) : List Nat := b.entries.map KvEntry.seq

theorem WriteBatch.seqs_setFirstSequenceNum (b : WriteBatch) (num : Nat) :
    (b.setFirstSequenceNum num).seqs = seqRange num b.count := by
  rw [seqs, setFirstSequenceNum, count, seqRange]
  induction b.entries generalizing num with
  | nil => rfl
  | cons e es ih =>
    rw [numbered, List.map_cons, ih, List.length_cons, List.range'_succ, List.map_cons]
    rfl

/-- The counter, the inserts that got a number for their batch and have not used it yet, the numbered
batches, and all numbers in the order in which they were handed out. -/
structure Numbering where
  center : SnapshotCenter
  waiting : List (Nat × WriteBatch)
  numbered : List WriteBatch
  handedOut : List Nat

namespace Numbering

/-- An insert takes a number for its batch, or one of the waiting ones uses its number. -/
inductive Action
  | getNext (batch : WriteBatch)
  | setFirst (insert : Nat)

/-- `get_next_unused_sequence_number` asserts a bound on the count. -/
def getNext (s : Numbering) (batch : WriteBatch) : Option Numbering :=
  if batch.count < sequenceNumberModulus - 1 then
    some { s with
      center := s.center.getNextUnusedSequenceNumber batch.count
      waiting := s.waiting ++ [(s.center.newestUnusedSeq, batch)]
      handedOut := s.handedOut ++ seqRange s.center.newestUnusedSeq batch.count }
  else none

def setFirst (s : Numbering) (insert : Nat) : Option Numbering :=
  s.waiting[insert]?.map fun w =>
    { s with
      waiting := s.waiting.eraseIdx insert
      numbered := s.numbered ++ [w.2.setFirstSequenceNum w.1] }

def start (center : SnapshotCenter) : Numbering := ⟨center, [], [], []⟩

def machine : Machine Numbering Action where
  init s := ∃ center, center.newestUnusedSeq < sequenceNumberModulus ∧ s = start center
  step
    | s, .getNext batch => s.getNext batch
    | s, .setFirst insert => s.setFirst insert

@[simp] theorem step_getNext (s : Numbering) (batch : WriteBatch) :
    machine.step s (.getNext batch) = s.getNext batch := rfl

/-- No two entries share a number; numbers grow, are not the reserved one, and the latest used number
is not below them. -/
structure Sound (s : Numbering) : Prop where
  distinct : (s.numbered.flatMap WriteBatch.seqs).Nodup
  ascending : s.handedOut.Pairwise (· < ·)
  notReserved : 0 ∉ s.handedOut
  used : ∀ n ∈ s.handedOut, n ≤ s.center.leatestUsedSequenceNumber

/-- The batches have the numbers that were handed out, also where those wrap around. -/
structure Accounts (s : Numbering) : Prop where
  small : s.center.newestUnusedSeq < sequenceNumberModulus
  perm : (s.numbered.flatMap WriteBatch.seqs ++
    s.waiting.flatMap fun w => seqRange w.1 w.2.count).Perm s.handedOut

/-- The numbers for the batch are there: the counter is not at zero and does not run past its end. -/
def Fits (s : Numbering) : Action → Prop
  | .getNext batch => batch.count = 0 ∨
      s.center.newestUnusedSeq ≠ 0 ∧ s.center.newestUnusedSeq + batch.count ≤ sequenceNumberModulus
  | .setFirst _ => True

variable {s s' : Numbering} {a : Action} {batch : WriteBatch}

theorem accounts_start {center : SnapshotCenter} (small : center.newestUnusedSeq < sequenceNumberModulus) :
    (start center).Accounts :=
  ⟨small, List.Perm.refl []⟩

theorem sound_start (center : SnapshotCenter) : (start center).Sound where
  distinct := List.nodup_nil
  ascending := List.Pairwise.nil
  notReserved := List.not_mem_nil
  used := List.forall_mem_nil _

theorem getNext_eq_some (taken : s.getNext batch = some s') :
    s' = { s with
      center := s.center.getNextUnusedSequenceNumber batch.count
      waiting := s.waiting ++ [(s.center.newestUnusedSeq, batch)]
      handedOut := s.handedOut ++ seqRange s.center.newestUnusedSeq batch.count } := by
  rw [getNext] at taken
  split at taken
  · exact (Option.some.inj taken).symm
  · cases taken

theorem Accounts.getNext (accounts : s.Accounts) (taken : s.getNext batch = some s') : s'.Accounts := by
  rw [getNext_eq_some taken]
  refine ⟨Nat.mod_lt _ (by decide), ?_⟩
  rw [List.flatMap_append, List.flatMap_singleton, ← List.append_assoc]
  exact accounts.perm.append_right _

/-- The number moves from the insert to the entries of its batch. -/
theorem Accounts.setFirst {insert : Nat} (accounts : s.Accounts)
    (taken : s.setFirst insert = some s') : s'.Accounts := by
  obtain ⟨w, there, rfl⟩ := Option.map_eq_some_iff.mp taken
  obtain ⟨inside, here⟩ := List.getElem?_eq_some_iff.mp there
  have moved : (w :: s.waiting.eraseIdx insert).Perm s.waiting := by
    rw [← here]
    exact List.getElem_cons_eraseIdx_perm inside
  refine ⟨accounts.small, List.Perm.trans ?_ accounts.perm⟩
  rw [List.flatMap_append, List.flatMap_singleton, WriteBatch.seqs_setFirstSequenceNum, List.append_assoc]
  exact (moved.flatMap_right fun w => seqRange w.1 w.2.count).append_left _

theorem Accounts.step (accounts : s.Accounts) (taken : machine.step s a = some s') : s'.Accounts := by
  cases a with
  | getNext batch => exact accounts.getNext taken
  | setFirst insert => exact accounts.setFirst taken

theorem Accounts.distinct (accounts : s.Accounts) (ascending : s.handedOut.Pairwise (· < ·)) :
    (s.numbered.flatMap WriteBatch.seqs).Nodup := by
  have nodup : s.handedOut.Nodup := ascending.imp fun lt => lt.ne
  exact (List.nodup_append.mp (accounts.perm.nodup_iff.mpr nodup)).1

/-- The latest used number after a call, also when the counter ends at zero. -/
theorem leatestUsed_getNext {c : SnapshotCenter} {count : Nat} (positive : 0 < c.newestUnusedSeq)
    (fits : c.newestUnusedSeq + count ≤ sequenceNumberModulus) :
    (c.getNextUnusedSequenceNumber count).leatestUsedSequenceNumber = c.newestUnusedSeq + count - 1 := by
  by_cases last : c.newestUnusedSeq + count = sequenceNumberModulus
  · have wrapped : (c.getNextUnusedSequenceNumber count).newestUnusedSeq = 0 := by
      rw [SnapshotCenter.getNextUnusedSequenceNumber, last]
      exact Nat.mod_self _
    rw [SnapshotCenter.leatestUsedSequenceNumber, wrapped, last, Nat.zero_add]
    exact Nat.mod_eq_of_lt (by omega)
  · have small : c.newestUnusedSeq + count < sequenceNumberModulus := by omega
    have next := SnapshotCenter.getNextUnused_of_lt small
    rw [SnapshotCenter.leatestUsed_of_pos (by omega) (by omega), next]

/-- A call without entries changes nothing. -/
theorem Sound.getNext_empty (sound : s.Sound) (accounts : s.Accounts) (empty : batch.count = 0)
    (taken : s.getNext batch = some s') : s'.Sound := by
  have same : s.center.getNextUnusedSequenceNumber 0 = s.center :=
    congrArg SnapshotCenter.mk (Nat.mod_eq_of_lt accounts.small)
  rw [getNext_eq_some taken, empty, same]
  change Sound { s with
    waiting := s.waiting ++ [(s.center.newestUnusedSeq, batch)]
    handedOut := s.handedOut ++ [] }
  rw [List.append_nil]
  exact ⟨sound.distinct, sound.ascending, sound.notReserved, sound.used⟩

theorem Sound.getNext_fits (sound : s.Sound) (accounts : s.Accounts) (positive : 0 < s.center.newestUnusedSeq)
    (fits : s.center.newestUnusedSeq + batch.count ≤ sequenceNumberModulus)
    (taken : s.getNext batch = some s') : s'.Sound := by
  have accounts' := accounts.getNext taken
  obtain rfl := getNext_eq_some taken
  have before : ∀ n ∈ s.handedOut, n < s.center.newestUnusedSeq := by
    intro n mem
    have used := sound.used n mem
    rw [SnapshotCenter.leatestUsed_of_pos positive accounts.small] at used
    omega
  have new : ∀ n ∈ seqRange s.center.newestUnusedSeq batch.count,
      s.center.newestUnusedSeq ≤ n ∧ n < s.center.newestUnusedSeq + batch.count := by
    intro n mem
    rw [seqRange_of_le fits] at mem
    exact List.mem_range'_1.mp mem
  have ascending : (s.handedOut ++ seqRange s.center.newestUnusedSeq batch.count).Pairwise (· < ·) := by
    refine List.pairwise_append.mpr ⟨sound.ascending, ?_, ?_⟩
    · rw [seqRange_of_le fits]
      exact List.pairwise_lt_range'
    · exact fun n hn m hm => (before n hn).trans_le (new m hm).1
  refine ⟨accounts'.distinct ascending, ascending, ?_, ?_⟩
  · intro zero
    cases List.mem_append.mp zero with
    | inl old => exact sound.notReserved old
    | inr later => exact absurd (new 0 later).1 (by omega)
  · intro n mem
    rw [leatestUsed_getNext positive fits]
    cases List.mem_append.mp mem with
    | inl old =>
      have := before n old
      omega
    | inr later =>
      have := new n later
      omega

theorem getNext_sound_iff (sound : s.Sound) (accounts : s.Accounts) (taken : s.getNext batch = some s') :
    s'.Sound ↔ s.Fits (.getNext batch) := by
  constructor
  · intro sound'
    by_contra wrong
    obtain ⟨some_entry, wraps⟩ := not_or.mp wrong
    have zero := zero_mem_seqRange some_entry accounts.small (by omega)
    rw [getNext_eq_some taken] at sound'
    exact sound'.notReserved (List.mem_append_right _ zero)
  · rintro (empty | ⟨positive, fits⟩)
    · exact sound.getNext_empty accounts empty taken
    · exact sound.getNext_fits accounts (Nat.pos_of_ne_zero positive) fits taken

theorem Sound.setFirst {insert : Nat} (sound : s.Sound) (accounts : s.Accounts)
    (taken : s.setFirst insert = some s') : s'.Sound := by
  have accounts' := accounts.setFirst taken
  obtain ⟨w, -, rfl⟩ := Option.map_eq_some_iff.mp taken
  exact ⟨accounts'.distinct sound.ascending, sound.ascending, sound.notReserved, sound.used⟩

theorem step_sound_iff (accounts : s.Accounts) (sound : s.Sound) (taken : machine.step s a = some s') :
    s'.Sound ↔ s.Fits a := by
  cases a with
  | getNext batch => exact getNext_sound_iff sound accounts taken
  | setFirst insert => exact iff_of_true (sound.setFirst accounts taken) trivial

/-- In a run of interleaved inserts the numbers stay distinct, growing and above zero if and only if every
call finds enough numbers left. -/
theorem sound_iff (center : SnapshotCenter) (small : center.newestUnusedSeq < sequenceNumberModulus)
    (as : List Action) :
    machine.Throughout Sound (start center) as ↔ machine.StepsMeet Fits (start center) as :=
  Machine.throughout_iff_of_invariant (fun _ _ _ accounts => accounts.step)
    (fun _ _ _ accounts sound => step_sound_iff accounts sound) (accounts_start small) (sound_start center)

/-- Two inserts on a new database, the later of which numbers its batch first. -/
theorem sound_interleaved :
    let as := [.getNext ⟨0, [.brief 97 0 1, .brief 98 0 2]⟩, .getNext ⟨0, [.brief 99 0 3]⟩,
      .setFirst 1, .setFirst 0]
    (∃ s, machine.run (start SnapshotCenter.empty) as = some s ∧
      s.numbered.map WriteBatch.seqs = [[3], [1, 2]]) ∧
      machine.Throughout Sound (start SnapshotCenter.empty) as := by
  intro as
  have runs : (machine.run (start SnapshotCenter.empty) as).any (fun s =>
      s.numbered.map WriteBatch.seqs = [[3], [1, 2]]) = true := by decide +kernel
  obtain ⟨s, ran, numbers⟩ := (Option.any_eq_true _ _).mp runs
  refine ⟨⟨s, ran, of_decide_eq_true numbers⟩, (sound_iff SnapshotCenter.empty (by decide) as).mpr ?_⟩
  intro s₁ first
  rw [step_getNext] at first
  obtain rfl := getNext_eq_some first
  refine ⟨.inr ⟨by decide, by decide⟩, ?_⟩
  intro s₂ second
  rw [step_getNext] at second
  obtain rfl := getNext_eq_some second
  exact ⟨.inr ⟨by decide, by decide⟩, fun _ _ => ⟨trivial, fun _ _ => ⟨trivial, trivial⟩⟩⟩

/-- The last number was recovered as the latest but one, and a batch of two entries comes. -/
theorem not_sound_wrapped :
    let center := SnapshotCenter.empty.setInitLeatestUsedSequenceNumber (2 ^ 32 - 2)
    ∃ s, machine.run (start center)
        [.getNext ⟨0, [.brief 97 0 1, .brief 98 0 2]⟩, .setFirst 0] = some s ∧
      s.numbered.map WriteBatch.seqs = [[2 ^ 32 - 1, 0]] ∧ ¬ s.Sound := by
  intro center
  have runs : (machine.run (start center)
      [.getNext ⟨0, [.brief 97 0 1, .brief 98 0 2]⟩, .setFirst 0]).any (fun s =>
        s.numbered.map WriteBatch.seqs = [[2 ^ 32 - 1, 0]] ∧ 0 ∈ s.handedOut) = true := by decide +kernel
  obtain ⟨s, ran, facts⟩ := (Option.any_eq_true _ _).mp runs
  obtain ⟨numbers, zero⟩ := of_decide_eq_true facts
  exact ⟨s, ran, numbers, fun sound => sound.notReserved zero⟩

end Numbering

end FrenzyKV
