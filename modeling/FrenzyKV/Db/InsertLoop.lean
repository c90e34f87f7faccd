import FrenzyKV.Db.DiskInit
import FrenzyKV.Log.LogFile

/-! The retry loop of `db_local::insert` (`db/db_local.cc`). -/

namespace FrenzyKV

namespace InsertLoop

/-- What the loop works on: the persistent state, the memtable, and the counter
`m_force_GC_hint`. -/
structure State where
  store : DiskStore
  mem : Memtable
  forceGcHint : UInt64

/-- How a round ends: the memtable took the batch; the memtable was replaced and the loop goes on;
the remainder of a division by zero; an assertion or an exception of the flush or of the compaction. -/
inductive Outcome
  | ended (s : State)
  | again (s : State)
  | divisionByZero
  | failed

/-- `m_num_bound_level0`, which `init` sets. -/
def numBoundLevel0 (opt : Options) : UInt64 := (opt.allowedLevelFileNumber 0).toUInt64

/-- The branch of `may_compact` in the loop, with the counter before its increment. -/
def forceCompact (d : DiskDeps) (gcHint : UInt64) (s : State) : Outcome :=
  if numBoundLevel0 d.opt - 1 = 0 then .divisionByZero
  else if gcHint % (numBoundLevel0 d.opt - 1) = 0 then
    match DiskStore.mayCompact d s.store 0 1 with
    | none => .failed
    | some store => .again { s with store }
  else .again s

/-- One evaluation of the loop's condition, and its body when the batch does not fit. -/
def round (d : DiskDeps) (b : WriteBatch) (s : State) : Outcome :=
  match s.mem.insert d.skipListReplaces b with
  | some mem => .ended { s with mem }
  | none =>
    match DiskStore.flushToDisk d s.store s.mem with
    | none => .failed
    | some store =>
      forceCompact d s.forceGcHint ⟨store, Memtable.make d.opt, s.forceGcHint + 1⟩

/-- At most so many rounds. -/
def rounds (d : DiskDeps) (b : WriteBatch) : Nat → State → Outcome
  | 0, s => .again s
  | n + 1, s =>
    match round d b s with
    | .again s => rounds d b n s
    | outcome => outcome

/-- The loop ends with the batch in the memtable. The error code that ends it is never one of
`memtable::insert`, which only has the code that makes the loop go on. -/
def Ends (d : DiskDeps) (b : WriteBatch) (s : State) : Prop :=
  ∃ n s', rounds d b n s = .ended s' ∧
    ∀ e ∈ b.entries, ∃ e' ∈ s'.mem.storage, e'.key = e.key

/-- The flush of the memtable and the compaction that may be forced behind it run to their end. -/
def RetryCompletes (d : DiskDeps) (s : State) : Prop :=
  ∃ store, DiskStore.flushToDisk d s.store s.mem = some store ∧
    (s.forceGcHint % (numBoundLevel0 d.opt - 1) = 0 → ∃ after, DiskStore.mayCompact d store 0 1 = some after)

variable {d : DiskDeps} {b : WriteBatch} {s s' : State}

theorem round_of_fits (d : DiskDeps) (fits : s.mem.couldFitIn b = true) : ∃ mem,
    round d b s = .ended { s with mem } ∧ s.mem.insert d.skipListReplaces b = some mem := by
  refine ⟨b.entries.foldl (Memtable.insertEntry d.skipListReplaces) s.mem, ?_⟩
  have inserted : s.mem.insert d.skipListReplaces b = some _ := if_pos fits
  rw [round, inserted]
  exact ⟨rfl, rfl⟩

theorem round_of_full (full : s.mem.couldFitIn b = false) :
    round d b s = match DiskStore.flushToDisk d s.store s.mem with
      | none => .failed
      | some store =>
        forceCompact d s.forceGcHint ⟨store, Memtable.make d.opt, s.forceGcHint + 1⟩ := by
  have refused : s.mem.insert d.skipListReplaces b = none := if_neg (by rw [full]; exact Bool.false_ne_true)
  rw [round, refused]

/-- A round ends the loop only when the memtable takes the batch. -/
theorem insert_of_round_ended (ended : round d b s = .ended s') :
    s.mem.insert d.skipListReplaces b = some s'.mem := by
  rw [round] at ended
  split at ended
  · rename_i mem inserted
    cases ended
    exact inserted
  · split at ended
    · cases ended
    · rw [forceCompact] at ended
      split at ended
      · cases ended
      · split at ended
        · split at ended
          · cases ended
          · cases ended
        · cases ended

theorem fits_of_ended (ended : round d b s = .ended s') : s.mem.couldFitIn b = true := by
  have inserted := insert_of_round_ended ended
  rw [Memtable.insert] at inserted
  exact (Option.ite_none_right_eq_some.mp inserted).1

/-- What the memtable has taken is in it. -/
theorem ended_of_fits (d : DiskDeps) (fits : s.mem.couldFitIn b = true) :
    ∃ s', round d b s = .ended s' ∧
      ∀ e ∈ b.entries, ∃ e' ∈ s'.mem.storage, e'.key = e.key := by
  obtain ⟨mem, ended, inserted⟩ := round_of_fits d fits
  refine ⟨_, ended, fun e listed => ?_⟩
  rw [Memtable.insert, if_pos fits] at inserted
  obtain rfl := Option.some.inj inserted
  exact Memtable.key_mem_foldl_insertEntry d.skipListReplaces (.inl listed)

theorem full_of_again {next : State} (again : round d b s = .again next) :
    s.mem.couldFitIn b = false := by
  by_contra fits
  obtain ⟨mem, ended, _⟩ := round_of_fits d (Bool.not_eq_false _ ▸ fits)
  rw [ended] at again
  cases again

theorem zero_divisor_iff : numBoundLevel0 d.opt - 1 = 0 ↔ numBoundLevel0 d.opt = 1 := by
  rw [UInt64.sub_eq_iff_eq_add, UInt64.zero_add]

/-- The counter is not divided by zero with two files or more. -/
theorem numBoundLevel0_ne_one_iff (number : 1 ≤ d.opt.allowedLevelFileNumber 0)
    (size : d.opt.allowedLevelFileNumber 0 < 2 ^ 64) :
    numBoundLevel0 d.opt ≠ 1 ↔ 2 ≤ d.opt.allowedLevelFileNumber 0 := by
  rw [numBoundLevel0, Ne, ← UInt64.toNat_inj, Nat.toUInt64_eq, UInt64.toNat_ofNat_of_lt' size]
  change ¬ _ = 1 ↔ _
  omega

theorem divisionByZero_of_one {store : DiskStore} (full : s.mem.couldFitIn b = false)
    (one : numBoundLevel0 d.opt = 1) (flushed : DiskStore.flushToDisk d s.store s.mem = some store) :
    round d b s = .divisionByZero := by
  rw [round_of_full full, flushed]
  exact if_pos (zero_divisor_iff.mpr one)

/-- A round goes on when nothing is divided by zero and the flush and the compaction complete. -/
theorem again_iff (full : s.mem.couldFitIn b = false) :
    (∃ next, round d b s = .again next) ↔
      numBoundLevel0 d.opt ≠ 1 ∧ RetryCompletes d s := by
  rw [round_of_full full, RetryCompletes]
  cases DiskStore.flushToDisk d s.store s.mem with
  | none => simp
  | some store =>
    simp only [forceCompact, zero_divisor_iff, Option.some.injEq, exists_eq_left']
    by_cases one : numBoundLevel0 d.opt = 1
    · simp [one]
    · by_cases due : s.forceGcHint % (numBoundLevel0 d.opt - 1) = 0
      · cases DiskStore.mayCompact d store 0 1 with
        | none => simp [one, due]
        | some after => simp [one, due]
      · simp [one, due]

/-- A round that goes on leaves a fresh memtable. -/
theorem mem_of_again {next : State} (again : round d b s = .again next) :
    next.mem = Memtable.make d.opt := by
  rw [round] at again
  split at again
  · cases again
  · split at again
    · cases again
    · rw [forceCompact] at again
      split at again
      · cases again
      · split at again
        · split at again
          · cases again
          · cases again
            rfl
        · cases again
          rfl

theorem couldFitIn_make : (Memtable.make d.opt).couldFitIn b = true ↔
    b.serializedSize ≤ d.opt.memoryPageBytes := by
  simp [Memtable.couldFitIn, Memtable.make]

/-- A batch that is larger than a fresh memtable is retried for ever. -/
theorem not_ended_of_large (large : d.opt.memoryPageBytes < b.serializedSize) (n : Nat)
    (fresh : s.mem = Memtable.make d.opt) : rounds d b n s ≠ .ended s' := by
  have refused : ¬ (Memtable.make d.opt).couldFitIn b = true := by
    rw [couldFitIn_make]
    omega
  induction n generalizing s with
  | zero =>
    intro ended
    cases ended
  | succ n ih =>
    rw [rounds]
    cases turn : round d b s with
    | ended s => exact absurd (fits_of_ended turn) (fresh ▸ refused)
    | again next => exact ih (mem_of_again turn)
    | divisionByZero =>
      intro ended
      cases ended
    | failed =>
      intro ended
      cases ended

theorem insert_of_fresh_ended {n : Nat} (fresh : s.mem = Memtable.make d.opt)
    (ended : rounds d b n s = .ended s') :
    (Memtable.make d.opt).insert d.skipListReplaces b = some s'.mem := by
  cases n with
  | zero => cases ended
  | succ n =>
    rw [rounds] at ended
    split at ended
    · rename_i next again
      have full := full_of_again again
      rw [fresh, ← Bool.not_eq_true, couldFitIn_make] at full
      exact absurd ended (not_ended_of_large (by omega) n (mem_of_again again))
    · rw [← fresh]
      exact insert_of_round_ended ended

/-- The loop ends exactly when the batch fits at once, or it fits in a fresh memtable, level 0 may
hold two files or more, and the retry completes. -/
theorem ends_iff (number : 1 ≤ d.opt.allowedLevelFileNumber 0)
    (size : d.opt.allowedLevelFileNumber 0 < 2 ^ 64) (b : WriteBatch) (s : State) :
    Ends d b s ↔ s.mem.couldFitIn b = true ∨
      b.serializedSize ≤ d.opt.memoryPageBytes ∧ 2 ≤ d.opt.allowedLevelFileNumber 0 ∧
        RetryCompletes d s := by
  rw [← numBoundLevel0_ne_one_iff number size]
  cases fits : s.mem.couldFitIn b with
  | true =>
    obtain ⟨s', ended, inside⟩ := ended_of_fits d fits
    refine iff_of_true ⟨1, s', ?_, inside⟩ (.inl rfl)
    rw [rounds, ended]
  | false =>
    rw [or_iff_right Bool.false_ne_true]
    constructor
    · rintro ⟨n, s', ended, _⟩
      cases n with
      | zero => cases ended
      | succ n =>
        rw [rounds] at ended
        cases turn : round d b s with
        | ended s =>
          rw [fits_of_ended turn] at fits
          cases fits
        | again next =>
          rw [turn] at ended
          refine ⟨?_, (again_iff fits).mp ⟨next, turn⟩⟩
          by_contra large
          exact not_ended_of_large (by omega) n (mem_of_again turn) ended
        | divisionByZero =>
          rw [turn] at ended
          cases ended
        | failed =>
          rw [turn] at ended
          cases ended
    · rintro ⟨small, completes⟩
      obtain ⟨next, again⟩ := (again_iff fits).mpr completes
      have room : next.mem.couldFitIn b = true := by
        rw [mem_of_again again, couldFitIn_make]
        exact small
      obtain ⟨s', ended, inside⟩ := ended_of_fits d room
      refine ⟨2, s', ?_, inside⟩
      rw [rounds, again]
      dsimp only
      rw [rounds, ended]

/-- A memtable that holds one small entry, or none, and all of whose levels hold so many files. -/
def smallPages (files : Nat) : Options :=
  { Options.twoFileLevels with memoryPageBytes := 20, levelFileNumber := List.replicate 7 files }

/-- A full memtable. -/
def fullState (files : Nat) : State where
  store := Store.empty
  mem := Memtable.ofEntries (smallPages files) [KvEntry.brief 1 1 7]
  forceGcHint := 0

/-- The memtable is flushed, and level 0 does not need a compaction yet. -/
theorem full_memtable_ends : Ends (.plain (smallPages 2)) ⟨2, [KvEntry.brief 2 2 8]⟩ (fullState 2) := by
  have flushed : (DiskStore.flushToDisk (.plain (smallPages 2)) Store.empty (fullState 2).mem).any fun store =>
      (DiskStore.mayCompact (.plain (smallPages 2)) store 0 1).isSome = true := by
    decide +kernel
  obtain ⟨store, eq, compacted⟩ := (Option.any_eq_true _ _).mp flushed
  rw [ends_iff (by decide) (by decide)]
  exact .inr ⟨by decide, by decide, store, eq,
    fun _ => Option.isSome_iff_exists.mp (of_decide_eq_true compacted)⟩

/-- Two entries that the log accepts and no memtable takes; and a full memtable when level 0 may
hold one file. -/
theorem not_ends_of_options :
    (∀ e ∈ [KvEntry.brief 2 2 8, KvEntry.brief 3 3 9], WriteAheadLogger.Accepts 4096 e) ∧
      ¬ Ends (.plain (smallPages 2)) ⟨2, [KvEntry.brief 2 2 8, KvEntry.brief 3 3 9]⟩
        ⟨Store.empty, Memtable.make (smallPages 2), 0⟩ ∧
      round (.plain (smallPages 1)) ⟨2, [KvEntry.brief 2 2 8]⟩ (fullState 1) = .divisionByZero := by
  refine ⟨by decide, ?_, ?_⟩
  · rintro ⟨n, s', ended, _⟩
    exact not_ended_of_large (by decide) n rfl ended
  · have full : (fullState 1).mem.couldFitIn ⟨2, [KvEntry.brief 2 2 8]⟩ = false := by decide
    have flushed : (DiskStore.flushToDisk (.plain (smallPages 1)) Store.empty (fullState 1).mem).isSome = true := by
      decide +kernel
    obtain ⟨store, flushed⟩ := Option.isSome_iff_exists.mp flushed
    exact divisionByZero_of_one full rfl flushed

end InsertLoop

namespace DiskDatabase

/-- Where the loop ends, the call that does not force compactions leaves the same memtable. -/
theorem insert_of_ended {d : DiskDeps} {db : DiskDatabase} {session : Session} {b : WriteBatch}
    {gcHint : UInt64} {n : Nat} {s' : InsertLoop.State}
    (ended : InsertLoop.rounds d (b.setFirstSequenceNum session.center.newestUnusedSeq) n
      ⟨db.store, session.mem, gcHint⟩ = .ended s') :
    ∃ db' session', insert d db session b = some (db', session') ∧ session'.mem = s'.mem := by
  cases n with
  | zero => cases ended
  | succ n =>
    rw [InsertLoop.rounds] at ended
    split at ended
    · -- not at once: the memtable is flushed, and the next round ends the loop or none does
      rename_i next again
      have full := InsertLoop.full_of_again again
      obtain ⟨_, store, flushed, _⟩ := (InsertLoop.again_iff full).mp ⟨next, again⟩
      have fresh := InsertLoop.mem_of_again again
      have inserted := InsertLoop.insert_of_fresh_ended fresh ended
      have refused : session.mem.insert d.skipListReplaces
          (b.setFirstSequenceNum session.center.newestUnusedSeq) = none :=
        if_neg (Bool.eq_false_iff.mp full)
      rw [insert]
      simp only [refused, flushed, inserted, Option.bind_some, Option.map_some]
      exact ⟨_, _, rfl, rfl⟩
    · have inserted := InsertLoop.insert_of_round_ended ended
      rw [insert]
      simp only [inserted]
      exact ⟨_, _, rfl, rfl⟩

end DiskDatabase

end FrenzyKV
