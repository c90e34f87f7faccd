import FrenzyKV.Log.WriteAheadLogger
import FrenzyKV.Store.CallsProof
import FrenzyKV.Table.MemtableFilling

namespace FrenzyKV.Calls

open Bytes

/-- What an insert has put into the log and not yet into the memtable. -/
def InsertPhase.inLog : InsertPhase → List KvEntry
  | .logged b | .inSection b => b.entries
  | .numbered _ | .returned => []

def InsertPhase.waiting (p : InsertPhase) : Nat := (p.inLog.map KvEntry.serializedBytesSize).sum

/-- The bytes of the log. -/
def State.logBytes (s : State) : ByteString := s.log.flatMap KvEntry.serialize

/-- Keys and entries fit their length fields. -/
def Writable : Action → Prop
  | .insert b => ∀ e ∈ b.entries, e.FitsFields
  | _ => True

instance : (a : Action) → Decidable (Writable a)
  | .insert b => inferInstanceAs (Decidable (∀ e ∈ b.entries, e.FitsFields))
  | .insertStep _ | .getSnapshot | .snapshotStep _ | .dropSnapshot _ | .get _ _ | .getStep _
  | .mayCompact _ _ | .doGC => isTrue trivial

/-- The session gives out numbers from `start` on. -/
structure Logged (deps : DiskDeps) (start : Nat) (s : State) : Prop where
  counter : start ≤ s.center.newestUnusedSeq
  wf : ∀ e ∈ s.log, e.WellFormed
  numbers : ∀ e ∈ s.log, start ≤ e.seq
  issued : ∀ e ∈ s.log, e ∈ s.issued
  pending : ∀ p ∈ s.inserts, ∀ e ∈ p.entries, e.WellFormed ∧ start ≤ e.seq
  passed : ∀ p ∈ s.inserts, ∀ e ∈ p.inLog, e ∈ s.log
  memory : ∀ e ∈ s.inMemory, e ∈ s.log
  stored : ∀ e ∈ DiskStore.contents deps.table s.store.current, e.seq < start ∨ e ∈ s.log
  bound : s.mem.boundSizeBytes = deps.opt.memoryPageBytes
  size : s.mem.sizeBytes + (s.inserts.map InsertPhase.waiting).sum ≤ s.logBytes.length
  -- as long as the log fits into one memtable, no memtable was taken out
  whole : s.logBytes.length ≤ deps.opt.memoryPageBytes →
    s.memSection.storage = [] ∧ ∀ e ∈ DiskStore.contents deps.table s.store.current, e.seq < start

section Lemmas

variable {α : Type*} {l : List α} {i : Nat} {x y : α}

theorem sum_map_set {f : α → Nat} (found : l[i]? = some x) :
    ((l.set i y).map f).sum + f x = (l.map f).sum + f y := by
  induction l generalizing i with
  | nil => simp at found
  | cons z l ih =>
    cases i with
    | zero =>
      obtain rfl := Option.some.inj found
      simp only [List.set_cons_zero, List.map_cons, List.sum_cons]
      omega
    | succ i =>
      have rest := ih (i := i) (by simpa using found)
      simp only [List.set_cons_succ, List.map_cons, List.sum_cons]
      omega

theorem forall_mem_set {P : α → Prop} (all : ∀ z ∈ l, P z) (new : P y) : ∀ z ∈ l.set i y, P z := by
  intro z mem
  rcases List.mem_or_eq_of_mem_set mem with old | rfl
  · exact all z old
  · exact new

end Lemmas

variable {deps : DiskDeps} {compressor : CompressorPolicy} {start : Nat} {s s' : State} {a : Action}

theorem length_logBytes_append (s : State) (es : List KvEntry) :
    ((s.log ++ es).flatMap KvEntry.serialize).length =
      s.logBytes.length + (es.map KvEntry.serializedBytesSize).sum := by
  rw [List.flatMap_append, List.length_append, State.logBytes]
  simp [List.length_flatMap]

theorem Logged.insert {b : WriteBatch} (inv : Logged deps start s)
    (small : s.center.newestUnusedSeq + b.count < sequenceNumberModulus)
    (stored : ∀ e ∈ b.entries, e.stored = e) (fits : ∀ e ∈ b.entries, e.FitsFields)
    (taken : step deps s (.insert b) = some s') : Logged deps start s' := by
  cases step_cases taken with
  | insert few =>
    have next : (s.center.getNextUnusedSequenceNumber b.count).newestUnusedSeq =
        s.center.newestUnusedSeq + b.count := SnapshotCenter.getNextUnused_of_lt small
    have counter := inv.counter
    have new : ∀ e ∈ (b.setFirstSequenceNum s.center.newestUnusedSeq).entries,
        e.WellFormed ∧ start ≤ e.seq := by
      intro e he
      have number := WriteBatch.seq_of_mem_numbered small.le he
      have same := WriteBatch.stored_of_mem_numbered stored he
      obtain ⟨x, hx, n, few, rfl⟩ := WriteBatch.mem_numbered he
      exact ⟨same ▸ KvEntry.FitsFields.wellFormed (fits x hx) few, counter.trans number.1⟩
    constructor
    case counter =>
      change start ≤ (s.center.getNextUnusedSequenceNumber b.count).newestUnusedSeq
      omega
    case issued => exact fun e he => List.mem_append_left _ (inv.issued e he)
    case pending =>
      refine List.forall_mem_append.mpr ⟨inv.pending, ?_⟩
      intro p hp
      obtain rfl := List.mem_singleton.mp hp
      exact new
    case passed =>
      refine List.forall_mem_append.mpr ⟨inv.passed, ?_⟩
      intro p hp
      obtain rfl := List.mem_singleton.mp hp
      exact fun e he => absurd he List.not_mem_nil
    case size =>
      change _ + ((s.inserts ++ _).map InsertPhase.waiting).sum ≤ _
      rw [List.map_append, List.sum_append]
      exact inv.size
    case wf => exact inv.wf
    case numbers => exact inv.numbers
    case memory => exact inv.memory
    case stored => exact inv.stored
    case bound => exact inv.bound
    case whole => exact inv.whole

section InsertSteps

variable {i : Nat} {b : WriteBatch}

/-- The batch goes into the log. -/
theorem Logged.log (base : Base deps s) (inv : Logged deps start s)
    (found : s.inserts[i]? = some (.numbered b)) :
    Logged deps start { s.setInsert i (.logged b) with log := s.log ++ b.entries } := by
  have inBatch := inv.pending _ (List.mem_of_getElem? found)
  have waiting := sum_map_set (y := InsertPhase.logged b) (f := InsertPhase.waiting) found
  have longer := length_logBytes_append s b.entries
  have size := inv.size
  have own : InsertPhase.waiting (.logged b) = (b.entries.map KvEntry.serializedBytesSize).sum := rfl
  have before : InsertPhase.waiting (.numbered b) = 0 := rfl
  refine { inv with
    wf := List.forall_mem_append.mpr ⟨inv.wf, fun e he => (inBatch e he).1⟩
    numbers := List.forall_mem_append.mpr ⟨inv.numbers, fun e he => (inBatch e he).2⟩
    issued := List.forall_mem_append.mpr ⟨inv.issued, base.pending _ (List.mem_of_getElem? found)⟩
    pending := forall_mem_set inv.pending inBatch
    passed := forall_mem_set (fun p hp e he => List.mem_append_left _ (inv.passed p hp e he))
      fun e he => List.mem_append_right _ he
    memory := fun e he => List.mem_append_left _ (inv.memory e he)
    stored := fun e he => (inv.stored e he).imp_right (List.mem_append_left _)
    size := ?_
    whole := fun fits => inv.whole ((Nat.le_of_add_right_le longer.ge).trans fits) }
  change s.mem.sizeBytes + ((s.inserts.set i (.logged b)).map InsertPhase.waiting).sum ≤
    ((s.log ++ b.entries).flatMap KvEntry.serialize).length
  omega

/-- The insert gets the mutex of the memtable. -/
theorem Logged.lock (inv : Logged deps start s) (found : s.inserts[i]? = some (.logged b)) :
    Logged deps start { s.setInsert i (.inSection b) with memSection := .held i } := by
  have inBatch := inv.pending _ (List.mem_of_getElem? found)
  have waiting := sum_map_set (y := InsertPhase.inSection b) (f := InsertPhase.waiting) found
  have same : InsertPhase.waiting (.inSection b) = InsertPhase.waiting (.logged b) := rfl
  have size := inv.size
  refine { inv with
    pending := forall_mem_set inv.pending inBatch
    passed := forall_mem_set inv.passed fun e he => inv.passed (.logged b) (List.mem_of_getElem? found) e he
    memory := fun e he => inv.memory e (he.imp_right fun none => absurd none List.not_mem_nil)
    size := ?_
    whole := fun fits => ⟨rfl, (inv.whole fits).2⟩ }
  change s.mem.sizeBytes + ((s.inserts.set i (.inSection b)).map InsertPhase.waiting).sum ≤ s.logBytes.length
  omega

/-- The batch moves on into the memtable. -/
theorem Logged.write {mem : Memtable} (inv : Logged deps start s)
    (found : s.inserts[i]? = some (.inSection b))
    (inserted : s.mem.insert deps.skipListReplaces b = some mem) :
    Logged deps start { s.setInsert i .returned with
      mem, memSection := .free, returned := s.returned ++ b.entries } := by
  have inBatch := inv.passed _ (List.mem_of_getElem? found)
  have waiting := sum_map_set (y := InsertPhase.returned) (f := InsertPhase.waiting) found
  have own : InsertPhase.waiting (.inSection b) = (b.entries.map KvEntry.serializedBytesSize).sum := rfl
  have after : InsertPhase.waiting .returned = 0 := rfl
  have size := inv.size
  rw [Memtable.insert] at inserted
  obtain ⟨-, eq⟩ := Option.ite_none_right_eq_some.mp inserted
  obtain rfl := Option.some.inj eq
  refine { inv with
    pending := forall_mem_set inv.pending fun e he => absurd he List.not_mem_nil
    passed := forall_mem_set inv.passed fun e he => absurd he List.not_mem_nil
    memory := ?_
    bound := (MemtableFilling.boundSizeBytes_foldl_insertEntry s.mem b.entries).trans inv.bound
    size := ?_
    whole := fun fits => ⟨rfl, (inv.whole fits).2⟩ }
  · rintro e (inMem | flushing)
    · rcases Memtable.mem_of_mem_foldl_insertEntry inMem with new | old
      · exact inBatch e new
      · exact inv.memory e (Or.inl old)
    · exact absurd flushing List.not_mem_nil
  · change (b.entries.foldl _ s.mem).sizeBytes +
      ((s.inserts.set i .returned).map InsertPhase.waiting).sum ≤ s.logBytes.length
    rw [Memtable.foldl_insertEntry_sizeBytes]
    omega

/-- A memtable that is taken out and the batch that did not fit are in the log, which is too large for
one memtable then. -/
theorem Logged.swap (inv : Logged deps start s) (found : s.inserts[i]? = some (.inSection b))
    (full : s.mem.insert deps.skipListReplaces b = none) :
    Logged deps start { s with mem := Memtable.make deps.opt, memSection := .flushing i s.mem } := by
  have waiting := sum_map_set (y := InsertPhase.returned) (f := InsertPhase.waiting) found
  have own : InsertPhase.waiting (.inSection b) = b.serializedSize := rfl
  have after : InsertPhase.waiting .returned = 0 := rfl
  have bound := inv.bound
  have size := inv.size
  have large : deps.opt.memoryPageBytes < b.serializedSize + s.mem.sizeBytes := by
    by_contra room
    have fits : s.mem.couldFitIn b = true := decide_eq_true (by omega)
    simp [Memtable.insert, fits] at full
  refine { inv with
    memory := ?_
    bound := rfl
    size := ?_
    whole := fun fits => ?_ }
  · rintro e (inMem | flushing)
    · exact absurd inMem List.not_mem_nil
    · exact inv.memory e (Or.inl flushing)
  · change 0 + (s.inserts.map InsertPhase.waiting).sum ≤ s.logBytes.length
    omega
  · change s.logBytes.length ≤ _ at fits
    omega

/-- A flush moves logged entries into the files. -/
theorem Logged.flush {m : Memtable} {store : DiskStore} (base : Base deps s) (inv : Logged deps start s)
    (opens : deps.Readable compressor) (flushing : s.memSection = .flushing i m)
    (fits : DiskStore.FlushFits deps m) (flushed : s.store.flushToDisk deps m = some store) :
    Logged deps start { s.setStore store with memSection := .held i } := by
  have taken_out : s.memSection.storage = m.storage := by rw [flushing]; rfl
  have inTable : ∀ e ∈ m.storage, e ∈ s.log :=
    fun e he => inv.memory e (Or.inr (taken_out ▸ he))
  have newer : Newer m.contents (DiskStore.contents deps.table s.store.current) :=
    fun e he => base.newer e (Or.inr (taken_out ▸ he))
  have grown := (base.good.flush opens fits newer flushed).2
  refine { inv with
    memory := fun e he => inv.memory e (he.imp_right fun none => absurd none List.not_mem_nil)
    stored := ?_
    whole := fun fits => ?_ }
  · intro e he
    rcases (grown e).mp he with old | new
    · exact inv.stored e old
    · obtain ⟨x, hx, rfl⟩ := List.mem_map.mp new
      exact Or.inr ((base.stored x (inv.issued x (inTable x hx))).symm ▸ inTable x hx)
  · obtain ⟨nothing, old⟩ := inv.whole fits
    refine ⟨rfl, fun e he => ?_⟩
    rcases (grown e).mp he with before | new
    · exact old e before
    · rw [← taken_out, nothing] at new
      exact absurd new List.not_mem_nil

theorem Logged.insertStep (base : Base deps s) (inv : Logged deps start s)
    (opens : deps.Readable compressor) (allowed : InOrder deps s (.insertStep i))
    (taken : insertStep deps s i = some s') : Logged deps start s' := by
  cases insertStep_cases taken with
  | log found => exact inv.log base found
  | lock found free => exact inv.lock found
  | write found held inserted => exact inv.write found inserted
  | swap found held full => exact inv.swap found full
  | @flush _ b m store found flushing flushed =>
    have publishing : s.publishing i = some m := by simp [State.publishing, found, flushing]
    exact inv.flush base opens flushing (allowed.2 m publishing) flushed

end InsertSteps

theorem Logged.step (base : Base deps s) (inv : Logged deps start s) (opens : deps.Readable compressor)
    (allowed : InOrder deps s a) (writable : Writable a) (taken : step deps s a = some s') : Logged deps start s' := by
  cases a with
  | insert b => exact inv.insert allowed.1 allowed.2 writable taken
  | insertStep i => exact inv.insertStep base opens allowed taken
  | mayCompact from_ r =>
    cases step_cases taken with
    | mayCompact compacted =>
      have fewer := (base.good.mayCompact opens allowed compacted).2.1
      exact { inv with
        stored := fun e he => inv.stored e (fewer he)
        whole := fun fits => ⟨(inv.whole fits).1, fun e he => (inv.whole fits).2 e (fewer he)⟩ }
  | _ => cases step_cases taken <;> exact { inv with }

/-- A session starts with an empty log and above all that is stored. -/
theorem Logged.init (opened : Opened deps s) (empty : s.log = []) :
    Logged deps s.center.newestUnusedSeq s := by
  obtain ⟨-, -, range, -, -, mem, sec, inserts, -⟩ := opened
  constructor
  case counter => exact le_rfl
  case bound => rw [mem]; rfl
  case stored => exact fun e he => Or.inl (range e he).2
  case whole => exact fun _ => ⟨by rw [sec]; rfl, fun e he => (range e he).2⟩
  case size => simp [mem, inserts, Memtable.make]
  all_goals simp [empty, inserts, State.inMemory, mem, sec, MemSection.storage]

end FrenzyKV.Calls
