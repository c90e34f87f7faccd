import FrenzyKV.Db.Init
import FrenzyKV.Framework.Machine

namespace FrenzyKV.Sessions

open Bytes Framework

/-- `recovered` says whether `init` of this session found a log, `written` counts the
entries of all sessions; both are ghosts. -/
structure State (φ : Type) where
  db : Database φ
  session : Option Session
  recovered : Bool
  written : Nat

inductive Action where
  | init
  | insert (b : WriteBatch)
  | mayCompact (from_ : Nat) (threshRatio : ThreshRatio)
  | close
  | crash

def step (deps : KvdbDeps) (s : State File) : Action → Option (State File)
  | .init =>
    if s.session.isSome then none
    else (FrenzyKV.init deps s.db).map fun opened =>
      ⟨opened.1, some opened.2, !s.db.log.isEmpty, s.written⟩
  | .insert b =>
    s.session.bind fun session =>
      (FrenzyKV.insert deps s.db session b).map fun done =>
        { s with db := done.1, session := some done.2, written := s.written + b.count }
  | .mayCompact from_ r =>
    s.session.bind fun _ =>
      (FrenzyKV.mayCompact deps s.db.store from_ r).map fun store =>
        { s with db := { s.db with store } }
  | .close =>
    s.session.bind fun session =>
      (FrenzyKV.close deps s.db session).map fun db => { s with db, session := none }
  | .crash => s.session.map fun _ => { s with session := none }

def machine (deps : KvdbDeps) : Machine (State File) Action where
  init s := s = ⟨Database.empty, none, false, 0⟩
  step := step deps

/-- Keys and entries fit their length fields and the numbers fit in 32 bits. -/
def FewWrites {φ : Type} (s : State φ) : Action → Prop
  | .insert b => s.written + b.count < 2 ^ 32 - 1 ∧ ∀ e ∈ b.entries, e.FitsFields
  | _ => True

/-- A session that replayed a log ends only after it has logged a write. -/
def EndsAfterWrite {φ : Type} (s : State φ) : Action → Prop
  | .close | .crash => s.recovered = true → s.db.log ≠ []
  | _ => True

def Careful {φ : Type} (s : State φ) (a : Action) : Prop := FewWrites s a ∧ EndsAfterWrite s a

instance {φ : Type} (s : State φ) : (a : Action) → Decidable (FewWrites s a)
  | .insert b => inferInstanceAs (Decidable (s.written + b.count < 2 ^ 32 - 1 ∧
      ∀ e ∈ b.entries, e.FitsFields))
  | .init | .mayCompact _ _ | .close | .crash => isTrue trivial

instance {φ : Type} (s : State φ) : (a : Action) → Decidable (EndsAfterWrite s a)
  | .close | .crash => inferInstanceAs (Decidable (s.recovered = true → s.db.log ≠ []))
  | .init | .insert _ | .mayCompact _ _ => isTrue trivial

instance {φ : Type} (s : State φ) (a : Action) : Decidable (Careful s a) :=
  inferInstanceAs (Decidable (FewWrites s a ∧ EndsAfterWrite s a))

/-- The next number is above every stored and every logged one, and a read by default sees
all of them. -/
def Ahead (db : Database File) (center : SnapshotCenter) : Prop :=
  ∀ e, (e ∈ db.store.current.contents ∨ ∃ recovered ∈ recover db.log, e ∈ recovered.1.entries) →
    e.seq < center.newestUnusedSeq ∧ e.seq ≤ center.leatestUsedSequenceNumber

/-- Recovery will find a number at least as large as each stored one. -/
def Recoverable (db : Database File) (logged : List KvEntry) : Prop :=
  ∀ e ∈ db.store.current.contents,
    e.seq ≤ getLeatestSequenceNumber db.seqnum ∨ ∃ x ∈ logged, e.seq ≤ x.seq

/-- What holds of the files at any time. -/
structure Durable (deps : KvdbDeps) (db : Database File) (written : Nat) (logged : List KvEntry) :
    Prop where
  log : db.log = logged.flatMap KvEntry.serialize
  wf : ∀ e ∈ logged, e.WellFormed
  sound : db.store.Sound deps
  numbers : ∀ e ∈ logged, e.seq ≤ written
  file : getLeatestSequenceNumber db.seqnum ≤ written
  few : written < 2 ^ 32 - 1

/-- What holds while the database is open. -/
structure Opened (db : Database File) (session : Session) (recovered : Bool) (written : Nat)
    (logged : List KvEntry) : Prop where
  positive : 0 < session.center.newestUnusedSeq
  counter : session.center.newestUnusedSeq ≤ written + 1
  file : getLeatestSequenceNumber db.seqnum < session.center.newestUnusedSeq
  stored : ∀ e ∈ db.store.current.contents, e.seq < session.center.newestUnusedSeq
  inLog : ∀ e ∈ logged, e.seq < session.center.newestUnusedSeq
  -- the memtable holds nothing that is not in the log
  mem : ∀ e ∈ session.mem.storage, ∃ x ∈ logged, x.seq = e.seq
  recoverable : Recoverable db logged ∨ recovered = true ∧ logged = []

def Inv (deps : KvdbDeps) (s : State File) : Prop :=
  ∃ logged, Durable deps s.db s.written logged ∧
    match s.session with
    | none => Recoverable s.db logged
    | some session => Opened s.db session s.recovered s.written logged

section Lemmas

variable {deps : KvdbDeps} {db db' : Database File} {session session' : Session} {recovered : Bool}
  {written : Nat} {logged : List KvEntry} {b : WriteBatch} {store : Store File}

theorem Durable.log_eq_nil (durable : Durable deps db written logged) :
    db.log = [] ↔ logged = [] := by
  rw [durable.log]
  constructor
  · intro empty
    by_contra nonempty
    have recovered := recover_serialize durable.wf nonempty
    rw [empty] at recovered
    have eq : WriteBatch.empty.entries = logged :=
      congrArg (fun r => r.1.entries) (Option.some.inj recovered)
    exact nonempty eq.symm
  · rintro rfl
    rfl

theorem Durable.ofStore (durable : Durable deps db written logged) (sound : store.Sound deps) :
    Durable deps { db with store } written logged :=
  ⟨durable.log, durable.wf, sound, durable.numbers, durable.file, durable.few⟩

/-- Fewer stored entries need no more of the recovery. -/
theorem Recoverable.mono {files : Store File} (recoverable : Recoverable db logged)
    (fewer : files.current.contents ⊆ db.store.current.contents) :
    Recoverable { db with store := files } logged :=
  fun e he => recoverable e (fewer he)

/-- A flush of a memtable that holds logged numbers only. -/
theorem seq_of_flush {m : Memtable} (flushed : flushToDisk deps db.store m = some store)
    {e : KvEntry} (he : e ∈ store.current.contents) :
    e ∈ db.store.current.contents ∨ ∃ x ∈ m.storage, x.seq = e.seq := by
  refine ((contents_flushToDisk flushed e).mp he).imp_right fun new => ?_
  obtain ⟨x, hx, rfl⟩ := List.mem_map.mp new
  exact ⟨x, hx, rfl⟩

theorem fileCenter_newest (small : getLeatestSequenceNumber db.seqnum < 2 ^ 32 - 1) :
    (fileCenter db).newestUnusedSeq = getLeatestSequenceNumber db.seqnum + 1 := by
  have one : SnapshotCenter.empty.newestUnusedSeq = 1 := rfl
  rw [fileCenter, SnapshotCenter.setInit_of_lt (one ▸ Nat.one_pos)
    (one ▸ show 1 < 2 ^ 32 by decide) (show _ < 2 ^ 32 by omega), one]
  exact max_eq_right (by omega)

/-- `init` starts above the sequence number file and the log, and both together reach all
that is stored. -/
theorem opened_of_init (durable : Durable deps db written logged)
    (recoverable : Recoverable db logged)
    (opened : FrenzyKV.init deps db = some (db', session)) :
    ∃ logged', Durable deps db' written logged' ∧
      Opened db' session (!db.log.isEmpty) written logged' := by
  have few := durable.few
  have fileLow := durable.file
  have start := fileCenter_newest (show getLeatestSequenceNumber db.seqnum < 2 ^ 32 - 1 by omega)
  rcases init_cases opened with ⟨empty, rfl, rfl⟩ |
    ⟨batch, maxSeq, store, last, nonempty, recovered, flushed, compacted, rfl, rfl⟩
  · obtain rfl := durable.log_eq_nil.mp empty
    have file : ∀ e ∈ db'.store.current.contents, e.seq ≤ getLeatestSequenceNumber db'.seqnum := by
      intro e he
      simpa using recoverable e he
    refine ⟨[], durable, ?_⟩
    constructor
    case stored => exact fun e he => start ▸ Nat.lt_succ_of_le (file e he)
    case recoverable => exact Or.inl recoverable
    all_goals simp [start, fileLow]
  · have nothing : logged ≠ [] := fun nil => nonempty (durable.log_eq_nil.mpr nil)
    rw [durable.log, recover_serialize durable.wf nothing] at recovered
    obtain ⟨rfl, rfl⟩ := Prod.mk.inj (Option.some.inj recovered)
    have maxLow : maxSequenceNumber logged ≤ written := maxSequenceNumber_le durable.numbers
    have sound := durable.sound.flush flushed
    have counter : ((fileCenter db).setInitLeatestUsedSequenceNumber
        (maxSequenceNumber logged)).newestUnusedSeq =
        max (getLeatestSequenceNumber db.seqnum + 1) (maxSequenceNumber logged + 1) := by
      rw [SnapshotCenter.setInit_of_lt (by omega) (show _ < 2 ^ 32 by omega)
        (show _ < 2 ^ 32 by omega), start]
    have old : ∀ e ∈ last.current.contents, e.seq ≤ getLeatestSequenceNumber db.seqnum ∨
        ∃ x ∈ logged, e.seq ≤ x.seq := by
      intro e he
      cases seq_of_flush flushed ((sound.mayCompact_contents compacted).1 he) with
      | inl before => exact recoverable e before
      | inr new =>
        obtain ⟨x, hx, same⟩ := new
        exact Or.inr ⟨x, mem_of_mem_recoveredMemtable hx, same.ge⟩
    refine ⟨[], ⟨rfl, by simp, sound.mayCompact compacted, by simp, fileLow, few⟩, ?_⟩
    constructor
    case stored =>
      intro e he
      rw [counter]
      cases old e he with
      | inl file => omega
      | inr inLog =>
        obtain ⟨x, hx, le⟩ := inLog
        have := le_maxSequenceNumber hx
        omega
    case recoverable => exact Or.inr ⟨by simpa using nonempty, rfl⟩
    case positive => rw [counter]; omega
    case counter => rw [counter]; omega
    case file =>
      rw [counter]
      exact Nat.lt_of_succ_le (le_max_left _ _)
    all_goals simp

/-- What an insertion adds to the log. -/
theorem insert_logged (opened : Opened db session recovered written logged)
    (few : written + b.count < 2 ^ 32 - 1) (fits : ∀ e ∈ b.entries, e.FitsFields) :
    ∀ e ∈ (b.setFirstSequenceNum session.center.newestUnusedSeq).entries.map KvEntry.stored,
      e.WellFormed ∧ session.center.newestUnusedSeq ≤ e.seq ∧
        e.seq < session.center.newestUnusedSeq + b.count := by
  have low := opened.counter
  have room : session.center.newestUnusedSeq + b.count ≤ 2 ^ 32 := by omega
  rw [List.forall_mem_map]
  intro e he
  have number := WriteBatch.seq_of_mem_numbered room he
  obtain ⟨x, hx, n, small, rfl⟩ := WriteBatch.mem_numbered he
  refine ⟨KvEntry.FitsFields.wellFormed (fits x hx) small, number⟩

/-- A flush of the memtable stores logged numbers only. -/
theorem Opened.flush (opened : Opened db session recovered written logged)
    (flushed : flushToDisk deps db.store session.mem = some store) :
    ∀ e ∈ store.current.contents,
      e ∈ db.store.current.contents ∨ ∃ x ∈ logged, x.seq = e.seq := by
  intro e he
  refine (seq_of_flush flushed he).imp_right fun ⟨m, hm, same⟩ => ?_
  obtain ⟨x, hx, number⟩ := opened.mem m hm
  exact ⟨x, hx, number.trans same⟩

/-- The store and the memtable that take a batch are the old ones, or those behind a flush. -/
theorem Opened.before_insert {mem : Memtable} (opened : Opened db session recovered written logged)
    (durable : Durable deps db written logged)
    (before : store = db.store ∧ mem = session.mem ∨
      flushToDisk deps db.store session.mem = some store ∧ mem = Memtable.make deps.opt) :
    store.Sound deps ∧
      (∀ e ∈ store.current.contents,
        e ∈ db.store.current.contents ∨ ∃ x ∈ logged, x.seq = e.seq) ∧
      ∀ e ∈ mem.storage, ∃ x ∈ logged, x.seq = e.seq := by
  cases before with
  | inl kept =>
    obtain ⟨rfl, rfl⟩ := kept
    exact ⟨durable.sound, fun e he => Or.inl he, opened.mem⟩
  | inr flushed =>
    obtain ⟨flushed, rfl⟩ := flushed
    exact ⟨durable.sound.flush flushed, opened.flush flushed, by simp⟩

theorem opened_of_insert (durable : Durable deps db written logged)
    (opened : Opened db session recovered written logged)
    (few : written + b.count < 2 ^ 32 - 1) (fits : ∀ e ∈ b.entries, e.FitsFields)
    (inserted : FrenzyKV.insert deps db session b = some (db', session')) :
    ∃ logged', Durable deps db' (written + b.count) logged' ∧
      Opened db' session' recovered (written + b.count) logged' := by
  obtain ⟨store, mem, before, applied, rfl, center⟩ := insert_cases inserted
  have new := insert_logged opened few fits
  have low := opened.counter
  have positive := opened.positive
  have count : (b.setFirstSequenceNum session.center.newestUnusedSeq).entries.length = b.count :=
    WriteBatch.numbered_length _ _
  obtain ⟨sound, origin, held⟩ := opened.before_insert durable before
  generalize b.setFirstSequenceNum session.center.newestUnusedSeq = numbered at *
  have counter : session'.center.newestUnusedSeq = session.center.newestUnusedSeq + b.count := by
    rw [center]
    exact SnapshotCenter.getNextUnused_of_lt (show _ < 2 ^ 32 by omega)
  have old : ∀ e ∈ store.current.contents, e.seq < session.center.newestUnusedSeq := by
    intro e he
    cases origin e he with
    | inl stored => exact opened.stored e stored
    | inr inLog =>
      obtain ⟨x, hx, same⟩ := inLog
      exact same ▸ opened.inLog x hx
  refine ⟨logged ++ numbered.entries.map KvEntry.stored, ?_, ?_⟩
  · constructor
    case log => simp [appendToLog, durable.log, List.flatMap_map]
    case wf => exact List.forall_mem_append.mpr ⟨durable.wf, fun e added => (new e added).1⟩
    case sound => exact sound
    case numbers =>
      refine List.forall_mem_append.mpr ⟨fun e earlier => ?_, fun e added => ?_⟩
      · exact (durable.numbers e earlier).trans (Nat.le_add_right _ _)
      · have := (new e added).2.2
        omega
    case file => exact durable.file.trans (Nat.le_add_right _ _)
    case few => exact few
  · constructor
    case positive => omega
    case counter => omega
    case file => exact counter ▸ opened.file.trans_le (Nat.le_add_right _ _)
    case stored => exact fun e he => counter ▸ (old e he).trans_le (Nat.le_add_right _ _)
    case inLog =>
      rw [counter]
      refine List.forall_mem_append.mpr ⟨fun e earlier => ?_, fun e added => (new e added).2.2⟩
      exact (opened.inLog e earlier).trans_le (Nat.le_add_right _ _)
    case mem =>
      intro e he
      cases Memtable.mem_of_mem_insert applied he with
      | inl added =>
        exact ⟨e.stored, List.mem_append_right _ (List.mem_map_of_mem added), rfl⟩
      | inr earlier =>
        obtain ⟨x, hx, same⟩ := held e earlier
        exact ⟨x, List.mem_append_left _ hx, same⟩
    case recoverable =>
      by_cases nothing : numbered.entries = []
      · -- an empty batch: the log is what it was
        rw [nothing, List.map_nil, List.append_nil]
        refine opened.recoverable.imp_left fun recoverable e he => ?_
        cases origin e he with
        | inl stored => exact recoverable e stored
        | inr inLog =>
          obtain ⟨x, hx, same⟩ := inLog
          exact Or.inr ⟨x, hx, same.ge⟩
      · -- what was stored before has a smaller number than what is logged now
        obtain ⟨x, hx⟩ := List.exists_mem_of_ne_nil _ nothing
        have added := List.mem_map_of_mem (f := KvEntry.stored) hx
        refine Or.inl fun e he => Or.inr ⟨x.stored, List.mem_append_right _ added, ?_⟩
        exact (old e he).le.trans (new _ added).2.1

theorem opened_of_mayCompact (durable : Durable deps db written logged)
    (opened : Opened db session recovered written logged) {from_ : Nat} {r : ThreshRatio}
    (compacted : FrenzyKV.mayCompact deps db.store from_ r = some store) :
    Durable deps { db with store } written logged ∧
      Opened { db with store } session recovered written logged := by
  have fewer := (durable.sound.mayCompact_contents compacted).1
  exact ⟨durable.ofStore (durable.sound.mayCompact compacted),
    { opened with
      stored := fun e he => opened.stored e (fewer he)
      recoverable := opened.recoverable.imp_left fun recoverable => recoverable.mono fewer }⟩

/-- After a session that did not end idle, the files reach all that is stored. -/
theorem recoverable_of_crash (durable : Durable deps db written logged)
    (opened : Opened db session recovered written logged)
    (active : recovered = true → db.log ≠ []) : Recoverable db logged :=
  opened.recoverable.resolve_right fun ⟨replayed, nothing⟩ =>
    active replayed (durable.log_eq_nil.mpr nothing)

theorem recoverable_of_close (durable : Durable deps db written logged)
    (opened : Opened db session recovered written logged)
    (active : recovered = true → db.log ≠ [])
    (closed : FrenzyKV.close deps db session = some db') :
    ∃ logged', Durable deps db' written logged' ∧ Recoverable db' logged' := by
  rcases close_cases closed with ⟨-, rfl⟩ | ⟨-, store, last, flushed, compacted, rfl⟩
  · exact ⟨logged, durable, recoverable_of_crash durable opened active⟩
  · have low := opened.counter
    have few := durable.few
    have positive := opened.positive
    have used := SnapshotCenter.leatestUsed_of_pos positive (show _ < 2 ^ 32 by omega)
    have number : getLeatestSequenceNumber
        (writeLeatestSequenceNumber session.center.leatestUsedSequenceNumber) =
        session.center.newestUnusedSeq - 1 := by
      rw [used]
      exact get_writeLeatestSequenceNumber (show _ < 2 ^ 32 by omega)
    have sound := durable.sound.flush flushed
    refine ⟨[], ⟨rfl, by simp, sound.mayCompact compacted, by simp, ?_, few⟩, fun e he => ?_⟩
    · rw [number]
      omega
    · have below : e.seq < session.center.newestUnusedSeq := by
        cases opened.flush flushed e ((sound.mayCompact_contents compacted).1 he) with
        | inl stored => exact opened.stored e stored
        | inr inLog =>
          obtain ⟨x, hx, same⟩ := inLog
          exact same ▸ opened.inLog x hx
      rw [number]
      omega

end Lemmas

variable {deps : KvdbDeps} {s s' : State File}

theorem inv_step (inv : Inv deps s) {a : Action} (careful : Careful s a)
    (taken : step deps s a = some s') : Inv deps s' := by
  obtain ⟨logged, durable, rest⟩ := inv
  cases a with
  | init =>
    rw [step] at taken
    cases session : s.session with
    | some _ => simp [session] at taken
    | none =>
      simp only [session] at taken rest
      obtain ⟨⟨db, session⟩, opened, rfl⟩ := Option.map_eq_some_iff.mp taken
      exact opened_of_init durable rest opened
  | insert b =>
    obtain ⟨session, open_, taken⟩ := Option.bind_eq_some_iff.mp taken
    obtain ⟨⟨db, session'⟩, inserted, rfl⟩ := Option.map_eq_some_iff.mp taken
    rw [open_] at rest
    exact opened_of_insert durable rest careful.1.1 careful.1.2 inserted
  | mayCompact from_ r =>
    obtain ⟨session, open_, taken⟩ := Option.bind_eq_some_iff.mp taken
    obtain ⟨store, compacted, rfl⟩ := Option.map_eq_some_iff.mp taken
    rw [open_] at rest
    obtain ⟨durable', rest'⟩ := opened_of_mayCompact durable rest compacted
    exact ⟨logged, durable', by simpa only [open_] using rest'⟩
  | close =>
    obtain ⟨session, open_, taken⟩ := Option.bind_eq_some_iff.mp taken
    obtain ⟨db, closed, rfl⟩ := Option.map_eq_some_iff.mp taken
    rw [open_] at rest
    exact recoverable_of_close durable rest careful.2 closed
  | crash =>
    obtain ⟨session, open_, rfl⟩ := Option.map_eq_some_iff.mp taken
    rw [open_] at rest
    exact ⟨logged, durable, recoverable_of_crash durable rest careful.2⟩

theorem inv_of_reach (reached : Reach (machine deps) Careful s) : Inv deps s := by
  apply reached.invariant
  · rintro s rfl
    refine ⟨[], ⟨rfl, by simp, Store.sound_empty deps, by simp, Nat.le_refl 0, by decide⟩, ?_⟩
    rintro e ⟨f, hf, -⟩
    simp [Database.empty, Store.empty] at hf
  · intro s a s' inv careful taken
    exact inv_step inv careful taken

/-- While no session that replayed a log ends idle, the counter of every open session is
above all that is stored or logged. -/
theorem session_ahead (reached : Reach (machine deps) Careful s) {session : Session}
    (open_ : s.session = some session) : Ahead s.db session.center := by
  obtain ⟨logged, durable, opened⟩ := inv_of_reach reached
  rw [open_] at opened
  have low := opened.counter
  have few := durable.few
  have used := SnapshotCenter.leatestUsed_of_pos opened.positive (show _ < 2 ^ 32 by omega)
  intro e he
  have below : e.seq < session.center.newestUnusedSeq := by
    cases he with
    | inl stored => exact opened.stored e stored
    | inr inLog =>
      obtain ⟨recovered, read, mem⟩ := inLog
      by_cases nothing : logged = []
      · obtain rfl : (WriteBatch.empty, 0) = recovered := by
          rw [durable.log_eq_nil.mpr nothing] at read
          exact Option.some.inj read
        simp [WriteBatch.empty] at mem
      · rw [durable.log, recover_serialize durable.wf nothing] at read
        obtain rfl := Option.some.inj read
        exact opened.inLog e mem
  exact ⟨below, by omega⟩

section Runs

def write (k v : UInt8) : Action := .insert ⟨0, [KvEntry.brief k 0 v]⟩

/-- A crash, a session that recovers and writes, and one more session. -/
def activeSessions : List Action :=
  [.init, write 1 10, .crash, .init, write 2 11, .close, .init]

theorem session_ahead_activeSessions :
    ∃ s, (machine (KvdbDeps.paged 40)).run ⟨Database.empty, none, false, 0⟩ activeSessions = some s ∧
      ∃ session ∈ s.session, Ahead s.db session.center := by
  obtain ⟨s, ran, open_⟩ : ∃ s ∈ ((machine (KvdbDeps.paged 40)).restrict Careful).run
      ⟨Database.empty, none, false, 0⟩ activeSessions, s.session.isSome = true := by decide +kernel
  obtain ⟨session, open_⟩ := Option.isSome_iff_exists.mp open_
  have reached : Reach (machine (KvdbDeps.paged 40)) Careful s := Machine.reach_of_restrict
    (Machine.reach_of_run _ (fun _ _ => trivial) (.init rfl) ran)
  exact ⟨s, Machine.run_of_restrict ran, session, open_, session_ahead reached open_⟩

/-- After the crash the second session replays the log, which it truncates, and closes
without a write; the third one starts from an empty log and an empty sequence number file. -/
def idleSession : List Action := [.init, write 1 10, .crash, .init, .close, .init]

theorem idleSession_behind :
    ∃ s, Reach (machine (KvdbDeps.paged 40)) FewWrites s ∧ ∃ session ∈ s.session,
      session.center.newestUnusedSeq = 1 ∧ KvEntry.brief 1 1 10 ∈ s.db.store.current.contents ∧
        ¬ Ahead s.db session.center := by
  obtain ⟨s, ran, session, open_, counter, f, hf, he⟩ :
      ∃ s ∈ ((machine (KvdbDeps.paged 40)).restrict FewWrites).run
          ⟨Database.empty, none, false, 0⟩ idleSession, ∃ session ∈ s.session,
        session.center.newestUnusedSeq = 1 ∧
          ∃ f ∈ s.db.store.current, KvEntry.brief 1 1 10 ∈ f.table.entries := by decide +kernel
  have reached : Reach (machine (KvdbDeps.paged 40)) FewWrites s := Machine.reach_of_restrict
    (Machine.reach_of_run _ (fun _ _ => trivial) (.init rfl) ran)
  refine ⟨s, reached, session, open_, counter, ⟨f, hf, he⟩, fun ahead => ?_⟩
  have below := (ahead _ (Or.inl ⟨f, hf, he⟩)).1
  rw [counter] at below
  exact absurd below (by decide)

end Runs

end FrenzyKV.Sessions
