import FrenzyKV.Db.DiskInit
import FrenzyKV.Framework.Simulation
import FrenzyKV.Store.DurableMap

namespace FrenzyKV

namespace DiskDatabase

variable {d : DiskDeps} {compressor : CompressorPolicy} {db : Database File} {disk : DiskDatabase}
  {session session' : Session}

/-- What is safe behind a flush of files is safe behind the flush of the tables in them. -/
theorem pulls_of_safeFlush {store : Store File} {m : Memtable} {files : DiskStore}
    (readable : d.Readable compressor) (sound : store.Sound d.toKvdbDeps)
    (legible : store.current.Legible d.table) (safe : DiskStore.SafeFlush d (store.onDisk d.table) m)
    (flushed : DiskStore.flushToDisk d (store.onDisk d.table) m = some files) :
    ∃ store', flushToDisk d.toKvdbDeps store m = some store' ∧ files = store'.onDisk d.table ∧
      store'.current.Legible d.table ∧ SequentialRuns.PullOk d.toKvdbDeps store' (.mayCompact 0 1) := by
  obtain ⟨fits, safe⟩ := safe
  obtain ⟨store', flushed', rfl, -, legible'⟩ :=
    DiskStore.flushToDisk_onDisk readable.buffered legible.stored fits.1 flushed
  have legible' := legible' legible fits.2
  exact ⟨store', flushed', rfl, legible',
    DiskStore.pulls_of_safe readable (sound.flush flushed') legible' (safe _ flushed)⟩

theorem init_onDisk (readable : d.Readable compressor) (sound : db.store.Sound d.toKvdbDeps)
    (legible : db.store.current.Legible d.table) (safe : SafeRecovery d (db.onDisk d.table))
    (opened : init d (db.onDisk d.table) = some (disk, session)) :
    ∃ db', FrenzyKV.init d.toKvdbDeps db = some (db', session) ∧ disk = db'.onDisk d.table ∧
      db'.store.current.Legible d.table ∧ Sessions.SafeRecovery d.toKvdbDeps db := by
  rw [FrenzyKV.init]
  rcases init_cases opened with ⟨empty, rfl, rfl⟩ |
    ⟨batch, maxSeq, files, last, nonempty, recovered, flushed, compacted, rfl, rfl⟩
  · have empty : db.log = [] := empty
    rw [empty]
    exact ⟨db, rfl, rfl, legible, Or.inl empty⟩
  · have nonempty : db.log ≠ [] := nonempty
    have recovered : recover db.log = some (batch, maxSeq) := recovered
    obtain ⟨store, flushed', rfl, legible', pulls⟩ := pulls_of_safeFlush readable sound legible
      (safe.resolve_left nonempty _ recovered) flushed
    have merges := (safe.resolve_left nonempty _ recovered).2 _ flushed
    obtain ⟨store', compacted', rfl, -, legible''⟩ :=
      DiskStore.mayCompact_onDisk readable legible'.stored compacted
    refine ⟨{ db with log := [], store := store' }, ?_, rfl, legible'' legible' merges.2,
      Or.inr fun recovered' found store'' again => ?_⟩
    · rw [if_neg (by simpa using nonempty), FrenzyKV.replayLog, recovered, Option.bind_some, flushed',
        Option.map_some, Option.bind_some, compacted']
      rfl
    · obtain rfl := Option.some.inj (recovered.symm.trans found)
      obtain rfl := Option.some.inj (flushed'.symm.trans again)
      exact pulls

theorem insert_onDisk (readable : d.Readable compressor) (legible : db.store.current.Legible d.table)
    {b : WriteBatch} (fits : (session.mem.insert d.skipListReplaces
      (b.setFirstSequenceNum session.center.newestUnusedSeq)).isNone = true →
        DiskStore.FlushFits d session.mem)
    (inserted : insert d (db.onDisk d.table) session b = some (disk, session')) :
    ∃ db', FrenzyKV.insert d.toKvdbDeps db session b = some (db', session') ∧
      disk = db'.onDisk d.table ∧ db'.store.current.Legible d.table := by
  cases room : session.mem.insert d.skipListReplaces
      (b.setFirstSequenceNum session.center.newestUnusedSeq) with
  | some mem =>
    simp only [insert, room] at inserted
    simp only [FrenzyKV.insert, room]
    obtain ⟨rfl, rfl⟩ := Prod.mk.inj (Option.some.inj inserted)
    exact ⟨_, rfl, rfl, legible⟩
  | none =>
    have fits := fits (by rw [room]; rfl)
    simp only [insert, room] at inserted
    simp only [FrenzyKV.insert, room]
    obtain ⟨files, flushed, rest⟩ := Option.bind_eq_some_iff.mp inserted
    obtain ⟨mem, filled, eq⟩ := Option.map_eq_some_iff.mp rest
    obtain ⟨rfl, rfl⟩ := Prod.mk.inj eq
    obtain ⟨store, flushed', rfl, -, legible'⟩ :=
      DiskStore.flushToDisk_onDisk readable.buffered legible.stored fits.1 flushed
    rw [flushed', Option.bind_some, filled]
    exact ⟨_, rfl, rfl, legible' legible fits.2⟩

theorem close_onDisk (readable : d.Readable compressor) (sound : db.store.Sound d.toKvdbDeps)
    (legible : db.store.current.Legible d.table)
    (safe : session.mem.isEmpty = true ∨ DiskStore.SafeFlush d (db.onDisk d.table).store session.mem)
    (closed : close d (db.onDisk d.table) session = some disk) :
    ∃ db', FrenzyKV.close d.toKvdbDeps db session = some db' ∧ disk = db'.onDisk d.table ∧
      db'.store.current.Legible d.table ∧ (session.mem.isEmpty = true ∨
        ∀ store ∈ flushToDisk d.toKvdbDeps db.store session.mem,
          SequentialRuns.PullOk d.toKvdbDeps store (.mayCompact 0 1)) := by
  rw [close] at closed
  rw [FrenzyKV.close]
  split at closed
  · rename_i empty
    obtain rfl := Option.some.inj closed
    rw [if_pos empty]
    exact ⟨db, rfl, rfl, legible, Or.inl empty⟩
  · rename_i nonempty
    rw [if_neg nonempty]
    obtain ⟨files, flushed, rest⟩ := Option.bind_eq_some_iff.mp closed
    obtain ⟨files', compacted, rfl⟩ := Option.map_eq_some_iff.mp rest
    have safe := safe.resolve_left nonempty
    obtain ⟨store, flushed', rfl, legible', pulls⟩ := pulls_of_safeFlush readable sound legible safe flushed
    obtain ⟨last, compacted', rfl, -, legible''⟩ :=
      DiskStore.mayCompact_onDisk readable legible'.stored compacted
    refine ⟨⟨[], last, _⟩, ?_, rfl, legible'' legible' (safe.2 _ flushed).2, Or.inr fun store' again => ?_⟩
    · rw [flushed', Option.bind_some, compacted']
      rfl
    · obtain rfl := Option.some.inj (flushed'.symm.trans again)
      exact pulls

end DiskDatabase

namespace DiskSessions

open Framework
open Sessions (Action Careful Contents Related Replayable State mapMachine)

def step (d : DiskDeps) (s : State DiskFile) : Action → Option (State DiskFile)
  | .init =>
    if s.session.isSome then none
    else (DiskDatabase.init d s.db).map fun opened =>
      ⟨opened.1, some opened.2, !s.db.log.isEmpty, s.written⟩
  | .insert b =>
    s.session.bind fun session =>
      (DiskDatabase.insert d s.db session b).map fun done =>
        { s with db := done.1, session := some done.2, written := s.written + b.count }
  | .mayCompact from_ r =>
    s.session.bind fun _ =>
      (DiskStore.mayCompact d s.db.store from_ r).map fun store => { s with db := { s.db with store } }
  | .close =>
    s.session.bind fun session =>
      (DiskDatabase.close d s.db session).map fun db => { s with db, session := none }
  | .crash => s.session.map fun _ => { s with session := none }

def start : State DiskFile := ⟨Database.empty, none, false, 0⟩

def machine (d : DiskDeps) : Machine (State DiskFile) Action where
  init s := s = start
  step := step d

/-- What is flushed and compacted can be read back, and compactions take safe inputs. -/
def SafeWrites (d : DiskDeps) (s : State DiskFile) : Action → Prop
  | .init => DiskDatabase.SafeRecovery d s.db
  | .insert b => ∀ session ∈ s.session, (session.mem.insert d.skipListReplaces
      (b.setFirstSequenceNum session.center.newestUnusedSeq)).isNone = true →
        DiskStore.FlushFits d session.mem
  | .mayCompact from_ r => DiskStore.SafeCompaction d s.db.store.current from_ r
  | .close => ∀ session ∈ s.session,
      session.mem.isEmpty = true ∨ DiskStore.SafeFlush d s.db.store session.mem
  | .crash => True

def Lasting (d : DiskDeps) (s : State DiskFile) (a : Action) : Prop :=
  Careful s a ∧ Replayable d.toKvdbDeps s a ∧ SafeWrites d s a

instance (d : DiskDeps) (s : State DiskFile) : (a : Action) → Decidable (SafeWrites d s a)
  | .init => inferInstanceAs (Decidable (DiskDatabase.SafeRecovery d s.db))
  | .insert b => inferInstanceAs (Decidable (∀ session ∈ s.session, (session.mem.insert d.skipListReplaces
      (b.setFirstSequenceNum session.center.newestUnusedSeq)).isNone = true →
        DiskStore.FlushFits d session.mem))
  | .mayCompact from_ r => inferInstanceAs (Decidable (DiskStore.SafeCompaction d s.db.store.current from_ r))
  | .close => inferInstanceAs (Decidable (∀ session ∈ s.session,
      session.mem.isEmpty = true ∨ DiskStore.SafeFlush d s.db.store session.mem))
  | .crash => isTrue trivial

instance (d : DiskDeps) (s : State DiskFile) (a : Action) : Decidable (Lasting d s a) :=
  inferInstanceAs (Decidable (Careful s a ∧ Replayable d.toKvdbDeps s a ∧ SafeWrites d s a))

/-- The bytes of the tables of a database that stands for the map `m`. -/
def Holds (d : DiskDeps) (m : Contents) (t : State DiskFile) : Prop :=
  ∃ s : State File, Related d.toKvdbDeps m s ∧ s.db.store.current.Legible d.table ∧
    t = ⟨s.db.onDisk d.table, s.session, s.recovered, s.written⟩

variable {d : DiskDeps} {compressor : CompressorPolicy} {s : State File} {t t' : State DiskFile}
  {m : Contents}

/-- A step on the files is a step on the tables in them. -/
theorem step_onDisk (readable : d.Readable compressor) (sound : s.db.store.Sound d.toKvdbDeps)
    (legible : s.db.store.current.Legible d.table) {a : Action}
    (lasting : Lasting d ⟨s.db.onDisk d.table, s.session, s.recovered, s.written⟩ a)
    (taken : step d ⟨s.db.onDisk d.table, s.session, s.recovered, s.written⟩ a = some t') :
    Sessions.Lasting d.toKvdbDeps s a ∧ ∃ s', Sessions.step d.toKvdbDeps s a = some s' ∧
      s'.db.store.current.Legible d.table ∧
      t' = ⟨s'.db.onDisk d.table, s'.session, s'.recovered, s'.written⟩ := by
  obtain ⟨careful, replayable, safe⟩ := lasting
  cases a with
  | init =>
    obtain ⟨closed, taken⟩ := Option.ite_none_left_eq_some.mp taken
    obtain ⟨⟨disk, session⟩, opened, rfl⟩ := Option.map_eq_some_iff.mp taken
    obtain ⟨db, opened', rfl, legible', pulls⟩ := DiskDatabase.init_onDisk readable sound legible safe opened
    refine ⟨⟨careful, replayable, pulls⟩, ⟨db, some session, !s.db.log.isEmpty, s.written⟩, ?_, legible', rfl⟩
    rw [Sessions.step, if_neg closed, opened']
    rfl
  | insert b =>
    obtain ⟨session, (open_ : s.session = some session), taken⟩ := Option.bind_eq_some_iff.mp taken
    obtain ⟨⟨disk, session'⟩, inserted, rfl⟩ := Option.map_eq_some_iff.mp taken
    obtain ⟨db, inserted', rfl, legible'⟩ :=
      DiskDatabase.insert_onDisk readable legible (safe session open_) inserted
    refine ⟨⟨careful, replayable, trivial⟩,
      { s with db, session := some session', written := s.written + b.count }, ?_, legible', rfl⟩
    rw [Sessions.step, open_, Option.bind_some, inserted']
    rfl
  | mayCompact from_ r =>
    obtain ⟨session, (open_ : s.session = some session), taken⟩ := Option.bind_eq_some_iff.mp taken
    obtain ⟨files, compacted, rfl⟩ := Option.map_eq_some_iff.mp taken
    obtain ⟨store, compacted', rfl, -, legible'⟩ := DiskStore.mayCompact_onDisk readable legible.stored compacted
    refine ⟨⟨careful, replayable, DiskStore.pulls_of_safe readable sound legible safe⟩,
      { s with db := { s.db with store } }, ?_, legible' legible safe.2, rfl⟩
    rw [Sessions.step, open_, Option.bind_some, compacted']
    rfl
  | close =>
    obtain ⟨session, (open_ : s.session = some session), taken⟩ := Option.bind_eq_some_iff.mp taken
    obtain ⟨disk, closed, rfl⟩ := Option.map_eq_some_iff.mp taken
    obtain ⟨db, closed', rfl, legible', pulls⟩ :=
      DiskDatabase.close_onDisk readable sound legible (safe session open_) closed
    refine ⟨⟨careful, replayable, fun session' again => ?_⟩, { s with db, session := none }, ?_, legible', rfl⟩
    · obtain rfl := Option.some.inj (open_.symm.trans again)
      exact pulls
    · rw [Sessions.step, open_, Option.bind_some, closed']
      rfl
  | crash =>
    obtain ⟨session, (open_ : s.session = some session), rfl⟩ := Option.map_eq_some_iff.mp taken
    refine ⟨⟨careful, replayable, trivial⟩, { s with session := none }, ?_, legible, rfl⟩
    rw [Sessions.step, open_, Option.map_some]

theorem simulates_map (readable : d.Readable compressor) :
    Simulates mapMachine (machine d) (Lasting d) (Holds d) where
  start := by
    rintro t rfl
    exact ⟨fun _ => none, rfl, _, Sessions.related_start d.toKvdbDeps,
      fun f mem => absurd mem List.not_mem_nil, rfl⟩
  step := by
    rintro m t a t' ⟨s, related, legible, rfl⟩ lasting taken
    have sound : s.db.store.Sound d.toKvdbDeps := by
      obtain ⟨logged, durable, -⟩ := related
      exact durable.sound
    obtain ⟨met, s', taken', legible', rfl⟩ := step_onDisk readable sound legible lasting taken
    obtain ⟨m', mapped, related'⟩ := Sessions.related_step related met taken'
    exact ⟨m', mapped, s', related', legible', rfl⟩

theorem get_onDisk (readable : d.Readable compressor) {db : Database File} {session : Session}
    (legible : db.store.current.Legible d.table) {key : UserKey} (size : key.size < 2 ^ 16) :
    DiskDatabase.get d (db.onDisk d.table) session key =
      some (Sessions.get d.toKvdbDeps db session key) := by
  rw [DiskDatabase.get, Sessions.get]
  cases found : session.mem.get ⟨session.center.leatestUsedSequenceNumber, key⟩ with
  | some e => rfl
  | none =>
    have searched := DiskStore.findFromSsts_map
      (k := ⟨session.center.leatestUsedSequenceNumber, key⟩) readable.toReadable legible size
    change (DiskStore.findFromSsts d (db.store.current.map (File.onDisk d.table)) _).map _ = _
    rw [searched]
    rfl

/-- Key 1 is overwritten after a crash, key 2 is taken out in a session that flushes its memtable and
closes. -/
def overwritten : List Action :=
  [.init, Sessions.write 1 10, Sessions.write 2 11, .crash, .init, Sessions.write 1 12, .crash, .init,
    .insert ⟨0, [⟨⟨0, ⟨[2]⟩⟩, none⟩, KvEntry.brief 3 0 13]⟩, Sessions.write 4 14, .mayCompact 0 1, .close,
    .init]

end DiskSessions

end FrenzyKV
