import FrenzyKV.Db.DbLocal
import FrenzyKV.Db.Snapshot
import FrenzyKV.Db.VersionDescriptor
import FrenzyKV.Log.WriteAheadLogger

/-! Opening, using and closing a database, one call after another (`db/db_local.cc`). -/

namespace FrenzyKV

open Bytes

/-- What outlives a process: the log, the version that the current-version file names, and
the sequence number file. -/
structure Database (φ : Type) where
  log : ByteString
  store : Store φ
  seqnum : ByteString

/-- What a process holds in memory while the database is open. -/
structure Session where
  mem : Memtable
  center : SnapshotCenter

def Database.empty {φ : Type} : Database φ := ⟨[], Store.empty, []⟩

/-- The memtable that `init` fills with the log; it drops the error code of the insertion. -/
def recoveredMemtable (deps : KvdbDeps) (batch : WriteBatch) : Memtable :=
  ((Memtable.make deps.opt).insert deps.skipListReplaces batch).getD (Memtable.make deps.opt)

/-- The middle of `db_local::init`: recover the log and flush it. -/
def replayLog (deps : KvdbDeps) (db : Database File) : Option (Store File × Nat) :=
  (recover db.log).bind fun recovered =>
    (flushToDisk deps db.store (recoveredMemtable deps recovered.1)).map fun store =>
      (store, recovered.2)

/-- `db_local::init` on tables. -/
def init (deps : KvdbDeps) (db : Database File) : Option (Database File × Session) :=
  let center := SnapshotCenter.empty.setInitLeatestUsedSequenceNumber
    (getLeatestSequenceNumber db.seqnum)
  if db.log.isEmpty then some (db, ⟨Memtable.make deps.opt, center⟩)
  else
    (replayLog deps db).bind fun replayed =>
      (mayCompact deps replayed.1 0 1).map fun store =>
        ({ db with log := [], store },
          ⟨Memtable.make deps.opt, center.setInitLeatestUsedSequenceNumber replayed.2⟩)

/-- `db_local::insert` on tables when nothing else runs. The loop ends in the second round or never. -/
def insert (deps : KvdbDeps) (db : Database File) (session : Session) (b : WriteBatch) :
    Option (Database File × Session) :=
  let numbered := b.setFirstSequenceNum session.center.newestUnusedSeq
  let log := appendToLog db.log numbered
  let center := session.center.getNextUnusedSequenceNumber b.count
  match session.mem.insert deps.skipListReplaces numbered with
  | some mem => some ({ db with log }, ⟨mem, center⟩)
  | none =>
    (flushToDisk deps db.store session.mem).bind fun store =>
      ((Memtable.make deps.opt).insert deps.skipListReplaces numbered).map fun mem =>
        ({ db with log, store }, ⟨mem, center⟩)

/-- `db_local::close` on tables, which returns early when the memtable is empty. -/
def close (deps : KvdbDeps) (db : Database File) (session : Session) : Option (Database File) :=
  if session.mem.isEmpty then some db
  else
    (flushToDisk deps db.store session.mem).bind fun store =>
      (mayCompact deps store 0 1).map fun store =>
        ⟨[], store, writeLeatestSequenceNumber session.center.leatestUsedSequenceNumber⟩

/-- The persistent effects of `flush_to_disk`: each table is written and synced, then the
descriptor is written, then the current-version file is replaced. -/
def flushEffects (deps : KvdbDeps) (s : Store File) (name : Nat) (m : Memtable) :
    Option (List (List DiskEffect)) :=
  (flushTables deps m).map fun ts =>
    let files := createFiles deps 0 s.created ts
    if m.isEmpty then []
    else files.map (fun f => [.writeTable f]) ++
      [[.writeDescriptor name (s.current.apply ⟨[], files⟩)], setCurrentVersionFile name]

/-- The persistent effects of `init` up to its compaction. It truncates the log as soon as
it has read it. -/
def initEffects (deps : KvdbDeps) (d : Disk) (created name : Nat) :
    Option (List (List DiskEffect)) :=
  if d.log.isEmpty then some []
  else
    (recover d.log).bind fun recovered =>
      (flushEffects deps ⟨d.getCurrentVersion, created⟩ name
        (recoveredMemtable deps recovered.1)).map ([.truncateLog] :: ·)

/-- The counter that `init` sets from the sequence number file. -/
def fileCenter (db : Database File) : SnapshotCenter :=
  SnapshotCenter.empty.setInitLeatestUsedSequenceNumber (getLeatestSequenceNumber db.seqnum)

theorem init_cases {deps : KvdbDeps} {db db' : Database File} {session : Session}
    (opened : init deps db = some (db', session)) :
    (db.log = [] ∧ db' = db ∧ session = ⟨Memtable.make deps.opt, fileCenter db⟩) ∨
      ∃ batch maxSeq store last, db.log ≠ [] ∧ recover db.log = some (batch, maxSeq) ∧
        flushToDisk deps db.store (recoveredMemtable deps batch) = some store ∧
        mayCompact deps store 0 1 = some last ∧ db' = { db with log := [], store := last } ∧
        session = ⟨Memtable.make deps.opt,
          (fileCenter db).setInitLeatestUsedSequenceNumber maxSeq⟩ := by
  rw [init] at opened
  by_cases empty : db.log = []
  · simp only [empty, List.isEmpty_nil, if_true] at opened
    obtain ⟨rfl, rfl⟩ := Prod.mk.inj (Option.some.inj opened)
    exact Or.inl ⟨empty, rfl, rfl⟩
  · rw [if_neg (by simpa using empty)] at opened
    obtain ⟨⟨store, maxSeq⟩, replayed, rest⟩ := Option.bind_eq_some_iff.mp opened
    obtain ⟨⟨batch, _⟩, recovered, flush⟩ := Option.bind_eq_some_iff.mp replayed
    obtain ⟨_, flushed, eq⟩ := Option.map_eq_some_iff.mp flush
    obtain ⟨rfl, rfl⟩ := Prod.mk.inj eq
    obtain ⟨last, compacted, eq⟩ := Option.map_eq_some_iff.mp rest
    obtain ⟨rfl, rfl⟩ := Prod.mk.inj eq
    exact Or.inr ⟨batch, _, _, last, empty, recovered, flushed, compacted, rfl, rfl⟩

theorem close_cases {deps : KvdbDeps} {db db' : Database File} {session : Session}
    (closed : close deps db session = some db') :
    (session.mem.isEmpty = true ∧ db' = db) ∨
      ¬ session.mem.isEmpty = true ∧ ∃ store last, flushToDisk deps db.store session.mem = some store ∧
        mayCompact deps store 0 1 = some last ∧
        db' = ⟨[], last, writeLeatestSequenceNumber session.center.leatestUsedSequenceNumber⟩ := by
  rw [close] at closed
  split at closed
  · rename_i empty
    exact Or.inl ⟨empty, (Option.some.inj closed).symm⟩
  · rename_i filled
    obtain ⟨store, flushed, rest⟩ := Option.bind_eq_some_iff.mp closed
    obtain ⟨last, compacted, rfl⟩ := Option.map_eq_some_iff.mp rest
    exact Or.inr ⟨filled, store, last, flushed, compacted, rfl⟩

/-- Either the batch fits or the memtable is flushed first; the log and the counter move on
in both cases. -/
theorem insert_cases {deps : KvdbDeps} {db db' : Database File} {session session' : Session}
    {b : WriteBatch} (inserted : insert deps db session b = some (db', session')) :
    let numbered := b.setFirstSequenceNum session.center.newestUnusedSeq
    ∃ store mem, (store = db.store ∧ mem = session.mem ∨
        flushToDisk deps db.store session.mem = some store ∧ mem = Memtable.make deps.opt) ∧
      mem.insert deps.skipListReplaces numbered = some session'.mem ∧
      db' = { db with log := appendToLog db.log numbered, store } ∧
      session'.center = session.center.getNextUnusedSequenceNumber b.count := by
  intro numbered
  rw [insert] at inserted
  split at inserted
  · rename_i mem fits
    obtain ⟨rfl, rfl⟩ := Prod.mk.inj (Option.some.inj inserted)
    exact ⟨db.store, session.mem, Or.inl ⟨rfl, rfl⟩, fits, rfl, rfl⟩
  · obtain ⟨store, flushed, rest⟩ := Option.bind_eq_some_iff.mp inserted
    obtain ⟨mem, fits, eq⟩ := Option.map_eq_some_iff.mp rest
    obtain ⟨rfl, rfl⟩ := Prod.mk.inj eq
    exact ⟨store, _, Or.inr ⟨flushed, rfl⟩, fits, rfl, rfl⟩

section RecoveredMemtable

variable {deps : KvdbDeps} {b : WriteBatch}

theorem recoveredMemtable_of_fits (fits : b.serializedSize ≤ deps.opt.memoryPageBytes) :
    recoveredMemtable deps b =
      b.entries.foldl (Memtable.insertEntry deps.skipListReplaces) (Memtable.make deps.opt) := by
  have room : (Memtable.make deps.opt).couldFitIn b = true := by
    simpa [Memtable.couldFitIn, Memtable.make] using fits
  rw [recoveredMemtable, Memtable.insert, if_pos room]
  rfl

theorem recoveredMemtable_of_large (large : deps.opt.memoryPageBytes < b.serializedSize) :
    recoveredMemtable deps b = Memtable.make deps.opt := by
  have full : ¬ (Memtable.make deps.opt).couldFitIn b = true := by
    simpa [Memtable.couldFitIn, Memtable.make] using large
  rw [recoveredMemtable, Memtable.insert, if_neg full]
  rfl

theorem mem_of_mem_recoveredMemtable {e : KvEntry} (mem : e ∈ (recoveredMemtable deps b).storage) :
    e ∈ b.entries := by
  by_cases fits : b.serializedSize ≤ deps.opt.memoryPageBytes
  · rw [recoveredMemtable_of_fits fits] at mem
    exact (Memtable.mem_of_mem_foldl_insertEntry mem).resolve_right (by simp)
  · rw [recoveredMemtable_of_large (Nat.lt_of_not_le fits)] at mem
    simp at mem

theorem mem_recoveredMemtable_iff {e : KvEntry} (fits : b.serializedSize ≤ deps.opt.memoryPageBytes)
    (unique : ∀ x ∈ b.entries, ∀ y ∈ b.entries, x.key = y.key → x = y) :
    e ∈ (recoveredMemtable deps b).storage ↔ e ∈ b.entries := by
  rw [recoveredMemtable_of_fits fits, Memtable.mem_foldl_insertEntry_iff]
  · simp
  · exact fun x y hx hy => unique x (hx.resolve_right List.not_mem_nil) y
      (hy.resolve_right List.not_mem_nil)

end RecoveredMemtable

/-- The bytes of a batch in the log are the bytes that the memtable counts. -/
theorem length_flatMap_serialize (es : List KvEntry) :
    (es.flatMap KvEntry.serialize).length = (es.map KvEntry.serializedBytesSize).sum := by
  induction es with
  | nil => rfl
  | cons e es ih => simp [ih]

end FrenzyKV
