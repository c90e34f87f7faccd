import FrenzyKV.Db.DiskOrder
import FrenzyKV.Db.Init

namespace FrenzyKV

open Bytes

/-- `Database` with the bytes of its tables. -/
abbrev DiskDatabase := Database DiskFile

def Database.onDisk (d : TableDeps) (db : Database File) : DiskDatabase := ⟨db.log, db.store.onDisk d, db.seqnum⟩

namespace DiskDatabase

variable (d : DiskDeps)

/-- The middle of `db_local::init`. -/
def replayLog (db : DiskDatabase) : Option (DiskStore × Nat) :=
  (recover db.log).bind fun recovered =>
    (DiskStore.flushToDisk d db.store (recoveredMemtable d.toKvdbDeps recovered.1)).map fun store =>
      (store, recovered.2)

/-- `db_local::init`. -/
def init (db : DiskDatabase) : Option (DiskDatabase × Session) :=
  let center := SnapshotCenter.empty.setInitLeatestUsedSequenceNumber
    (getLeatestSequenceNumber db.seqnum)
  if db.log.isEmpty then some (db, ⟨Memtable.make d.opt, center⟩)
  else
    (replayLog d db).bind fun replayed =>
      (DiskStore.mayCompact d replayed.1 0 1).map fun store =>
        ({ db with log := [], store },
          ⟨Memtable.make d.opt, center.setInitLeatestUsedSequenceNumber replayed.2⟩)

/-- `db_local::insert` when nothing else runs. -/
def insert (db : DiskDatabase) (session : Session) (b : WriteBatch) : Option (DiskDatabase × Session) :=
  let numbered := b.setFirstSequenceNum session.center.newestUnusedSeq
  let log := appendToLog db.log numbered
  let center := session.center.getNextUnusedSequenceNumber b.count
  match session.mem.insert d.skipListReplaces numbered with
  | some mem => some ({ db with log }, ⟨mem, center⟩)
  | none =>
    (DiskStore.flushToDisk d db.store session.mem).bind fun store =>
      ((Memtable.make d.opt).insert d.skipListReplaces numbered).map fun mem =>
        ({ db with log, store }, ⟨mem, center⟩)

/-- `db_local::close`. -/
def close (db : DiskDatabase) (session : Session) : Option DiskDatabase :=
  if session.mem.isEmpty then some db
  else
    (DiskStore.flushToDisk d db.store session.mem).bind fun store =>
      (DiskStore.mayCompact d store 0 1).map fun store =>
        ⟨[], store, writeLeatestSequenceNumber session.center.leatestUsedSequenceNumber⟩

/-- `db_local::get` without a snapshot; no result means that a table cannot be read. -/
def get (db : DiskDatabase) (session : Session) (key : UserKey) : Option (Option KvEntry) :=
  let skey : SequencedKey := ⟨session.center.leatestUsedSequenceNumber, key⟩
  let result := match session.mem.get skey with
    | some e => some (some e)
    | none => DiskStore.findFromSsts d db.store.current skey
  result.map (·.filter (!·.isTombStone))

/-- The files that a recovery writes can be read back, and its compaction is safe. -/
def SafeRecovery (db : DiskDatabase) : Prop :=
  db.log = [] ∨ ∀ recovered ∈ recover db.log,
    DiskStore.SafeFlush d db.store (recoveredMemtable d.toKvdbDeps recovered.1)

instance (db : DiskDatabase) : Decidable (SafeRecovery d db) :=
  inferInstanceAs (Decidable (db.log = [] ∨ ∀ recovered ∈ recover db.log,
    DiskStore.SafeFlush d db.store (recoveredMemtable d.toKvdbDeps recovered.1)))

variable {d : DiskDeps} {db db' : DiskDatabase} {session : Session}

theorem init_cases (opened : init d db = some (db', session)) :
    (db.log = [] ∧ db' = db ∧ session = ⟨Memtable.make d.opt, SnapshotCenter.empty.setInitLeatestUsedSequenceNumber
      (getLeatestSequenceNumber db.seqnum)⟩) ∨
      ∃ batch maxSeq store last, db.log ≠ [] ∧ recover db.log = some (batch, maxSeq) ∧
        DiskStore.flushToDisk d db.store (recoveredMemtable d.toKvdbDeps batch) = some store ∧
        DiskStore.mayCompact d store 0 1 = some last ∧ db' = { db with log := [], store := last } ∧
        session = ⟨Memtable.make d.opt, (SnapshotCenter.empty.setInitLeatestUsedSequenceNumber
          (getLeatestSequenceNumber db.seqnum)).setInitLeatestUsedSequenceNumber maxSeq⟩ := by
  rw [init] at opened
  by_cases empty : db.log = []
  · simp only [empty, List.isEmpty_nil, if_true] at opened
    obtain ⟨rfl, rfl⟩ := Prod.mk.inj (Option.some.inj opened)
    exact Or.inl ⟨empty, rfl, rfl⟩
  · rw [if_neg (by simpa using empty)] at opened
    obtain ⟨⟨store, maxSeq⟩, replayed, rest⟩ := Option.bind_eq_some_iff.mp opened
    obtain ⟨⟨batch, _⟩, recovered, flush⟩ := Option.bind_eq_some_iff.mp replayed
    obtain ⟨_, flushed, eq⟩ := Option.map_eq_some_iff.mp flush
    obtain ⟨rfl, rfl⟩ := Prod.mk.inj eq
    obtain ⟨last, compacted, eq⟩ := Option.map_eq_some_iff.mp rest
    obtain ⟨rfl, rfl⟩ := Prod.mk.inj eq
    exact Or.inr ⟨batch, _, _, last, empty, recovered, flushed, compacted, rfl, rfl⟩

theorem close_cases (closed : close d db session = some db') :
    (session.mem.isEmpty = true ∧ db' = db) ∨
      ∃ store last, DiskStore.flushToDisk d db.store session.mem = some store ∧
        DiskStore.mayCompact d store 0 1 = some last ∧
        db' = ⟨[], last, writeLeatestSequenceNumber session.center.leatestUsedSequenceNumber⟩ := by
  rw [close] at closed
  split at closed
  · rename_i empty
    exact Or.inl ⟨empty, (Option.some.inj closed).symm⟩
  · obtain ⟨store, flushed, rest⟩ := Option.bind_eq_some_iff.mp closed
    obtain ⟨last, compacted, rfl⟩ := Option.map_eq_some_iff.mp rest
    exact Or.inr ⟨store, last, flushed, compacted, rfl⟩

end DiskDatabase

end FrenzyKV
