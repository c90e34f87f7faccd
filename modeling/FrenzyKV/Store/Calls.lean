import FrenzyKV.Db.DiskOrder
import FrenzyKV.Db.Snapshot
import FrenzyKV.Framework.Machine

/-! Concurrent calls of `insert`, `get` and `get_snapshot` on one open database
(`db/db_local.cc`). A step is what a call does between two points at which others run. -/

namespace FrenzyKV.Calls

open Framework

inductive InsertPhase where
  | numbered (b : WriteBatch)
  | logged (b : WriteBatch)
  | inSection (b : WriteBatch)
  | returned

/-- Who holds `m_mem_mutex`, and the memtable that the holder is writing to disk. -/
inductive MemSection where
  | free
  | held (i : Nat)
  | flushing (i : Nat) (m : Memtable)

/-- `inserted` is a ghost: the inserts that had returned when the snapshot was taken. -/
inductive SnapshotPhase where
  | pinned (version : Version DiskFile)
  | taken (snap : Snapshot DiskFile) (inserted : List KvEntry)
  | dropped
deriving DecidableEq

inductive GetPhase where
  | started
  | pinned (version : Version DiskFile)
  | snapped (snap : Snapshot DiskFile)
  | keyed (snap : Snapshot DiskFile) (seq : Nat)
  | missed (snap : Snapshot DiskFile) (seq : Nat)
  | done (result : Option KvEntry)
deriving DecidableEq

/-- `seen` is a ghost: the entries the call has to take into account. For a call without a
snapshot these are the inserts that had returned when it started, else those of the snapshot. -/
structure Get where
  key : UserKey
  option : Option (Snapshot DiskFile)
  seen : List KvEntry
  phase : GetPhase

/-- `issued` and `returned` are ghosts: all entries that got a number, and those whose
insert has returned. -/
structure State where
  store : DiskStore
  disk : List DiskFile
  mem : Memtable
  memSection : MemSection
  center : SnapshotCenter
  log : List KvEntry
  inserts : List InsertPhase
  snapshots : List SnapshotPhase
  gets : List Get
  issued : List KvEntry
  returned : List KvEntry

inductive Action where
  | insert (b : WriteBatch)
  | insertStep (i : Nat)
  | getSnapshot
  | snapshotStep (j : Nat)
  | dropSnapshot (j : Nat)
  | get (key : UserKey) (option : Option Nat)
  | getStep (j : Nat)
  | mayCompact (from_ : Nat) (threshRatio : ThreshRatio)
  | doGC

def SnapshotPhase.versions : SnapshotPhase → List (Version DiskFile)
  | .pinned version => [version]
  | .taken snap _ => [snap.version]
  | .dropped => []

def GetPhase.versions : GetPhase → List (Version DiskFile)
  | .pinned version => [version]
  | .snapped snap | .keyed snap _ | .missed snap _ => [snap.version]
  | .started | .done _ => []

/-- The versions that some guard refers to. -/
def State.versions (s : State) : List (Version DiskFile) :=
  s.store.current :: (s.snapshots.flatMap SnapshotPhase.versions ++
    s.gets.flatMap (·.phase.versions))

def State.setInsert (s : State) (i : Nat) (p : InsertPhase) : State :=
  { s with inserts := s.inserts.set i p }

/-- Move to a new store, whose new files are on disk. -/
def State.setStore (s : State) (store : DiskStore) : State :=
  { s with store, disk := s.disk ++ store.current.filter (· ∉ s.store.current) }

/-- The next step of the `i`-th call of `db_local::insert`. -/
def insertStep (deps : DiskDeps) (s : State) (i : Nat) : Option State :=
  match s.inserts[i]?, s.memSection with
  | some (.numbered b), _ => some { s.setInsert i (.logged b) with log := s.log ++ b.entries }
  | some (.logged b), .free => some { s.setInsert i (.inSection b) with memSection := .held i }
  | some (.inSection b), .held j =>
    if i = j then
      match s.mem.insert deps.skipListReplaces b with
      | some mem => some { s.setInsert i .returned with
          mem, memSection := .free, returned := s.returned ++ b.entries }
      -- out of range: take the memtable out and try again when it is flushed
      | none => some { s with mem := Memtable.make deps.opt, memSection := .flushing i s.mem }
    else none
  | some (.inSection _), .flushing j m =>
    if i = j then
      (s.store.flushToDisk deps m).map fun store => { s.setStore store with memSection := .held i }
    else none
  | _, _ => none

/-- Tombstones are not handed out. -/
def answer (e : KvEntry) : Option KvEntry := if e.isTombStone then none else some e

/-- A call of `db_local::get`; a snapshot that is not valid counts as none. -/
def startGet (s : State) (key : UserKey) : Option (Snapshot DiskFile × List KvEntry) → Get
  | some (snap, inserted) =>
    if snap.valid then ⟨key, some snap, inserted, .snapped snap⟩
    else ⟨key, none, s.returned.filter (·.userKey = key), .started⟩
  | none => ⟨key, none, s.returned.filter (·.userKey = key), .started⟩

/-- The version that `find_from_ssts` searches. -/
def searchedVersion (s : State) (snap : Snapshot DiskFile) : Version DiskFile :=
  if snap.valid then snap.version else s.store.current

/-- The next step of a call of `db_local::get`. -/
def getStep (deps : DiskDeps) (s : State) (g : Get) : Option GetPhase :=
  match g.phase with
  | .started => some (.pinned s.store.current)
  | .pinned version => some (.snapped (s.center.getSnapshot version))
  | .snapped snap =>
    some (.keyed snap (if snap.valid then snap.seq else s.center.leatestUsedSequenceNumber))
  | .keyed snap seq =>
    match s.memSection with
    | .free => match s.mem.get ⟨seq, g.key⟩ with
      | some e => some (.done (answer e))
      | none => some (.missed snap seq)
    | _ => none
  | .missed snap seq =>
    -- a table file that is gone cannot be opened
    if ∀ f ∈ searchedVersion s snap, f ∈ s.disk then
      (DiskStore.findFromSsts deps (searchedVersion s snap) ⟨seq, g.key⟩).map fun found =>
        .done (found.bind answer)
    else none
  | .done _ => none

def step (deps : DiskDeps) (s : State) : Action → Option State
  | .insert b =>
    if b.count < sequenceNumberModulus - 1 then
      let numbered := b.setFirstSequenceNum s.center.newestUnusedSeq
      some { s with
        center := s.center.getNextUnusedSequenceNumber b.count
        inserts := s.inserts ++ [.numbered numbered]
        issued := s.issued ++ numbered.entries }
    else none
  | .insertStep i => insertStep deps s i
  | .getSnapshot => some { s with snapshots := s.snapshots ++ [.pinned s.store.current] }
  | .snapshotStep j =>
    match s.snapshots[j]? with
    | some (.pinned version) => some { s with
        snapshots := s.snapshots.set j (.taken (s.center.getSnapshot version) s.returned) }
    | _ => none
  | .dropSnapshot j =>
    match s.snapshots[j]? with
    | some (.taken _ _) => some { s with snapshots := s.snapshots.set j .dropped }
    | _ => none
  | .get key none => some { s with gets := s.gets ++ [startGet s key none] }
  | .get key (some j) =>
    match s.snapshots[j]? with
    | some (.taken snap inserted) =>
      some { s with gets := s.gets ++ [startGet s key (some (snap, inserted))] }
    | _ => none
  | .getStep j =>
    match s.gets[j]? with
    | some g => (getStep deps s g).map fun phase => { s with gets := s.gets.set j { g with phase } }
    | none => none
  | .mayCompact from_ r => (s.store.mayCompact deps from_ r).map s.setStore
  | .doGC => some { s with disk := s.disk.filter fun f => s.versions.any (f ∈ ·) }

/-- Each way in which a step can go, with the checks on its path. -/
inductive Step (deps : DiskDeps) (s : State) : Action → State → Prop
  | insert {b : WriteBatch} (small : b.count < sequenceNumberModulus - 1) :
      Step deps s (.insert b) {
        s with
        center := s.center.getNextUnusedSequenceNumber b.count
        inserts := s.inserts ++ [.numbered (b.setFirstSequenceNum s.center.newestUnusedSeq)]
        issued := s.issued ++ (b.setFirstSequenceNum s.center.newestUnusedSeq).entries }
  | log {i : Nat} {b : WriteBatch} (at_ : s.inserts[i]? = some (.numbered b)) :
      Step deps s (.insertStep i) { s.setInsert i (.logged b) with log := s.log ++ b.entries }
  | lock {i : Nat} {b : WriteBatch} (at_ : s.inserts[i]? = some (.logged b)) (free : s.memSection = .free) :
      Step deps s (.insertStep i) { s.setInsert i (.inSection b) with memSection := .held i }
  | write {i : Nat} {b : WriteBatch} {mem : Memtable} (at_ : s.inserts[i]? = some (.inSection b))
      (held : s.memSection = .held i) (inserted : s.mem.insert deps.skipListReplaces b = some mem) :
      Step deps s (.insertStep i) {
        s.setInsert i .returned with
        mem, memSection := .free, returned := s.returned ++ b.entries }
  | swap {i : Nat} {b : WriteBatch} (at_ : s.inserts[i]? = some (.inSection b))
      (held : s.memSection = .held i) (full : s.mem.insert deps.skipListReplaces b = none) :
      Step deps s (.insertStep i)
        { s with mem := Memtable.make deps.opt, memSection := .flushing i s.mem }
  | flush {i : Nat} {b : WriteBatch} {m : Memtable} {store : DiskStore}
      (at_ : s.inserts[i]? = some (.inSection b)) (flushing : s.memSection = .flushing i m)
      (flushed : s.store.flushToDisk deps m = some store) :
      Step deps s (.insertStep i) { s.setStore store with memSection := .held i }
  | getSnapshot :
      Step deps s .getSnapshot { s with snapshots := s.snapshots ++ [.pinned s.store.current] }
  | snapshot {j : Nat} {version : Version DiskFile} (at_ : s.snapshots[j]? = some (.pinned version)) :
      Step deps s (.snapshotStep j) {
        s with
        snapshots := s.snapshots.set j (.taken (s.center.getSnapshot version) s.returned) }
  | drop {j : Nat} {snap : Snapshot DiskFile} {inserted : List KvEntry}
      (at_ : s.snapshots[j]? = some (.taken snap inserted)) :
      Step deps s (.dropSnapshot j) { s with snapshots := s.snapshots.set j .dropped }
  | get {key : UserKey} : Step deps s (.get key none) { s with gets := s.gets ++ [startGet s key none] }
  | getWith {key : UserKey} {j : Nat} {snap : Snapshot DiskFile} {inserted : List KvEntry}
      (at_ : s.snapshots[j]? = some (.taken snap inserted)) :
      Step deps s (.get key (some j)) { s with gets := s.gets ++ [startGet s key (some (snap, inserted))] }
  | getStep {j : Nat} {g : Get} {phase : GetPhase} (at_ : s.gets[j]? = some g)
      (next : getStep deps s g = some phase) :
      Step deps s (.getStep j) { s with gets := s.gets.set j { g with phase } }
  | mayCompact {from_ : Nat} {r : ThreshRatio} {store : DiskStore}
      (compacted : s.store.mayCompact deps from_ r = some store) :
      Step deps s (.mayCompact from_ r) (s.setStore store)
  | doGC : Step deps s .doGC { s with disk := s.disk.filter fun f => s.versions.any (f ∈ ·) }

theorem insertStep_cases {deps : DiskDeps} {s s' : State} {i : Nat}
    (taken : insertStep deps s i = some s') : Step deps s (.insertStep i) s' := by
  rw [insertStep] at taken
  split at taken
  · rename_i at_
    obtain rfl := Option.some.inj taken
    exact .log at_
  · rename_i at_ free
    obtain rfl := Option.some.inj taken
    exact .lock at_ free
  · rename_i b j at_ held
    split at taken
    · rename_i own
      subst own
      split at taken
      · rename_i mem inserted
        obtain rfl := Option.some.inj taken
        exact .write at_ held inserted
      · rename_i full
        obtain rfl := Option.some.inj taken
        exact .swap at_ held full
    · cases taken
  · rename_i b j m at_ flushing
    split at taken
    · rename_i own
      subst own
      obtain ⟨store, flushed, rfl⟩ := Option.map_eq_some_iff.mp taken
      exact .flush at_ flushing flushed
    · cases taken
  · cases taken

theorem step_cases {deps : DiskDeps} {s s' : State} {a : Action} (taken : step deps s a = some s') :
    Step deps s a s' := by
  cases a with
  | insert b =>
    simp only [step] at taken
    split at taken
    · rename_i small
      obtain rfl := Option.some.inj taken
      exact .insert small
    · cases taken
  | insertStep i => exact insertStep_cases taken
  | getSnapshot =>
    obtain rfl := Option.some.inj taken
    exact .getSnapshot
  | snapshotStep j =>
    simp only [step] at taken
    split at taken
    · rename_i version at_
      obtain rfl := Option.some.inj taken
      exact .snapshot at_
    · cases taken
  | dropSnapshot j =>
    simp only [step] at taken
    split at taken
    · rename_i snap inserted at_
      obtain rfl := Option.some.inj taken
      exact .drop at_
    · cases taken
  | get key option =>
    cases option with
    | none =>
      obtain rfl := Option.some.inj taken
      exact .get
    | some j =>
      simp only [step] at taken
      split at taken
      · rename_i snap inserted at_
        obtain rfl := Option.some.inj taken
        exact .getWith at_
      · cases taken
  | getStep j =>
    simp only [step] at taken
    split at taken
    · rename_i g at_
      obtain ⟨phase, next, rfl⟩ := Option.map_eq_some_iff.mp taken
      exact .getStep at_ next
    · cases taken
  | mayCompact from_ r =>
    obtain ⟨store, compacted, rfl⟩ := Option.map_eq_some_iff.mp taken
    exact .mayCompact compacted
  | doGC =>
    obtain rfl := Option.some.inj taken
    exact .doGC

/-- A new database. -/
def State.empty (deps : DiskDeps) : State where
  store := Store.empty
  disk := []
  mem := Memtable.make deps.opt
  memSection := .free
  center := SnapshotCenter.empty
  log := []
  inserts := []
  snapshots := []
  gets := []
  issued := []
  returned := []

/-- An open database without calls: its files are in order and its numbers are used up. -/
def Opened (deps : DiskDeps) (s : State) : Prop :=
  s.store.Good deps ∧ (∀ f ∈ s.store.current, f ∈ s.disk) ∧
  (∀ e ∈ DiskStore.contents deps.table s.store.current, 0 < e.seq ∧ e.seq < s.center.newestUnusedSeq) ∧
  0 < s.center.newestUnusedSeq ∧ s.center.newestUnusedSeq < sequenceNumberModulus ∧
  s.mem = Memtable.make deps.opt ∧ s.memSection = .free ∧
  s.inserts = [] ∧ s.snapshots = [] ∧ s.gets = [] ∧
  s.returned = s.store.current.flatMap (DiskFile.entries deps.table) ∧ s.issued = s.returned

theorem opened_empty (deps : DiskDeps) : Opened deps (State.empty deps) := by
  refine ⟨DiskStore.good_empty deps, ?_, ?_, Nat.one_pos, show 1 < sequenceNumberModulus by decide, rfl, rfl, rfl, rfl, rfl, rfl, rfl⟩
  · simp [State.empty, Store.empty]
  · rintro e ⟨f, hf, -⟩
    simp [State.empty, Store.empty] at hf

def machine (deps : DiskDeps) : Machine State Action where
  init := Opened deps
  step := step deps

/-- The batch that the next step of an insert puts into the memtable. -/
def State.applying (s : State) (i : Nat) : Option WriteBatch :=
  match s.inserts[i]?, s.memSection with
  | some (.inSection b), .held j => if i = j ∧ s.mem.couldFitIn b then some b else none
  | _, _ => none

/-- The memtable whose files the next step of an insert publishes. -/
def State.publishing (s : State) (i : Nat) : Option Memtable :=
  match s.inserts[i]?, s.memSection with
  | some (.inSection _), .flushing j m => if i = j then some m else none
  | _, _ => none

/-- Numbers do not wrap around, values are not empty, a write finds no newer version of its
key in a file, what is flushed and compacted can be read back, and compactions take safe inputs. -/
def InOrder (deps : DiskDeps) (s : State) : Action → Prop
  | .insert b =>
    s.center.newestUnusedSeq + b.count < sequenceNumberModulus ∧ ∀ e ∈ b.entries, e.stored = e
  | .insertStep i =>
    (∀ b ∈ s.applying i, ∀ e ∈ b.entries, ∀ f ∈ s.store.current, ∀ x ∈ f.entries deps.table,
      x.userKey = e.userKey → x.seq < e.seq) ∧
    ∀ m ∈ s.publishing i, DiskStore.FlushFits deps m
  | .get key _ => key.size < 2 ^ 16
  | .mayCompact from_ r => DiskStore.SafeCompaction deps s.store.current from_ r
  | _ => True

instance (deps : DiskDeps) (s : State) : (a : Action) → Decidable (InOrder deps s a)
  | .insert b => inferInstanceAs (Decidable (s.center.newestUnusedSeq + b.count <
      sequenceNumberModulus ∧ ∀ e ∈ b.entries, e.stored = e))
  | .insertStep i => inferInstanceAs (Decidable ((∀ b ∈ s.applying i, ∀ e ∈ b.entries,
      ∀ f ∈ s.store.current, ∀ x ∈ f.entries deps.table, x.userKey = e.userKey → x.seq < e.seq) ∧
        ∀ m ∈ s.publishing i, DiskStore.FlushFits deps m))
  | .get key _ => inferInstanceAs (Decidable (key.size < 2 ^ 16))
  | .mayCompact from_ r =>
    inferInstanceAs (Decidable (DiskStore.SafeCompaction deps s.store.current from_ r))
  | .getSnapshot | .snapshotStep _ | .dropSnapshot _ | .getStep _ | .doGC => isTrue trivial

end FrenzyKV.Calls
