import FrenzyKV.Store.Recovery
import FrenzyKV.Store.SequentialRuns
import FrenzyKV.Store.Sessions
import FrenzyKV.Table.MemtableFilling

namespace FrenzyKV.Sessions

open Bytes Framework SequentialRuns

/-- `db_local::get` without a snapshot, when nothing else runs. -/
def get (deps : KvdbDeps) (db : Database File) (session : Session) (key : UserKey) : Option KvEntry :=
  let skey : SequencedKey := ⟨session.center.leatestUsedSequenceNumber, key⟩
  let result := (session.mem.get skey).or
    (findFromSsts deps.filterPolicy deps.skipListReplaces db.store.current skey)
  result.filter (!·.isTombStone)

/-- The map from keys to values that a database stands for. -/
abbrev Contents := UserKey → Option ByteString

/-- A tombstone takes the key out. -/
def Contents.write (m : Contents) (e : KvEntry) : Contents := Function.update m e.userKey e.value

/-- Of all that happens to a database only insertions change the map. -/
def mapMachine : Machine Contents Action where
  init m := m = fun _ => none
  step m
    | .insert b => some (b.entries.foldl Contents.write m)
    | .init | .mayCompact _ _ | .close | .crash => some m

/-- A log that is replayed fits into one memtable, and no empty value is written. -/
def Replayable {φ : Type} (deps : KvdbDeps) (s : State φ) : Action → Prop
  | .init => s.db.log.length ≤ deps.opt.memoryPageBytes
  | .insert b => ∀ e ∈ b.entries, e.stored = e
  | .mayCompact _ _ | .close | .crash => True

/-- The inputs of the compaction behind a recovery are safe. -/
def SafeRecovery (deps : KvdbDeps) (db : Database File) : Prop :=
  db.log = [] ∨ ∀ recovered ∈ recover db.log,
    ∀ store ∈ flushToDisk deps db.store (recoveredMemtable deps recovered.1),
      PullOk deps store (.mayCompact 0 1)

/-- The inputs of the compaction, if the step makes one, are safe. -/
def SafeInputs (deps : KvdbDeps) (s : State File) : Action → Prop
  | .init => SafeRecovery deps s.db
  | .mayCompact from_ r => PullOk deps s.db.store (.mayCompact from_ r)
  | .close => ∀ session ∈ s.session, session.mem.isEmpty = true ∨
      ∀ store ∈ flushToDisk deps s.db.store session.mem, PullOk deps store (.mayCompact 0 1)
  | .insert _ | .crash => True

def Lasting (deps : KvdbDeps) (s : State File) (a : Action) : Prop :=
  Careful s a ∧ Replayable deps s a ∧ SafeInputs deps s a

instance {φ : Type} (deps : KvdbDeps) (s : State φ) : (a : Action) → Decidable (Replayable deps s a)
  | .init => inferInstanceAs (Decidable (s.db.log.length ≤ deps.opt.memoryPageBytes))
  | .insert b => inferInstanceAs (Decidable (∀ e ∈ b.entries, e.stored = e))
  | .mayCompact _ _ | .close | .crash => isTrue trivial

/-- The entries in the files and in the log. -/
def durableContents (db : Database File) (logged : List KvEntry) : Set KvEntry :=
  db.store.current.contents ∪ {e | e ∈ logged}

/-- Files and log together stand for the map `m`. -/
structure Stands (deps : KvdbDeps) (db : Database File) (logged : List KvEntry) (m : Contents) : Prop where
  good : db.store.Good deps
  unique : ∀ x ∈ durableContents db logged, ∀ y ∈ durableContents db logged, x.key = y.key → x = y
  represents : Represents (durableContents db logged) m

/-- What of the log is in the memtable, and what is not there any more. -/
structure Buffers (deps : KvdbDeps) (db : Database File) (mem : Memtable) (logged : List KvEntry) :
    Prop where
  bound : mem.boundSizeBytes = deps.opt.memoryPageBytes
  size : mem.sizeBytes ≤ db.log.length
  inLog : ∀ e ∈ mem.storage, e ∈ logged
  newer : Newer mem.contents db.store.current.contents
  covers : Covers (db.store.current.contents ∪ mem.contents) {e | e ∈ logged}
  -- as long as the log fits into one memtable, no memtable was flushed
  whole : db.log.length ≤ deps.opt.memoryPageBytes → ∀ e ∈ logged, e ∈ mem.storage

/-- A log that can be replayed is newer than the files. -/
def Separated (deps : KvdbDeps) (db : Database File) (logged : List KvEntry) : Prop :=
  db.log.length ≤ deps.opt.memoryPageBytes → Newer {e | e ∈ logged} db.store.current.contents

/-- `m` is what the database stands for. -/
def Related (deps : KvdbDeps) (m : Contents) (s : State File) : Prop :=
  ∃ logged, Durable deps s.db s.written logged ∧ Stands deps s.db logged m ∧
    match s.session with
    | none => Recoverable s.db logged ∧ Separated deps s.db logged
    | some session => Opened s.db session s.recovered s.written logged ∧
        Buffers deps s.db session.mem logged

section Lemmas

variable {deps : KvdbDeps} {db db' : Database File} {session session' : Session} {mem : Memtable}
  {recovered : Bool} {written : Nat} {logged logged' : List KvEntry} {b : WriteBatch}
  {store last : Store File} {m : Contents}

/-- A log holds only one list of entries. -/
theorem Durable.logged_eq (durable : Durable deps db written logged)
    (wf : ∀ e ∈ logged', e.WellFormed) (log : db.log = logged'.flatMap KvEntry.serialize) :
    logged' = logged := by
  by_cases nothing : logged' = []
  · subst nothing
    exact (durable.log_eq_nil.mp log).symm
  · have first := recover_serialize wf nothing
    rw [← log] at first
    by_cases empty : logged = []
    · exact absurd (durable.log_eq_nil.mpr empty) fun nil => by
        rw [nil] at first
        exact nothing (congrArg (fun r => r.1.entries) (Option.some.inj first)).symm
    · rw [durable.log, recover_serialize durable.wf empty] at first
      exact (congrArg (fun r => r.1.entries) (Option.some.inj first)).symm

theorem Stands.of_eq (stands : Stands deps db logged m) (good : db'.store.Good deps)
    (same : durableContents db' logged' = durableContents db logged) : Stands deps db' logged' m :=
  ⟨good, same ▸ stands.unique, same ▸ stands.represents⟩

/-- What is dropped must have a version that is at least as new. -/
theorem Stands.of_covers (stands : Stands deps db logged m) (good : db'.store.Good deps)
    (sub : durableContents db' logged' ⊆ durableContents db logged)
    (cover : Covers (durableContents db' logged') (durableContents db logged)) :
    Stands deps db' logged' m := by
  refine ⟨good, fun x hx y hy => stands.unique x (sub hx) y (sub hy), ?_⟩
  refine (Versioned.represents_iff_of_covers sub cover fun x hx y hy key seq => ?_).mpr stands.represents
  exact stands.unique x hx y hy (KvEntry.key_eq key seq)

/-- A flush writes the entries of the memtable as they are in the log. -/
theorem mem_flushToDisk (wf : ∀ e ∈ logged, e.WellFormed)
    (inLog : ∀ e ∈ mem.storage, e ∈ logged) (flushed : flushToDisk deps db.store mem = some store)
    (e : KvEntry) : e ∈ store.current.contents ↔ e ∈ db.store.current.contents ∪ mem.contents := by
  have same : mem.storage.map KvEntry.stored = mem.storage :=
    List.map_congr_left (fun e he => (wf e (inLog e he)).value) |>.trans (List.map_id _)
  rw [contents_flushToDisk flushed e, same]
  rfl

/-- Files and memtable stand for the map: all that the log has beyond them is older. -/
theorem Buffers.represents (buffers : Buffers deps db mem logged) (stands : Stands deps db logged m) :
    Represents (db.store.current.contents ∪ mem.contents) m := by
  have parts : db.store.current.contents ∪ mem.contents ⊆ durableContents db logged :=
    Set.union_subset_union_right _ buffers.inLog
  refine (Versioned.represents_iff_of_covers parts ?_ fun x hx y hy key seq =>
    stands.unique x hx y hy (KvEntry.key_eq key seq)).mpr stands.represents
  rintro x (stored | inLog)
  · exact ⟨x, Or.inl stored, rfl, le_rfl⟩
  · exact buffers.covers x inLog

/-- The memtable is searched before the files, which are older. -/
theorem search_newest {k : SequencedKey} (good : store.Good deps)
    (newer : Newer mem.contents store.current.contents)
    (top : ∀ x ∈ store.current.contents ∪ mem.contents, x.seq ≤ k.seq) :
    let result := (mem.get k).or
      (findFromSsts deps.filterPolicy deps.skipListReplaces store.current k)
    (∀ e, result = some e → IsNewest (store.current.contents ∪ mem.contents) k.userKey e) ∧
      (result = none → ∀ x ∈ store.current.contents ∪ mem.contents, x.userKey ≠ k.userKey) := by
  intro result
  have files := good.findFromSsts_eq deps.skipListReplaces fun x hx _ => top x (Or.inl hx)
  cases inMem : mem.get k with
  | some e =>
    have hit : result = some e := congrArg (Option.or · _) inMem
    obtain ⟨inside, same, -, newest⟩ := Memtable.get_eq_some inMem
    refine ⟨fun x found => ?_, fun missed => absurd (hit.symm.trans missed) (Option.some_ne_none e)⟩
    obtain rfl := Option.some.inj (hit.symm.trans found)
    refine ⟨Or.inr inside, same, ?_⟩
    rintro y (stored | buffered) sameKey
    · exact (newer e inside y stored (same.trans sameKey.symm)).le
    · exact newest y buffered sameKey (top y (Or.inr buffered))
  | none =>
    have hit : result = newestOfAllFiles .tables store.current k.userKey :=
      (congrArg (Option.or · _) inMem).trans files
    have absent : ∀ x ∈ mem.contents, x.userKey ≠ k.userKey := fun x hx same =>
      absurd (Memtable.get_eq_none inMem x hx same) (not_lt.mpr (top x (Or.inr hx)))
    rw [hit]
    constructor
    · intro e found
      obtain ⟨inside, same, newest⟩ := newestOfAllFiles_eq_some found
      refine ⟨Or.inl inside, same, ?_⟩
      rintro y (stored | buffered) sameKey
      · exact newest y stored sameKey
      · exact absurd sameKey (absent y buffered)
    · rintro missed y (stored | buffered)
      · exact newestOfAllFiles_eq_none missed y stored
      · exact absent y buffered

theorem bind_value_of_filter (result : Option KvEntry) :
    (result.filter (!·.isTombStone)).bind KvEntry.value = result.bind KvEntry.value := by
  cases result with
  | none => rfl
  | some e => cases value : e.value <;> simp [Option.filter, KvEntry.isTombStone, value]

/-- Reads see the newest entry of the key. -/
theorem get_bind_value (durable : Durable deps db written logged)
    (opened : Opened db session recovered written logged) (stands : Stands deps db logged m)
    (buffers : Buffers deps db session.mem logged) (key : UserKey) :
    (get deps db session key).bind KvEntry.value = m key := by
  have low := opened.counter
  have few := durable.few
  have used := SnapshotCenter.leatestUsed_of_pos opened.positive (show _ < 2 ^ 32 by omega)
  have top : ∀ x ∈ db.store.current.contents ∪ session.mem.contents,
      x.seq ≤ session.center.leatestUsedSequenceNumber := by
    rintro x (stored | buffered)
    · have := opened.stored x stored
      omega
    · have := opened.inLog x (buffers.inLog x buffered)
      omega
  obtain ⟨found, missed⟩ :=
    @search_newest _ _ _ ⟨session.center.leatestUsedSequenceNumber, key⟩ stands.good buffers.newer top
  rw [get, bind_value_of_filter]
  exact (buffers.represents stands).eq_bind found missed

theorem durableContents_nil (db : Database File) : durableContents db [] = db.store.current.contents := by
  rw [durableContents]
  exact Set.union_eq_left.mpr fun e mem => absurd mem List.not_mem_nil

/-- A new memtable for an empty log. -/
theorem buffers_make (deps : KvdbDeps) (db : Database File) : Buffers deps db (Memtable.make deps.opt) [] where
  bound := rfl
  size := Nat.zero_le _
  inLog _ mem := mem
  newer _ mem := absurd mem List.not_mem_nil
  covers _ mem := absurd mem List.not_mem_nil
  whole _ _ mem := mem

/-- Flushing a log and compacting behind it drops only entries that have a version at least as new. -/
theorem flush_keeps (good : db.store.Good deps) (wf : ∀ e ∈ logged, e.WellFormed)
    (inLog : ∀ e ∈ mem.storage, e ∈ logged) (newer : Newer mem.contents db.store.current.contents)
    (covers : Covers (db.store.current.contents ∪ mem.contents) {e | e ∈ logged})
    (flushed : flushToDisk deps db.store mem = some store) (safe : PullOk deps store (.mayCompact 0 1))
    (compacted : FrenzyKV.mayCompact deps store 0 1 = some last) :
    last.Good deps ∧ last.current.contents ⊆ durableContents db logged ∧
      Covers last.current.contents (durableContents db logged) := by
  have good := good.flush newer flushed
  obtain ⟨fewer, kept⟩ := good.toSound.mayCompact_contents compacted
  have written := Set.ext (mem_flushToDisk wf inLog flushed)
  refine ⟨good.mayCompact safe compacted, fun e he => ?_, kept.trans (written ▸ ?_)⟩
  · rcases written ▸ fewer he with stored | buffered
    · exact Or.inl stored
    · exact Or.inr (inLog e buffered)
  · rintro e (stored | logged)
    · exact ⟨e, Or.inl stored, rfl, le_rfl⟩
    · exact covers e logged

/-- `init` moves the log into the files. -/
theorem init_keeps (good : db.store.Good deps) (wf : ∀ e ∈ logged, e.WellFormed)
    (log : db.log = logged.flatMap KvEntry.serialize)
    (unique : ∀ x ∈ logged, ∀ y ∈ logged, x.key = y.key → x = y) (separated : Separated deps db logged)
    (fits : db.log.length ≤ deps.opt.memoryPageBytes) (safe : SafeRecovery deps db)
    (opened : FrenzyKV.init deps db = some (db', session)) :
    session.mem = Memtable.make deps.opt ∧ db'.log = [] ∧ db'.store.Good deps ∧
      db'.store.current.contents ⊆ durableContents db logged ∧
        Covers db'.store.current.contents (durableContents db logged) := by
  rcases init_cases opened with ⟨empty, rfl, rfl⟩ |
    ⟨batch, maxSeq, store, last, nonempty, recovered, flushed, compacted, rfl, rfl⟩
  · have nothing : logged = [] := by
      by_contra some_
      obtain ⟨_, -, written⟩ := Recovery.recover_log wf some_ log
      rw [empty] at written
      cases written
    rw [nothing, durableContents_nil]
    exact ⟨rfl, empty, good, subset_rfl, Versioned.Covers.refl _⟩
  · have safe := safe.resolve_left nonempty _ recovered store flushed
    have nothing : logged ≠ [] := by
      rintro rfl
      exact nonempty log
    rw [log, recover_serialize wf nothing] at recovered
    obtain ⟨rfl, rfl⟩ := Prod.mk.inj (Option.some.inj recovered)
    have size : (WriteBatch.mk 0 logged).serializedSize ≤ deps.opt.memoryPageBytes :=
      (Recovery.serializedSize_eq log).trans_le fits
    have replayed : ∀ e, e ∈ (recoveredMemtable deps ⟨0, logged⟩).storage ↔ e ∈ logged :=
      fun e => mem_recoveredMemtable_iff size unique
    have inLog : ∀ e ∈ (recoveredMemtable deps ⟨0, logged⟩).storage, e ∈ logged :=
      fun e => (replayed e).mp
    refine ⟨rfl, rfl, flush_keeps good wf inLog ((separated fits).mono inLog subset_rfl) ?_ flushed safe
      compacted⟩
    exact fun e he => ⟨e, Or.inr ((replayed e).mpr he), rfl, le_rfl⟩

theorem stands_of_init (durable : Durable deps db written logged) (stands : Stands deps db logged m)
    (separated : Separated deps db logged) (fits : db.log.length ≤ deps.opt.memoryPageBytes)
    (safe : SafeRecovery deps db) (opened : FrenzyKV.init deps db = some (db', session))
    (durable' : Durable deps db' written logged') :
    Stands deps db' logged' m ∧ Buffers deps db' session.mem logged' := by
  have unique : ∀ x ∈ logged, ∀ y ∈ logged, x.key = y.key → x = y :=
    fun x hx y hy => stands.unique x (Or.inr hx) y (Or.inr hy)
  obtain ⟨mem, log, good, sub, cover⟩ :=
    init_keeps stands.good durable.wf durable.log unique separated fits safe opened
  obtain rfl := durable'.log_eq_nil.mp log
  exact ⟨stands.of_covers good (durableContents_nil db' ▸ sub) (durableContents_nil db' ▸ cover),
    mem ▸ buffers_make deps db'⟩

theorem stands_of_mayCompact (stands : Stands deps db logged m)
    (buffers : Buffers deps db mem logged) {from_ : Nat} {r : ThreshRatio}
    (safe : PullOk deps db.store (.mayCompact from_ r))
    (compacted : FrenzyKV.mayCompact deps db.store from_ r = some store) :
    Stands deps { db with store } logged m ∧ Buffers deps { db with store } mem logged := by
  obtain ⟨fewer, kept⟩ := stands.good.toSound.mayCompact_contents compacted
  have grown : ∀ A : Set KvEntry, Covers (store.current.contents ∪ A) (db.store.current.contents ∪ A) := by
    rintro A x (stored | other)
    · obtain ⟨y, hy, rel⟩ := kept x stored
      exact ⟨y, Or.inl hy, rel⟩
    · exact ⟨x, Or.inr other, rfl, le_rfl⟩
  constructor
  · exact stands.of_covers (stands.good.mayCompact safe compacted)
      (Set.union_subset_union_left _ fewer) (grown _)
  · exact { buffers with
      newer := buffers.newer.mono subset_rfl fewer
      covers := (grown _).trans buffers.covers }

theorem separated_of_buffers (buffers : Buffers deps db mem logged) : Separated deps db logged :=
  fun fits => buffers.newer.mono (buffers.whole fits) subset_rfl

theorem stands_of_close (durable : Durable deps db written logged) (stands : Stands deps db logged m)
    (buffers : Buffers deps db session.mem logged)
    (safe : session.mem.isEmpty = true ∨
      ∀ store ∈ flushToDisk deps db.store session.mem, PullOk deps store (.mayCompact 0 1))
    (closed : FrenzyKV.close deps db session = some db') (durable' : Durable deps db' written logged') :
    Stands deps db' logged' m ∧ Separated deps db' logged' := by
  rcases close_cases closed with ⟨-, rfl⟩ | ⟨filled, store, last, flushed, compacted, rfl⟩
  · obtain rfl := durable.logged_eq durable'.wf durable'.log
    exact ⟨stands, separated_of_buffers buffers⟩
  · obtain rfl := durable'.log_eq_nil.mp rfl
    obtain ⟨good, sub, cover⟩ := flush_keeps stands.good durable.wf buffers.inLog buffers.newer
      buffers.covers flushed (safe.resolve_left filled store flushed) compacted
    refine ⟨stands.of_covers good ?_ ?_, fun _ _ mem => absurd mem List.not_mem_nil⟩
    · rw [durableContents_nil]
      exact sub
    · rw [durableContents_nil]
      exact cover

/-- What an insertion does to the log, the files and the memtable: the memtable is flushed when the
batch does not fit. -/
theorem insert_spec (inserted : FrenzyKV.insert deps db session b = some (db', session')) :
    let numbered := b.setFirstSequenceNum session.center.newestUnusedSeq
    db'.log = appendToLog db.log numbered ∧
      ∃ mem, session'.mem = numbered.entries.foldl (Memtable.insertEntry deps.skipListReplaces) mem ∧
        (db'.store = db.store ∧ mem = session.mem ∨
          session.mem.couldFitIn numbered = false ∧
            flushToDisk deps db.store session.mem = some db'.store ∧ mem = Memtable.make deps.opt) := by
  intro numbered
  rw [FrenzyKV.insert] at inserted
  cases room : session.mem.couldFitIn numbered with
  | true =>
    simp only [Memtable.insert, numbered, room, if_true] at inserted
    obtain ⟨rfl, rfl⟩ := Prod.mk.inj (Option.some.inj inserted)
    exact ⟨rfl, session.mem, rfl, Or.inl ⟨rfl, rfl⟩⟩
  | false =>
    have full : session.mem.insert deps.skipListReplaces numbered = none := by
      rw [Memtable.insert, room]
      rfl
    simp only [numbered] at full
    simp only [full] at inserted
    obtain ⟨store, flushed, rest⟩ := Option.bind_eq_some_iff.mp inserted
    obtain ⟨mem, fits, eq⟩ := Option.map_eq_some_iff.mp rest
    obtain ⟨rfl, rfl⟩ := Prod.mk.inj eq
    obtain ⟨-, taken⟩ := Option.ite_none_right_eq_some.mp fits
    exact ⟨rfl, _, (Option.some.inj taken).symm, Or.inr ⟨rfl, flushed, rfl⟩⟩

/-- Before the batch goes in, its memtable buffers the old log; the flush, if there was one, made the
log too large for one memtable. -/
theorem buffers_before_insert (durable : Durable deps db written logged)
    (stands : Stands deps db logged m) (buffers : Buffers deps db session.mem logged)
    (log : db'.log = appendToLog db.log b)
    (before : db'.store = db.store ∧ mem = session.mem ∨
      session.mem.couldFitIn b = false ∧ flushToDisk deps db.store session.mem = some db'.store ∧
        mem = Memtable.make deps.opt) :
    Stands deps db' logged m ∧ Buffers deps db' mem logged ∧ mem.sizeBytes ≤ db.log.length := by
  have longer : db'.log.length = db.log.length + b.serializedSize := by
    rw [log, appendToLog, List.length_append, length_flatMap_serialize]
    rfl
  rcases before with ⟨files, rfl⟩ | ⟨full, flushed, rfl⟩
  · refine ⟨stands.of_eq (files ▸ stands.good) ?_, ?_, buffers.size⟩
    · rw [durableContents, files]
      rfl
    · constructor
      case bound => exact buffers.bound
      case size => exact buffers.size.trans (longer ▸ Nat.le_add_right _ _)
      case inLog => exact buffers.inLog
      case newer => exact files ▸ buffers.newer
      case covers => exact files ▸ buffers.covers
      case whole => exact fun fits => buffers.whole (by omega)
  · have written := Set.ext (mem_flushToDisk durable.wf buffers.inLog flushed)
    refine ⟨stands.of_eq (stands.good.flush buffers.newer flushed) ?_, ?_, Nat.zero_le _⟩
    · rw [durableContents, written, Set.union_assoc]
      exact congrArg _ (Set.union_eq_right.mpr buffers.inLog)
    · constructor
      case bound => rfl
      case size => exact Nat.zero_le _
      case inLog => exact fun e mem => absurd mem List.not_mem_nil
      case newer => exact fun e mem => absurd mem List.not_mem_nil
      case covers => exact (written ▸ buffers.covers).mono Set.subset_union_left
      case whole =>
        intro fits
        have size := buffers.size
        have bound := buffers.bound
        have tooLarge := of_decide_eq_false full
        omega

/-- Entries with larger numbers keep keys and numbers apart. -/
theorem unique_union {A : Set KvEntry} {es : List KvEntry}
    (unique : ∀ x ∈ A, ∀ y ∈ A, x.key = y.key → x = y) (above : ∀ e ∈ es, ∀ x ∈ A, x.seq < e.seq)
    (ascending : es.Pairwise (·.seq < ·.seq)) :
    ∀ x ∈ A ∪ {e | e ∈ es}, ∀ y ∈ A ∪ {e | e ∈ es}, x.key = y.key → x = y := by
  have own : ∀ x ∈ es, ∀ y ∈ es, x.key = y.key → x = y := by
    intro x hx y hy same
    by_contra ne
    have symm : Std.Symm fun x y : KvEntry => x.seq ≠ y.seq := ⟨fun _ _ h => h.symm⟩
    have distinct : es.Pairwise (·.seq ≠ ·.seq) := ascending.imp fun lt => lt.ne
    exact List.Pairwise.forall distinct hx hy ne (congrArg SequencedKey.seq same)
  rintro x (oldX | newX) y (oldY | newY) same
  · exact unique x oldX y oldY same
  · exact absurd (congrArg SequencedKey.seq same) (above y newY x oldX).ne
  · exact absurd (congrArg SequencedKey.seq same) (above x newX y oldY).ne'
  · exact own x newX y newY same

/-- A batch with larger numbers goes into the memtable. -/
theorem stands_of_batch (stands : Stands deps db logged m) (buffers : Buffers deps db mem logged)
    (size : mem.sizeBytes + b.serializedSize ≤ db.log.length)
    (above : ∀ e ∈ b.entries, ∀ x ∈ durableContents db logged, x.seq < e.seq)
    (ascending : b.entries.Pairwise (·.seq < ·.seq)) :
    Stands deps db (logged ++ b.entries) (b.entries.foldl Contents.write m) ∧
      Buffers deps db (b.entries.foldl (Memtable.insertEntry deps.skipListReplaces) mem)
        (logged ++ b.entries) := by
  have grown : durableContents db (logged ++ b.entries) =
      durableContents db logged ∪ {e | e ∈ b.entries} := by
    ext e
    simp only [durableContents, Set.mem_union, Set.mem_ofPred_eq, List.mem_append, or_assoc]
  have unique := unique_union stands.unique above ascending
  have added : ∀ e, e ∈ (b.entries.foldl (Memtable.insertEntry deps.skipListReplaces) mem).storage ↔
      e ∈ b.entries ∨ e ∈ mem.storage := by
    have inside : ∀ x, x ∈ b.entries ∨ x ∈ mem.storage →
        x ∈ durableContents db logged ∪ {e | e ∈ b.entries} := by
      rintro x (new | old)
      · exact Or.inr new
      · exact Or.inl (Or.inr (buffers.inLog x old))
    intro e
    exact Memtable.mem_foldl_insertEntry_iff fun x y hx hy => unique x (inside x hx) y (inside y hy)
  constructor
  · refine ⟨stands.good, grown ▸ unique, grown ▸ ?_⟩
    exact Versioned.Represents.foldl_update stands.represents (fun e he x hx _ => above e he x hx) ascending
  · constructor
    case bound => exact (MemtableFilling.boundSizeBytes_foldl_insertEntry mem b.entries).trans buffers.bound
    case size =>
      rw [Memtable.foldl_insertEntry_sizeBytes]
      exact size
    case inLog =>
      intro e he
      cases (added e).mp he with
      | inl new => exact List.mem_append_right _ new
      | inr old => exact List.mem_append_left _ (buffers.inLog e old)
    case newer =>
      intro e he x hx same
      cases (added e).mp he with
      | inl new => exact above e new x (Or.inl hx)
      | inr old => exact buffers.newer e old x hx same
    case covers =>
      intro e he
      cases List.mem_append.mp he with
      | inl old =>
        obtain ⟨x, hx, rel⟩ := buffers.covers e old
        exact ⟨x, hx.imp_right fun here => (added x).mpr (Or.inr here), rel⟩
      | inr new => exact ⟨e, Or.inr ((added e).mpr (Or.inl new)), rfl, le_rfl⟩
    case whole =>
      intro fits e he
      cases List.mem_append.mp he with
      | inl old => exact (added e).mpr (Or.inr (buffers.whole fits e old))
      | inr new => exact (added e).mpr (Or.inl new)

/-- The numbers of a batch do not matter to the map. -/
theorem foldl_write_numbered (num : Nat) (es : List KvEntry) (m : Contents) :
    (WriteBatch.numbered num es).foldl Contents.write m = es.foldl Contents.write m := by
  induction es generalizing num m with
  | nil => rfl
  | cons e es ih => exact ih (num + 1) (m.write e)

theorem stands_of_insert (durable : Durable deps db written logged)
    (opened : Opened db session recovered written logged) (stands : Stands deps db logged m)
    (buffers : Buffers deps db session.mem logged) (few : written + b.count < 2 ^ 32 - 1)
    (fits : ∀ e ∈ b.entries, e.FitsFields) (whole : ∀ e ∈ b.entries, e.stored = e)
    (inserted : FrenzyKV.insert deps db session b = some (db', session'))
    (durable' : Durable deps db' (written + b.count) logged') :
    Stands deps db' logged' (b.entries.foldl Contents.write m) ∧ Buffers deps db' session'.mem logged' := by
  let numbered := b.setFirstSequenceNum session.center.newestUnusedSeq
  obtain ⟨log, mem, filled, before⟩ := insert_spec inserted
  have new := insert_logged opened few fits
  have same : numbered.entries.map KvEntry.stored = numbered.entries :=
    (List.map_congr_left fun e he => WriteBatch.stored_of_mem_numbered whole he).trans (List.map_id _)
  have logged_eq : logged ++ numbered.entries = logged' := by
    refine durable'.logged_eq ?_ ?_
    · refine List.forall_mem_append.mpr ⟨durable.wf, fun e he => (new e ?_).1⟩
      rw [same]
      exact he
    · rw [log, appendToLog, durable.log, List.flatMap_append]
  have low := opened.counter
  have room : session.center.newestUnusedSeq + b.entries.length ≤ sequenceNumberModulus :=
    show _ + b.count ≤ 2 ^ 32 by omega
  have below : ∀ x ∈ durableContents db logged, x.seq < session.center.newestUnusedSeq := by
    rintro x (stored | inLog)
    · exact opened.stored x stored
    · exact opened.inLog x inLog
  have numbers : ∀ e ∈ numbered.entries, session.center.newestUnusedSeq ≤ e.seq :=
    fun e he => (WriteBatch.seq_of_mem_numbered room he).1
  obtain ⟨stands', buffers', size⟩ := buffers_before_insert durable stands buffers log before
  have longer : mem.sizeBytes + numbered.serializedSize ≤ db'.log.length := by
    rw [log, appendToLog, List.length_append, length_flatMap_serialize]
    exact Nat.add_le_add_right size _
  have kept : durableContents db' logged ⊆ durableContents db logged := by
    rintro x (stored | inLog)
    · rcases before with ⟨files, -⟩ | ⟨-, flushed, -⟩
      · exact Or.inl (files ▸ stored)
      · exact ((mem_flushToDisk durable.wf buffers.inLog flushed x).mp stored).imp_right (buffers.inLog x)
    · exact Or.inr inLog
  have both := stands_of_batch stands' buffers' longer
    (fun e he x hx => (below x (kept hx)).trans_le (numbers e he)) (WriteBatch.numbered_seq_injective room)
  rw [filled, ← logged_eq, ← foldl_write_numbered session.center.newestUnusedSeq b.entries m]
  exact both

end Lemmas

variable {deps : KvdbDeps} {s s' : State File} {m : Contents}

/-- Each step changes what the database stands for as it changes the map. -/
theorem related_step (related : Related deps m s) {a : Action} (lasting : Lasting deps s a)
    (taken : step deps s a = some s') : ∃ m', mapMachine.step m a = some m' ∧ Related deps m' s' := by
  obtain ⟨logged, durable, stands, rest⟩ := related
  obtain ⟨careful, replayable, safe⟩ := lasting
  cases a with
  | init =>
    rw [step] at taken
    cases session : s.session with
    | some _ => simp [session] at taken
    | none =>
      simp only [session] at taken rest
      obtain ⟨⟨db, session⟩, opened, rfl⟩ := Option.map_eq_some_iff.mp taken
      obtain ⟨logged', durable', opened'⟩ := opened_of_init durable rest.1 opened
      obtain ⟨stands', buffers'⟩ := stands_of_init durable stands rest.2 replayable safe opened durable'
      exact ⟨m, rfl, logged', durable', stands', opened', buffers'⟩
  | insert b =>
    obtain ⟨session, open_, taken⟩ := Option.bind_eq_some_iff.mp taken
    obtain ⟨⟨db, session'⟩, inserted, rfl⟩ := Option.map_eq_some_iff.mp taken
    rw [open_] at rest
    obtain ⟨opened, buffers⟩ := rest
    obtain ⟨few, fits⟩ := careful.1
    obtain ⟨logged', durable', opened'⟩ := opened_of_insert durable opened few fits inserted
    obtain ⟨stands', buffers'⟩ :=
      stands_of_insert durable opened stands buffers few fits replayable inserted durable'
    exact ⟨_, rfl, logged', durable', stands', opened', buffers'⟩
  | mayCompact from_ r =>
    obtain ⟨session, open_, taken⟩ := Option.bind_eq_some_iff.mp taken
    obtain ⟨store, compacted, rfl⟩ := Option.map_eq_some_iff.mp taken
    rw [open_] at rest
    obtain ⟨durable', opened'⟩ := opened_of_mayCompact durable rest.1 compacted
    obtain ⟨stands', buffers'⟩ := stands_of_mayCompact stands rest.2 safe compacted
    exact ⟨m, rfl, logged, durable', stands', by simpa only [open_] using ⟨opened', buffers'⟩⟩
  | close =>
    obtain ⟨session, open_, taken⟩ := Option.bind_eq_some_iff.mp taken
    obtain ⟨db, closed, rfl⟩ := Option.map_eq_some_iff.mp taken
    rw [open_] at rest
    obtain ⟨logged', durable', recoverable⟩ := recoverable_of_close durable rest.1 careful.2 closed
    obtain ⟨stands', separated⟩ :=
      stands_of_close durable stands rest.2 (safe session open_) closed durable'
    exact ⟨m, rfl, logged', durable', stands', recoverable, separated⟩
  | crash =>
    obtain ⟨session, open_, rfl⟩ := Option.map_eq_some_iff.mp taken
    rw [open_] at rest
    exact ⟨m, rfl, logged, durable, stands, recoverable_of_crash durable rest.1 careful.2,
      separated_of_buffers rest.2⟩

theorem related_start (deps : KvdbDeps) :
    Related deps (fun _ => none) ⟨Database.empty, none, false, 0⟩ := by
  have nothing : ∀ e, e ∉ durableContents Database.empty [] := by
    rintro e (⟨f, hf, -⟩ | logged)
    · exact absurd hf List.not_mem_nil
    · exact absurd logged List.not_mem_nil
  refine ⟨[], ⟨rfl, by simp, Store.sound_empty deps, by simp, Nat.le_refl 0, by decide⟩, ?_, ?_, ?_⟩
  · refine ⟨Store.good_empty deps, fun x hx => absurd hx (nothing x), fun k => ⟨fun e newest => ?_, ?_⟩⟩
    · exact absurd newest.1 (nothing e)
    · exact fun _ => rfl
  · exact fun e he => absurd (Or.inl he) (nothing e)
  · exact fun _ e mem => absurd mem List.not_mem_nil

end FrenzyKV.Sessions
