import FrenzyKV.Store.CallLog
import FrenzyKV.Store.DiskSessions
import FrenzyKV.Store.ReadYourWrites

namespace FrenzyKV.CallSessions

open Bytes Framework SequentialRuns
open Sessions (durableContents Recoverable Separated)

inductive Phase where
  | closed (db : DiskDatabase)
  -- the sequence number file keeps its bytes while the database is open
  | opened (s : Calls.State) (seqnum : ByteString)

/-- `issued` and `returned` are ghosts: the entries of the inserts of all sessions, and those of the
inserts that had returned in the sessions before. -/
structure State where
  phase : Phase
  issued : List KvEntry
  returned : List KvEntry

inductive Action where
  | init
  | call (a : Calls.Action)
  | close
  | crash

/-- The calls of the open database. -/
def State.session (st : State) : Option Calls.State :=
  match st.phase with
  | .closed _ => none
  | .opened s _ => some s

/-- A session at its start. -/
def start (deps : DiskDeps) (db : DiskDatabase) (session : Session) : Calls.State where
  store := db.store
  disk := db.store.current
  mem := session.mem
  memSection := .free
  center := session.center
  log := []
  inserts := []
  snapshots := []
  gets := []
  issued := db.store.current.flatMap (DiskFile.entries deps.table)
  returned := db.store.current.flatMap (DiskFile.entries deps.table)

/-- What a session leaves behind when it stops. -/
def database (s : Calls.State) (seqnum : ByteString) : DiskDatabase := ⟨s.logBytes, s.store, seqnum⟩

/-- The entries that get their numbers in a step. -/
def numbered (s : Calls.State) : Calls.Action → List KvEntry
  | .insert b => (b.setFirstSequenceNum s.center.newestUnusedSeq).entries
  | _ => []

def isReturned : Calls.InsertPhase → Bool
  | .returned => true
  | _ => false

def isFree : Calls.MemSection → Bool
  | .free => true
  | _ => false

def step (deps : DiskDeps) (st : State) : Action → Option State
  | .init => match st.phase with
    | .closed db => (DiskDatabase.init deps db).map fun done =>
        { st with phase := .opened (start deps done.1 done.2) done.1.seqnum }
    | .opened _ _ => none
  | .call a => match st.phase with
    | .opened s seqnum => (Calls.step deps s a).map fun s' =>
        { st with phase := .opened s' seqnum, issued := st.issued ++ numbered s a }
    | .closed _ => none
  | .close => match st.phase with
    | .opened s seqnum =>
      -- an insert that goes on after this finds no memtable
      if isFree s.memSection && s.inserts.all isReturned then
        (DiskDatabase.close deps (database s seqnum) ⟨s.mem, s.center⟩).map fun db =>
          { st with phase := .closed db, returned := st.returned ++ s.returned }
      else none
    | .closed _ => none
  | .crash => match st.phase with
    | .opened s seqnum =>
      some { st with phase := .closed (database s seqnum), returned := st.returned ++ s.returned }
    | .closed _ => none

def machine (deps : DiskDeps) : Machine State Action where
  init st := st = ⟨.closed Database.empty, [], []⟩
  step := step deps

/-- The log or the sequence number file tells the next session which numbers are in use. -/
def NumbersKept (deps : DiskDeps) (s : Calls.State) (seqnum : ByteString) : Prop :=
  s.log ≠ [] ∨
    ∀ f ∈ s.store.current, ∀ e ∈ f.entries deps.table, e.seq ≤ getLeatestSequenceNumber seqnum

/-- What a close flushes can be read back, and its compaction is safe. -/
def SafeClose (deps : DiskDeps) (s : Calls.State) : Prop :=
  s.mem.isEmpty = true ∨ DiskStore.SafeFlush deps s.store s.mem

/-- Steps of calls are in order, logs that are replayed fit into one memtable, recoveries and closes
write what can be read back, and a session ends only when the next one can find its numbers. -/
def Lasting (deps : DiskDeps) (st : State) (a : Action) : Prop :=
  match st.phase, a with
  | .closed db, .init => db.log.length ≤ deps.opt.memoryPageBytes ∧ DiskDatabase.SafeRecovery deps db
  | .opened s _, .call a => Calls.InOrder deps s a ∧ Calls.SeenStays s a ∧ Calls.Writable a
  | .opened s seqnum, .close => NumbersKept deps s seqnum ∧ SafeClose deps s
  | .opened s seqnum, .crash => NumbersKept deps s seqnum
  | _, _ => True

instance (deps : DiskDeps) (s : Calls.State) (seqnum : ByteString) : Decidable (NumbersKept deps s seqnum) :=
  inferInstanceAs (Decidable (_ ∨ _))

instance (deps : DiskDeps) (s : Calls.State) : Decidable (SafeClose deps s) :=
  inferInstanceAs (Decidable (_ ∨ _))

instance (deps : DiskDeps) : (st : State) → (a : Action) → Decidable (Lasting deps st a)
  | ⟨.closed db, _, _⟩, .init => inferInstanceAs (Decidable (db.log.length ≤ deps.opt.memoryPageBytes ∧
      DiskDatabase.SafeRecovery deps db))
  | ⟨.opened s _, _, _⟩, .call a =>
    inferInstanceAs (Decidable (Calls.InOrder deps s a ∧ Calls.SeenStays s a ∧ Calls.Writable a))
  | ⟨.opened s seqnum, _, _⟩, .close =>
    inferInstanceAs (Decidable (NumbersKept deps s seqnum ∧ SafeClose deps s))
  | ⟨.opened s seqnum, _, _⟩, .crash => inferInstanceAs (Decidable (NumbersKept deps s seqnum))
  | ⟨.opened _ _, _, _⟩, .init | ⟨.closed _, _, _⟩, .call _ | ⟨.closed _, _, _⟩, .close
  | ⟨.closed _, _, _⟩, .crash => isTrue trivial

/-- What holds between sessions; `t` is the database with its tables in place of their bytes. -/
structure Durable (deps : DiskDeps) (st : State) (db : DiskDatabase) (t : Database File)
    (logged : List KvEntry) : Prop
    extends Sessions.Durable deps.toKvdbDeps t (sequenceNumberModulus - 2) logged where
  onDisk : db = t.onDisk deps.table
  legible : t.store.current.Legible deps.table
  good : t.store.Good deps.toKvdbDeps
  unique : ∀ x ∈ logged, ∀ y ∈ logged, x.key = y.key → x = y
  positive : ∀ e ∈ durableContents t logged, 0 < e.seq
  recoverable : Recoverable t logged
  separated : Separated deps.toKvdbDeps t logged
  issued : ∀ e ∈ durableContents t logged, e ∈ st.issued
  kept : Covers (durableContents t logged) {e | e ∈ st.returned}

/-- What holds in a session. A call sees what the sessions before have left. -/
structure Running (deps : DiskDeps) (st : State) (s : Calls.State) (seqnum : ByteString) : Prop
    extends Calls.Inv deps s where
  logged : ∃ first, Calls.Logged deps first s
  file : getLeatestSequenceNumber seqnum < s.center.newestUnusedSeq
  issued : ∀ e ∈ s.issued, e ∈ st.issued
  kept : Covers s.returnedSet {e | e ∈ st.returned}
  seen : ∀ g ∈ s.gets, g.option = none → ∀ a ∈ st.returned, a.userKey = g.key →
    ∃ c ∈ g.seen, a.seq ≤ c.seq

def Inv (deps : DiskDeps) (st : State) : Prop :=
  match st.phase with
  | .closed db => ∃ t logged, Durable deps st db t logged
  | .opened s seqnum => Running deps st s seqnum

/-- The tables in the files of a session, and its log. -/
structure Tables (deps : DiskDeps) (s : Calls.State) (seqnum : ByteString) (t : Database File) : Prop where
  onDisk : database s seqnum = t.onDisk deps.table
  legible : t.store.current.Legible deps.table
  good : t.store.Good deps.toKvdbDeps
  contents : t.store.current.contents = DiskStore.contents deps.table s.store.current

variable {deps : DiskDeps} {compressor : CompressorPolicy} {st st' : State} {s s' : Calls.State}
  {db db' : DiskDatabase} {t : Database File} {session : Session} {seqnum : ByteString}
  {logged : List KvEntry}

theorem Running.exists_tables (running : Running deps st s seqnum) (opens : deps.Readable compressor) :
    ∃ t, Tables deps s seqnum t := by
  obtain ⟨u, onDisk, good, legible⟩ := running.base.good
  refine ⟨⟨s.logBytes, u, seqnum⟩, ?_, legible, good, ?_⟩
  · rw [database, onDisk]
    rfl
  · rw [onDisk]
    exact (DiskStore.contents_map opens.toReadable legible).symm

/-- Returned entries are in the log or have a version in the files that is at least as new. -/
theorem Running.covers_returned (running : Running deps st s seqnum) (tables : Tables deps s seqnum t) :
    Covers (durableContents t s.log) s.returnedSet := by
  obtain ⟨first, log⟩ := running.logged
  intro e he
  rcases running.base.kept e he with inMemory | ⟨c, hc, rel⟩
  · exact ⟨e, Or.inr (log.memory e inMemory), rfl, le_rfl⟩
  · exact ⟨c, Or.inl (tables.contents ▸ hc), rel⟩

theorem Running.mem_durableContents (running : Running deps st s seqnum) (tables : Tables deps s seqnum t)
    {e : KvEntry} (he : e ∈ durableContents t s.log) : e ∈ s.returned ∨ e ∈ s.log :=
  he.imp_left fun stored => running.base.contents (tables.contents ▸ stored)

/-- What covers the entries that returned in the session covers those of all sessions. -/
theorem Running.covers {A : Set KvEntry} (running : Running deps st s seqnum)
    (own : Covers A s.returnedSet) : Covers A {e | e ∈ st.returned ++ s.returned} := by
  intro e he
  rcases List.mem_append.mp he with earlier | here
  · exact own.trans running.kept e earlier
  · exact own e here

theorem Running.durableContents_issued (running : Running deps st s seqnum)
    (tables : Tables deps s seqnum t) : ∀ e ∈ durableContents t s.log, e ∈ s.issued := by
  obtain ⟨first, log⟩ := running.logged
  intro e he
  rcases running.mem_durableContents tables he with stored | inLog
  · exact running.base.issued_of_returned e stored
  · exact log.issued e inLog

/-- A session may stop between any two steps of its calls. -/
theorem durable_of_crash (running : Running deps st s seqnum) (tables : Tables deps s seqnum t)
    (kept : NumbersKept deps s seqnum) :
    Durable deps { st with
      phase := .closed (database s seqnum)
      returned := st.returned ++ s.returned } (database s seqnum) t s.log := by
  obtain ⟨first, log⟩ := running.logged
  have small := running.base.small
  have file := running.file
  have inUse := running.durableContents_issued tables
  have bytes : t.log = s.logBytes := (congrArg Database.log tables.onDisk).symm
  have numbers : t.seqnum = seqnum := (congrArg Database.seqnum tables.onDisk).symm
  constructor
  case onDisk => exact tables.onDisk
  case legible => exact tables.legible
  case toDurable =>
    constructor
    case log => exact bytes
    case wf => exact log.wf
    case sound => exact tables.good.toSound
    case numbers =>
      intro e he
      have := (running.base.numbers e (log.issued e he)).2
      omega
    case file =>
      rw [numbers]
      omega
    case few => decide
  case good => exact tables.good
  case unique => exact fun x hx y hy => running.base.unique x (log.issued x hx) y (log.issued y hy)
  case positive => exact fun e he => (running.base.numbers e (inUse e he)).1
  case recoverable =>
    intro e he
    rw [tables.contents] at he
    rcases log.stored e he with before | inLog
    · rcases kept with some_ | file
      · obtain ⟨x, hx⟩ := List.exists_mem_of_ne_nil _ some_
        exact Or.inr ⟨x, hx, (before.trans_le (log.numbers x hx)).le⟩
      · obtain ⟨f, hf, inFile⟩ := he
        exact Or.inl (numbers ▸ file f hf e inFile)
    · exact Or.inr ⟨e, inLog, le_rfl⟩
  case separated =>
    intro fits x hx y hy _
    rw [bytes] at fits
    exact ((log.whole fits).2 y (tables.contents ▸ hy)).trans_le (log.numbers x hx)
  case issued => exact fun e he => running.issued e (inUse e he)
  case kept => exact running.covers (running.covers_returned tables)

theorem isFree_eq_true {sec : Calls.MemSection} (free : isFree sec = true) : sec = .free := by
  cases sec with
  | free => rfl
  | held i => cases free
  | flushing i m => cases free

/-- `close` flushes what has returned, and writes the number that it has reached. -/
theorem durable_of_close (running : Running deps st s seqnum) (opens : deps.Readable compressor)
    (kept : NumbersKept deps s seqnum) (safe : SafeClose deps s) (free : s.memSection = .free)
    (closed : DiskDatabase.close deps (database s seqnum) ⟨s.mem, s.center⟩ = some db) :
    ∃ t logged, Durable deps { st with
      phase := .closed db
      returned := st.returned ++ s.returned } db t logged ∧
        Covers (durableContents t logged) s.returnedSet ∧
        ∀ e ∈ durableContents t logged, e ∈ s.returned ∨ e ∈ s.log := by
  obtain ⟨t, tables⟩ := running.exists_tables opens
  have store : s.store = t.store.onDisk deps.table := congrArg Database.store tables.onDisk
  rw [SafeClose, store] at safe
  rw [tables.onDisk] at closed
  obtain ⟨t', closed', rfl, legible, pulls⟩ :=
    DiskDatabase.close_onDisk opens tables.good.toSound tables.legible safe closed
  rcases close_cases closed' with ⟨-, rfl⟩ | ⟨filled, files, last, flushed, compacted, rfl⟩
  · refine ⟨t', s.log, ?_, running.covers_returned tables, fun e he => running.mem_durableContents tables he⟩
    exact tables.onDisk ▸ durable_of_crash running tables kept
  · obtain ⟨first, log⟩ := running.logged
    have base := running.base
    have positive := base.positive
    have small := base.small
    have memory := Calls.State.inMemory_of_free free
    have inLog : ∀ e ∈ s.mem.storage, e ∈ s.log := fun e he => log.memory e ((memory e).mpr he)
    have newer : Newer s.mem.contents t.store.current.contents :=
      fun e he => tables.contents ▸ base.newer e ((memory e).mpr he)
    obtain ⟨good, sub, cover⟩ := Sessions.flush_keeps tables.good (fun e he => log.wf e (inLog e he))
      (fun _ he => he) newer (fun e he => ⟨e, Or.inr he, rfl, le_rfl⟩) flushed
      (pulls.resolve_left filled files flushed) compacted
    have own : Covers last.current.contents s.returnedSet := by
      refine cover.trans fun e he => ?_
      rcases base.kept e he with inMemory | ⟨c, hc, rel⟩
      · exact ⟨e, Or.inr ((memory e).mp inMemory), rfl, le_rfl⟩
      · exact ⟨c, Or.inl (tables.contents ▸ hc), rel⟩
    have before : ∀ e ∈ last.current.contents, e ∈ durableContents t s.log :=
      fun e he => (sub he).imp_right (inLog e)
    have inUse : ∀ e ∈ last.current.contents, e ∈ s.issued := fun e he =>
      running.durableContents_issued tables e (before e he)
    have used : s.center.leatestUsedSequenceNumber = s.center.newestUnusedSeq - 1 :=
      SnapshotCenter.leatestUsed_of_pos positive small
    have written := get_writeLeatestSequenceNumber (show s.center.newestUnusedSeq - 1 < _ by omega)
    have contents := Sessions.durableContents_nil
      ⟨[], last, writeLeatestSequenceNumber s.center.leatestUsedSequenceNumber⟩
    refine ⟨_, [], ?_, contents ▸ own,
      fun e he => running.mem_durableContents tables (before e (contents ▸ he))⟩
    constructor
    case onDisk => rfl
    case legible => exact legible
    case toDurable =>
      constructor
      case log => rfl
      case sound => exact good.toSound
      case file =>
        change getLeatestSequenceNumber (writeLeatestSequenceNumber _) ≤ _
        rw [used, written]
        omega
      case few => decide
      all_goals exact fun e he => absurd he List.not_mem_nil
    case good => exact good
    case unique => exact fun x hx => absurd hx List.not_mem_nil
    case positive => exact fun e he => (base.numbers e (inUse e (contents ▸ he))).1
    case recoverable =>
      intro e he
      have low := (base.numbers e (inUse e he)).2
      refine Or.inl ?_
      change _ ≤ getLeatestSequenceNumber (writeLeatestSequenceNumber _)
      rw [used, written]
      omega
    case separated => exact fun _ x hx => absurd hx List.not_mem_nil
    case issued => exact fun e he => running.issued e (inUse e (contents ▸ he))
    case kept => exact contents ▸ running.covers own

theorem mem_returned_start (deps : DiskDeps) (db : DiskDatabase) (session : Session) (e : KvEntry) :
    e ∈ (start deps db session).returned ↔ e ∈ DiskStore.contents deps.table db.store.current :=
  List.mem_flatMap

/-- A restart brings back what was durable. -/
theorem restarted_of_init (opens : deps.Readable compressor) (durable : Durable deps st db t logged)
    (fits : db.log.length ≤ deps.opt.memoryPageBytes) (safe : DiskDatabase.SafeRecovery deps db)
    (opened : DiskDatabase.init deps db = some (db', session)) :
    ∃ t', FrenzyKV.init deps.toKvdbDeps t = some (t', session) ∧ db' = t'.onDisk deps.table ∧
      DiskStore.contents deps.table db'.store.current = t'.store.current.contents ∧
      session.mem = Memtable.make deps.opt ∧ DiskStore.Good deps db'.store ∧
      DiskStore.contents deps.table db'.store.current ⊆ durableContents t logged ∧
      Covers (DiskStore.contents deps.table db'.store.current) (durableContents t logged) := by
  obtain rfl := durable.onDisk
  obtain ⟨t', opened', rfl, legible, pulls⟩ :=
    DiskDatabase.init_onDisk opens durable.good.toSound durable.legible safe opened
  obtain ⟨mem, -, good, sub, cover⟩ := Sessions.init_keeps durable.good durable.wf durable.log
    durable.unique durable.separated fits pulls opened'
  have contents : DiskStore.contents deps.table (t'.onDisk deps.table).store.current =
      t'.store.current.contents := DiskStore.contents_map opens.toReadable legible
  rw [contents]
  exact ⟨t', opened', rfl, rfl, mem, ⟨t'.store, rfl, good, legible⟩, sub, cover⟩

/-- It gives out numbers beyond it. -/
theorem running_of_init (opens : deps.Readable compressor) (durable : Durable deps st db t logged)
    (fits : db.log.length ≤ deps.opt.memoryPageBytes) (safe : DiskDatabase.SafeRecovery deps db)
    (opened : DiskDatabase.init deps db = some (db', session)) :
    Running deps { st with phase := .opened (start deps db' session) db'.seqnum } (start deps db' session)
      db'.seqnum := by
  obtain ⟨t', opened', rfl, contents, mem, good, sub, cover⟩ :=
    restarted_of_init opens durable fits safe opened
  obtain ⟨logged', durable', numbers⟩ :=
    Sessions.opened_of_init durable.toDurable durable.recoverable opened'
  have low := numbers.counter
  have opens' : Calls.Opened deps (start deps (t'.onDisk deps.table) session) := by
    refine ⟨good, fun f hf => hf, fun e he =>
      ⟨durable.positive e (sub he), numbers.stored e (contents ▸ he)⟩,
      numbers.positive, ?_, mem, rfl, rfl, rfl, rfl, rfl, rfl⟩
    change session.center.newestUnusedSeq < 2 ^ 32
    change _ ≤ 2 ^ 32 - 2 + 1 at low
    omega
  constructor
  case toInv => exact ⟨Calls.Base.init opens opens', fun g hg => absurd hg List.not_mem_nil⟩
  case logged => exact ⟨_, Calls.Logged.init opens' rfl⟩
  case file => exact numbers.file
  case issued =>
    exact fun e he => durable.issued e (sub ((mem_returned_start deps _ session e).mp he))
  case kept =>
    intro e he
    obtain ⟨c, hc, rel⟩ := cover.trans durable.kept e he
    exact ⟨c, (mem_returned_start deps _ session c).mpr hc, rel⟩
  case seen => exact fun g hg => absurd hg List.not_mem_nil

/-- The session gives out its numbers in the step of the insert that gets them. -/
theorem issued_step {a : Calls.Action} (taken : Calls.step deps s a = some s') :
    s'.issued = s.issued ++ numbered s a := by
  cases Calls.step_cases taken with
  | insert small => rfl
  | _ => exact (List.append_nil _).symm

/-- A call that starts without a snapshot sees all that has returned. -/
theorem seen_startGet {key : UserKey} {view : Option (Snapshot DiskFile × List KvEntry)}
    (default : (Calls.startGet s key view).option = none) :
    (Calls.startGet s key view).key = key ∧
      (Calls.startGet s key view).seen = s.returned.filter (·.userKey = key) := by
  cases view with
  | none => exact ⟨rfl, rfl⟩
  | some pair =>
    rw [Calls.startGet] at default ⊢
    split
    · rename_i valid
      rw [if_pos valid] at default
      cases default
    · exact ⟨rfl, rfl⟩

theorem newestUnusedSeq_mono {a : Calls.Action} (allowed : Calls.InOrder deps s a)
    (taken : Calls.step deps s a = some s') : s.center.newestUnusedSeq ≤ s'.center.newestUnusedSeq := by
  cases Calls.step_cases taken with
  | insert few =>
    have next := SnapshotCenter.getNextUnused_of_lt allowed.1
    exact (Nat.le_add_right _ _).trans next.ge
  | _ => exact le_rfl

theorem running_step {a : Calls.Action} (running : Running deps st s seqnum)
    (opens : deps.Readable compressor) (allowed : Calls.InOrder deps s a) (stays : Calls.SeenStays s a) (writable : Calls.Writable a)
    (taken : Calls.step deps s a = some s') :
    Running deps { st with
      phase := .opened s' seqnum
      issued := st.issued ++ numbered s a } s' seqnum := by
  obtain ⟨first, log⟩ := running.logged
  constructor
  case toInv => exact running.toInv.step opens allowed stays taken
  case logged => exact ⟨first, log.step running.base opens allowed writable taken⟩
  case file => exact running.file.trans_le (newestUnusedSeq_mono allowed taken)
  case issued =>
    rw [issued_step taken]
    refine List.forall_mem_append.mpr ⟨fun e he => ?_, fun e he => List.mem_append_right _ he⟩
    exact List.mem_append_left _ (running.issued e he)
  case kept =>
    intro e he
    obtain ⟨c, hc, rel⟩ := running.kept e he
    exact ⟨c, Calls.returned_mono taken hc, rel⟩
  case seen =>
    intro g mem default e he same
    rcases Calls.gets_step taken mem with old | ⟨key, view, -, rfl⟩ | ⟨j, old, phase, -, held, -, rfl⟩
    · exact running.seen g old default e he same
    · obtain ⟨own, sees⟩ := seen_startGet default
      obtain ⟨c, hc, key', newer⟩ := running.kept e he
      rw [own] at same
      rw [sees]
      exact ⟨c, List.mem_filter.mpr ⟨hc, decide_eq_true (key'.trans same)⟩, newer⟩
    · exact running.seen old held default e he same

theorem inv_step {a : Action} (inv : Inv deps st) (opens : deps.Readable compressor) (lasting : Lasting deps st a)
    (taken : step deps st a = some st') : Inv deps st' := by
  obtain ⟨phase, issued, returned⟩ := st
  cases phase with
  | closed db =>
    obtain ⟨t, logged, durable⟩ := inv
    cases a with
    | init =>
      obtain ⟨⟨db', session⟩, opened, rfl⟩ := Option.map_eq_some_iff.mp taken
      exact running_of_init opens durable lasting.1 lasting.2 opened
    | call a => cases taken
    | close => cases taken
    | crash => cases taken
  | opened s seqnum =>
    have running : Running deps ⟨.opened s seqnum, issued, returned⟩ s seqnum := inv
    cases a with
    | init => cases taken
    | call a =>
      obtain ⟨s', moved, rfl⟩ := Option.map_eq_some_iff.mp taken
      exact running_step running opens lasting.1 lasting.2.1 lasting.2.2 moved
    | close =>
      obtain ⟨quiet, taken⟩ := Option.ite_none_right_eq_some.mp taken
      obtain ⟨db, closed, rfl⟩ := Option.map_eq_some_iff.mp taken
      have free := isFree_eq_true (Bool.and_eq_true_iff.mp quiet).1
      obtain ⟨t, logged, durable, -⟩ := durable_of_close running opens lasting.1 lasting.2 free closed
      exact ⟨t, logged, durable⟩
    | crash =>
      obtain rfl := Option.some.inj taken
      obtain ⟨t, tables⟩ := running.exists_tables opens
      exact ⟨t, s.log, durable_of_crash running tables lasting⟩

theorem not_mem_durableContents_empty (e : KvEntry) : e ∉ durableContents Database.empty [] := by
  rintro (⟨f, hf, -⟩ | logged)
  · exact absurd hf List.not_mem_nil
  · exact absurd logged List.not_mem_nil

theorem durable_start (deps : DiskDeps) :
    Durable deps ⟨.closed Database.empty, [], []⟩ Database.empty Database.empty [] := by
  have nothing := not_mem_durableContents_empty
  constructor
  case onDisk => rfl
  case legible => exact fun f mem => absurd mem List.not_mem_nil
  case toDurable => exact ⟨rfl, by simp, Store.sound_empty deps.toKvdbDeps, by simp, Nat.zero_le _, by decide⟩
  case good => exact Store.good_empty deps.toKvdbDeps
  case recoverable => exact fun e he => absurd (Or.inl he) (nothing e)
  case positive => exact fun e he => absurd he (nothing e)
  case issued => exact fun e he => absurd he (nothing e)
  case kept => exact fun e he => absurd he List.not_mem_nil
  case unique => exact fun x hx => absurd hx List.not_mem_nil
  case separated => exact fun _ x hx => absurd hx List.not_mem_nil

/-- The second of two inserts of a key returns first. The process stops before the other one is in the
memtable, and the next session reads the key. -/
def interrupted : List Action :=
  [.init, .call (Calls.insertOne 1 10), .call (Calls.insertOne 1 11), .call (.insertStep 1),
    .call (.insertStep 1), .call (.insertStep 0), .call (.insertStep 1), .crash, .init,
    .call (Calls.insertOne 2 12), .call (.get ⟨[1]⟩ none), .call (.insertStep 0), .call (.getStep 0),
    .call (.getStep 0), .call (.getStep 0), .call (.getStep 0), .call (.getStep 0)]

end FrenzyKV.CallSessions
