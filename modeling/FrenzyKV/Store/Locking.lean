import FrenzyKV.Framework.LockOrder
import FrenzyKV.Framework.Machine

/-! The mutexes of the database and the scopes in which its calls hold them (`db/db_local.cc`,
`db/version.cc`, `util/file_center.cc`, `log/write_ahead_logger.cc`, `db/garbage_collector.cc`,
`db/memtable_flusher.cc`, `persistent/compaction.cc`). -/

namespace FrenzyKV.Locking

open Framework LockProgram

inductive Lock where
  /-- `db_local::m_db_status_mutex`. -/
  | dbStatus
  /-- Held by the background worker of a level; `close` waits for all of them as
  `m_flying_GC_group`. -/
  | flyingGC (level : Nat)
  /-- `db_local::m_mem_mutex`. -/
  | mem
  /-- `write_ahead_logger::m_mutex`. -/
  | log
  /-- `statistics::m_mutex`. -/
  | statistics
  /-- `garbage_collector::m_mutex`, which is only tried. -/
  | collector
  /-- The flag of a level in `compactor::m_mutexes`, which is only tried. -/
  | compactor (level : Nat)
  /-- `version_center::m_modify_lock`. -/
  | modify
  /-- `file_center::m_mutex`. -/
  | fileCenter
deriving DecidableEq

/-- The order in which the calls take them. -/
def Lock.rank : Lock → Nat
  | .dbStatus => 0
  | .flyingGC _ => 1
  | .mem => 2
  | .log => 3
  | .statistics => 4
  | .collector | .compactor _ => 5
  | .modify => 6
  | .fileCenter => 7

abbrev Scopes := LockProgram Lock

def loadFiles : Scopes := .lock .fileCenter .done

def getFile : Scopes := .lock .fileCenter .done

/-- `file_center::GC`. -/
def fileCenterGC : Scopes := .lock .fileCenter .done

def currentVersion : Scopes := .lock .modify .done

/-- `add_new_version`; the guard keeps the lock until the delta is applied. -/
def addNewVersion : Scopes := .lock .modify .done

/-- `get_version`, one file after another. -/
def getVersion : Scopes := .loop getFile

def loadCurrentVersion : Scopes := .lock .modify (.seq getVersion (.loop getVersion))

/-- `version_center::GC_with` around the unlinking of descriptors. -/
def gcWith : Scopes := .lock .modify .done

def doGC : Scopes := .tryLock .collector (.seq gcWith fileCenterGC)

/-- `memtable_flusher::flush_to_disk`, which returns at once on an empty memtable. -/
def flushToDisk : Scopes := .choice .done (.seq getFile (.seq (.loop getFile) addNewVersion))

def compact (l : Nat) : Scopes := .tryLock (.compactor l) .done

def fakeFileToDisk : Scopes := .choice .done getFile

def updateCurrentVersion : Scopes := addNewVersion

/-- The rounds of `may_compact` for the given levels, up to the first one that needs it. -/
def compactionRounds : List Nat → Scopes
  | [] => .done
  | l :: ls => .seq currentVersion (.choice (compactionRounds ls)
      (.seq (compact l) (.choice .done (.seq (.loop fakeFileToDisk) updateCurrentVersion))))

def mayCompact (maxLevel from_ : Nat) : Scopes :=
  compactionRounds (List.range' from_ (maxLevel + 1 - from_))

/-- `write_ahead_logger::insert`, which may ask for the amount of hot data. -/
def logInsert : Scopes := .lock .log (.choice .done (.lock .statistics .done))

def logEmpty : Scopes := .lock .log .done

def truncateFile : Scopes := .lock .log .done

def init (maxLevel : Nat) : Scopes :=
  .lock .dbStatus (.choice .done (.seq loadFiles (.seq loadCurrentVersion (.seq logEmpty
    (.choice .done (.seq truncateFile (.seq (.lock .mem .done)
      (.seq flushToDisk (mayCompact maxLevel 0)))))))))

/-- The collection that follows a forced compaction runs on its own. -/
def insert (maxLevel : Nat) : Scopes :=
  .seq logInsert (.lock .mem (.loop (.seq flushToDisk (.choice .done (mayCompact maxLevel 0)))))

def getSnapshot : Scopes := currentVersion

def findFromSsts : Scopes := .choice .done currentVersion

def get : Scopes :=
  .seq (.choice .done getSnapshot) (.seq (.lock .mem .done) (.choice .done findFromSsts))

/-- Wait until no worker holds its lock any more. -/
def waitFlyingGC : List Nat → Scopes
  | [] => .done
  | l :: ls => .seq (.lock (.flyingGC l) .done) (waitFlyingGC ls)

def close (maxLevel : Nat) : Scopes :=
  .lock .dbStatus (.choice .done (.seq (waitFlyingGC (List.range maxLevel))
    (.lock .mem (.choice .done (.seq flushToDisk (.seq (mayCompact maxLevel 0) doGC))))))

/-- The loop of `background_compacting_GC` for one level. -/
def worker (maxLevel l : Nat) : Scopes := .lock (.flyingGC l) (.loop (mayCompact maxLevel l))

inductive Call where
  | init
  | insert
  | get
  | getSnapshot
  | close
  | doGC
  | worker (level : Nat)

def Call.scopes (maxLevel : Nat) : Call → Scopes
  | .init => Locking.init maxLevel
  | .insert => Locking.insert maxLevel
  | .get => Locking.get
  | .getSnapshot => Locking.getSnapshot
  | .close => Locking.close maxLevel
  | .doGC => Locking.doGC
  | .worker l => Locking.worker maxLevel l

/-- A call starts, or one that has started goes on. -/
inductive Action where
  | call (c : Call)
  | move (i : Nat) (b : Bool)

def machine (maxLevel : Nat) : Machine (List (Thread Lock)) Action where
  init s := s = []
  step s
    | .call c => LockProgram.step s (.spawn (c.scopes maxLevel))
    | .move i b => LockProgram.step s (.move i b)

variable {maxLevel : Nat} {above : List Lock}

theorem ordered_compactionRounds (below : ∀ h ∈ above, h.rank < Lock.rank .modify) (ls : List Nat) :
    Ordered Lock.rank above (compactionRounds ls) := by
  have files : ∀ h ∈ above, h.rank < Lock.rank .fileCenter := fun h hh => Nat.lt_succ_of_lt (below h hh)
  induction ls with
  | nil => trivial
  | cons l ls ih =>
    exact ⟨⟨below, trivial⟩, ih, trivial, trivial, ⟨trivial, files, trivial⟩, below, trivial⟩

theorem ordered_flushToDisk (below : ∀ h ∈ above, h.rank < Lock.rank .modify) :
    Ordered Lock.rank above flushToDisk := by
  have files : ∀ h ∈ above, h.rank < Lock.rank .fileCenter := fun h hh => Nat.lt_succ_of_lt (below h hh)
  exact ⟨trivial, ⟨files, trivial⟩, ⟨files, trivial⟩, below, trivial⟩

theorem ordered_waitFlyingGC (below : ∀ h ∈ above, h.rank < 1) (ls : List Nat) :
    Ordered Lock.rank above (waitFlyingGC ls) := by
  induction ls with
  | nil => trivial
  | cons l ls ih => exact ⟨⟨below, trivial⟩, ih⟩

theorem ordered_doGC (below : ∀ h ∈ above, h.rank < Lock.rank .modify) :
    Ordered Lock.rank above doGC := by
  have held : ∀ h ∈ Lock.collector :: above, h.rank < Lock.rank .modify :=
    List.forall_mem_cons.mpr ⟨by decide, below⟩
  exact ⟨⟨held, trivial⟩, fun h hh => Nat.lt_succ_of_lt (held h hh), trivial⟩

/-- Every call takes the locks in their order. -/
theorem ordered_scopes (maxLevel : Nat) (c : Call) : Ordered Lock.rank [] (c.scopes maxLevel) := by
  cases c with
  | init =>
    have flush := @ordered_flushToDisk [.dbStatus] (by decide)
    have rounds := @ordered_compactionRounds [.dbStatus] (by decide)
    simp [Call.scopes, Locking.init, loadFiles, loadCurrentVersion, getVersion, getFile, logEmpty,
      truncateFile, mayCompact, Ordered, flush, rounds, Lock.rank]
  | insert =>
    have flush := @ordered_flushToDisk [.mem] (by decide)
    have rounds := @ordered_compactionRounds [.mem] (by decide)
    simp [Call.scopes, Locking.insert, logInsert, mayCompact, Ordered, flush, rounds, Lock.rank]
  | get => simp [Call.scopes, Locking.get, getSnapshot, findFromSsts, currentVersion, Ordered]
  | getSnapshot => simp [Call.scopes, Locking.getSnapshot, currentVersion, Ordered]
  | close =>
    have wait := @ordered_waitFlyingGC [.dbStatus] (by decide)
    have flush := @ordered_flushToDisk [.mem, .dbStatus] (by decide)
    have rounds := @ordered_compactionRounds [.mem, .dbStatus] (by decide)
    have collect := @ordered_doGC [.mem, .dbStatus] (by decide)
    simp [Call.scopes, Locking.close, mayCompact, Ordered, wait, flush, rounds, collect, Lock.rank]
  | doGC => exact ordered_doGC (List.forall_mem_nil _)
  | worker l =>
    have rounds := @ordered_compactionRounds [.flyingGC l] (List.forall_mem_singleton.mpr (show 1 < 6 by decide))
    simp [Call.scopes, worker, mayCompact, Ordered, rounds, Lock.rank]

theorem ordered_of_reach {s : List (Thread Lock)} (reached : Reach (machine maxLevel) (fun _ _ => True) s) :
    ∀ t ∈ s, OrderedThread Lock.rank t := by
  refine reached.invariant (P := fun s => ∀ t ∈ s, OrderedThread Lock.rank t) ?_ ?_
  · rintro s rfl t mem
    exact absurd mem List.not_mem_nil
  · intro s a s' all _ taken
    cases a with
    | call c =>
      refine ordered_step all (a := .spawn (c.scopes maxLevel)) ?_ taken
      rintro p eq
      cases eq
      exact ordered_scopes maxLevel c
    | move i b => exact ordered_step all (a := .move i b) (fun p eq => nomatch eq) taken

/-- In every interleaving of any calls, each call that has not returned can go on, or waits, through
calls that hold what the one before wants, for one that can: no calls wait for one another. -/
theorem calls_never_deadlock {s : List (Thread Lock)}
    (reached : Reach (machine maxLevel) (fun _ _ => True) s) {i : Nat} {t : Thread Lock}
    (found : s[i]? = some t) (busy : t ≠ []) :
    ∃ j, Relation.ReflTransGen (WaitsFor s) i j ∧ CanMove s j := by
  have bounded : ∀ l : Lock, l.rank ≤ 7 := by
    intro l
    cases l <;> simp [Lock.rank]
  exact waitsFor_canMove bounded (ordered_of_reach reached) found busy

/-- Of two insertions the second one waits for the log. -/
def twoInserts : List Action :=
  [.call .insert, .call .insert, .move 0 true, .move 0 true, .move 1 true]

theorem calls_never_deadlock_twoInserts :
    ∃ s, (machine 2).run [] twoInserts = some s ∧ WaitsFor s 1 0 ∧
      ∃ j, Relation.ReflTransGen (WaitsFor s) 1 j ∧ CanMove s j := by
  let filling : Scopes := .lock .mem (.loop (.seq flushToDisk (.choice .done (mayCompact 2 0))))
  let body : Scopes := .choice .done (.lock .statistics .done)
  let s : List (Thread Lock) :=
    [[.run body, .release .log, .run filling], [.run (.lock .log body), .run filling]]
  have ran : (machine 2).run [] twoInserts = some s := rfl
  have reached : Reach (machine 2) (fun _ _ => True) s :=
    Machine.reach_of_run _ (fun _ _ => trivial) (.init rfl) ran
  refine ⟨s, ran, ⟨.log, body, _, _, rfl, rfl, List.mem_cons_self⟩, ?_⟩
  exact calls_never_deadlock reached (i := 1) rfl (List.cons_ne_nil _ _)

end FrenzyKV.Locking
