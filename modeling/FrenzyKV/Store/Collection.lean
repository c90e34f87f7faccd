import FrenzyKV.Db.VersionCenter
import FrenzyKV.Framework.Machine

namespace FrenzyKV.Collection

open Framework RefCount

/-- How far `update_current_version` or the end of `flush_to_disk` has come. It holds the
lock of the version center before `unlocked`. -/
inductive UpdatePhase where
  | added
  | applied
  | unlocked
  | described
  | published
deriving DecidableEq

def UpdatePhase.locked : UpdatePhase → Bool
  | .added | .applied => true
  | .unlocked | .described | .published => false

structure Update where
  delta : GuardDelta
  guard : Guard
  phase : UpdatePhase

/-- A running `file_center::GC`: the reps it has unlinked and those it has yet to unlink. -/
structure Removal where
  unlinked : List Nat
  pending : List Nat

/-- The tables of guards belong to the callers; a snapshot is its version guard. `visiting`
holds what a running `GC_with` has still to look at. `unlinked`, `published` and `completed`
are ghosts: the reps whose file was unlinked, the version named last, and whether an update
has completed. -/
structure State where
  disk : Disk
  files : FileCenter
  versions : VersionCenter
  fileGuards : List Guard
  versionGuards : List Guard
  snapshots : List Guard
  deltas : List GuardDelta
  updates : List Update
  visiting : Option (List Nat)
  removing : Option Removal
  unlinked : List Nat
  published : Option Nat
  completed : Bool

namespace State

/-- After `load_files` and `load_current_version`. -/
def load (d : Disk) (fresh : Nat) : State :=
  let loaded := loadCurrentVersion d (FileCenter.loadFiles d.sstables) fresh
  ⟨d, loaded.1, loaded.2, [], [], [], [], [], none, none, [], d.current.map fun _ => 0, false⟩

/-- All live file guards. -/
def allFileGuards (s : State) : List Guard :=
  s.versions.files ++ (s.fileGuards ++ (s.deltas.flatMap GuardDelta.guards ++
    s.updates.flatMap (·.delta.guards)))

/-- All live version guards. -/
def allVersionGuards (s : State) : List Guard :=
  s.versions.current :: (s.versionGuards ++ (s.snapshots ++ s.updates.map (·.guard)))

/-- Whether `m_modify_lock` is free. -/
def modifyLockFree (s : State) : Bool :=
  s.visiting.isNone && s.updates.all fun u => !u.phase.locked

def version? (s : State) (g : Guard) : Option (Cell VersionRep) := find? s.versions.versions g

def FreshName (s : State) (name : Nat) : Prop :=
  s.disk.FreshName name ∧ ∀ c ∈ s.versions.versions, c.val.name ≠ name

instance (s : State) (name : Nat) : Decidable (s.FreshName name) :=
  inferInstanceAs (Decidable (_ ∧ _))

/-- `*m_rep += delta` on the version a guard refers to. -/
def applyDelta (s : State) (c : Cell VersionRep) (delta : GuardDelta) : State :=
  let sum := plusEquals s.files.reps c.val.files delta
  { s with
    files := { s.files with reps := sum.1 }
    versions := { s.versions with
      versions := s.versions.versions.map fun v =>
        if v.address = c.address then { v with val := ⟨v.val.name, sum.2⟩ } else v } }

/-- The next step of an update whose version is `c`. -/
def updateStep (s : State) (i : Nat) (u : Update) (c : Cell VersionRep) : State :=
  match u.phase with
  | .added => { s.applyDelta c u.delta with updates := s.updates.set i { u with phase := .applied } }
  | .applied => { s with updates := s.updates.set i { u with phase := .unlocked } }
  | .unlocked =>
    { s with
      disk := s.disk.apply (.writeDescriptor c.val.name (names s.files.reps c.val.files))
      updates := s.updates.set i { u with phase := .described } }
  | .described =>
    { s with
      disk := s.disk.applyAll (setCurrentVersionFile c.val.name)
      published := some c.address
      updates := s.updates.set i { u with phase := .published } }
  | .published =>
    { s with
      files := { s.files with reps := derefAll s.files.reps u.delta.guards }
      versions := { s.versions with versions := deref s.versions.versions u.guard }
      updates := s.updates.eraseIdx i
      completed := true }

/-- `in_mem_GC_impl`. -/
def inMemGC (s : State) : State :=
  let swept := FrenzyKV.inMemGC s.files.reps s.versions
  { s with files := { s.files with reps := swept.1 }, versions := swept.2 }

/-- The loop body of `GC_with` on one version. -/
def visitVersion (s : State) (a : Nat) : Disk :=
  match s.version? (some a) with
  | some c => if c.refs = 0 then s.disk.apply (.unlinkDescriptor c.val.name) else s.disk
  | none => s.disk

/-- The loop body of `file_center::GC`. -/
def unlinkFile (s : State) (a : Nat) : State :=
  let name := fileOf s.files.reps (some a)
  { s with
    disk := s.disk.apply (.unlinkTable name)
    files := s.files.eraseName name
    unlinked := s.unlinked ++ [a] }

end State

inductive Action where
  -- file guards and deltas
  | getFile (name : File)
  | fileGuard (op : GuardOp)
  | fileOfVersion (i k : Nat)
  | newDelta
  | addNewFile (d i : Nat)
  | addCompactedFile (d i : Nat)
  | mergeDelta (d e : Nat)
  | dropDelta (d : Nat)
  -- version guards and snapshots
  | currentVersion
  | versionGuard (op : GuardOp)
  | getSnapshot (i : Nat)
  | snapshot (op : GuardOp)
  | versionOfSnapshot (k : Nat)
  -- updates
  | startUpdate (d name : Nat)
  | updateStep (i : Nat)
  -- the collectors
  | versionGC
  | lockVersions
  | visitVersion
  | eraseVersions
  | partitionFiles
  | unlinkFile
  | eraseFiles

def step (s : State) : Action → Option State
  | .getFile name =>
    if s.removing.isSome then none
    else
      let got := s.files.getFile name
      some { s with files := got.1, fileGuards := s.fileGuards ++ [got.2] }
  | .fileGuard op =>
    (op.run s.files.reps s.fileGuards).map fun ran =>
      { s with files := { s.files with reps := ran.1 }, fileGuards := ran.2 }
  | .fileOfVersion i k =>
    s.versionGuards[i]?.bind fun g => (s.version? g).bind fun c => c.val.files[k]?.map fun f =>
      { s with
        files := { s.files with reps := ref s.files.reps f }
        fileGuards := s.fileGuards ++ [f] }
  | .newDelta => some { s with deltas := s.deltas ++ [GuardDelta.empty] }
  | .addNewFile d i =>
    -- the table is written and synced before its guard goes into the delta
    s.deltas[d]?.bind fun delta => s.fileGuards[i]?.bind fun g => g.map fun _ =>
      { s with
        disk := s.disk.apply (.writeTable (fileOf s.files.reps g))
        fileGuards := s.fileGuards.set i none
        deltas := s.deltas.set d { delta with added := delta.added ++ [g] } }
  | .addCompactedFile d i =>
    s.deltas[d]?.bind fun delta => s.fileGuards[i]?.map fun g =>
      { s with
        fileGuards := s.fileGuards.set i none
        deltas := s.deltas.set d { delta with compacted := delta.compacted ++ [g] } }
  | .mergeDelta d e =>
    if d = e then none
    else s.deltas[d]?.bind fun delta => s.deltas[e]?.map fun other =>
      { s with
        deltas := (s.deltas.set e GuardDelta.empty).set d
          ⟨delta.compacted ++ other.compacted, delta.added ++ other.added⟩ }
  | .dropDelta d =>
    s.deltas[d]?.map fun delta =>
      { s with
        files := { s.files with reps := derefAll s.files.reps delta.guards }
        deltas := s.deltas.eraseIdx d }
  | .currentVersion =>
    if s.modifyLockFree then
      some { s with
        versions := { s.versions with versions := ref s.versions.versions s.versions.current }
        versionGuards := s.versionGuards ++ [s.versions.current] }
    else none
  | .versionGuard op =>
    (op.run s.versions.versions s.versionGuards).map fun ran =>
      { s with versions := { s.versions with versions := ran.1 }, versionGuards := ran.2 }
  | .getSnapshot i =>
    s.versionGuards[i]?.map fun g =>
      { s with versionGuards := s.versionGuards.set i none, snapshots := s.snapshots ++ [g] }
  | .snapshot op =>
    (op.run s.versions.versions s.snapshots).map fun ran =>
      { s with versions := { s.versions with versions := ran.1 }, snapshots := ran.2 }
  | .versionOfSnapshot k =>
    s.snapshots[k]?.map fun g =>
      { s with
        versions := { s.versions with versions := ref s.versions.versions g }
        versionGuards := s.versionGuards ++ [g] }
  | .startUpdate d name =>
    if s.modifyLockFree ∧ s.FreshName name then
      s.deltas[d]?.bind fun delta => (addNewVersion s.files.reps s.versions name).map fun added =>
        { s with
          files := { s.files with reps := added.1 }
          versions := added.2
          deltas := s.deltas.eraseIdx d
          updates := s.updates ++ [⟨delta, added.2.current, .added⟩] }
    else none
  | .updateStep i =>
    s.updates[i]?.bind fun u => (s.version? u.guard).map fun c => s.updateStep i u c
  | .versionGC => if s.modifyLockFree then some s.inMemGC else none
  | .lockVersions =>
    if s.modifyLockFree then
      some { s with visiting := some (s.versions.versions.map (·.address)) }
    else none
  | .visitVersion =>
    match s.visiting with
    | some (a :: rest) => some { s with disk := s.visitVersion a, visiting := some rest }
    | some [] | none => none
  | .eraseVersions =>
    match s.visiting with
    | some [] => some { s.inMemGC with visiting := none }
    | some (_ :: _) | none => none
  | .partitionFiles =>
    if s.removing.isSome then none
    else
      let garbage := (s.files.reps.filter (·.refs = 0)).map (·.address)
      some { s with removing := some ⟨[], garbage⟩ }
  | .unlinkFile =>
    match s.removing with
    | some ⟨unlinked, a :: rest⟩ =>
      some { s.unlinkFile a with removing := some ⟨unlinked ++ [a], rest⟩ }
    | some ⟨_, []⟩ | none => none
  | .eraseFiles =>
    match s.removing with
    | some ⟨unlinked, []⟩ =>
      some { s with
        files := { s.files with reps := s.files.reps.filter (·.address ∉ unlinked) }
        removing := none }
    | some ⟨_, _ :: _⟩ | none => none

/-- Each way in which a step can go, with the checks on its path. -/
inductive Step (s : State) : Action → State → Prop
  | getFile {name : File} (idle : s.removing = none) :
      Step s (.getFile name) {
        s with
        files := (s.files.getFile name).1
        fileGuards := s.fileGuards ++ [(s.files.getFile name).2] }
  | fileGuard {op : GuardOp} {ran : List (Cell File) × List Guard}
      (done : op.run s.files.reps s.fileGuards = some ran) :
      Step s (.fileGuard op) { s with files := { s.files with reps := ran.1 }, fileGuards := ran.2 }
  | fileOfVersion {i k : Nat} {g f : Guard} {c : Cell VersionRep} (at_ : s.versionGuards[i]? = some g)
      (found : s.version? g = some c) (listed : c.val.files[k]? = some f) :
      Step s (.fileOfVersion i k) {
        s with
        files := { s.files with reps := ref s.files.reps f }
        fileGuards := s.fileGuards ++ [f] }
  | newDelta : Step s .newDelta { s with deltas := s.deltas ++ [GuardDelta.empty] }
  | addNewFile {d i a : Nat} {delta : GuardDelta} (atDelta : s.deltas[d]? = some delta)
      (atGuard : s.fileGuards[i]? = some (some a)) :
      Step s (.addNewFile d i) {
        s with
        disk := s.disk.apply (.writeTable (fileOf s.files.reps (some a)))
        fileGuards := s.fileGuards.set i none
        deltas := s.deltas.set d { delta with added := delta.added ++ [some a] } }
  | addCompactedFile {d i : Nat} {delta : GuardDelta} {g : Guard} (atDelta : s.deltas[d]? = some delta)
      (atGuard : s.fileGuards[i]? = some g) :
      Step s (.addCompactedFile d i) {
        s with
        fileGuards := s.fileGuards.set i none
        deltas := s.deltas.set d { delta with compacted := delta.compacted ++ [g] } }
  | mergeDelta {d e : Nat} {delta other : GuardDelta} (ne : d ≠ e) (atDelta : s.deltas[d]? = some delta)
      (atOther : s.deltas[e]? = some other) :
      Step s (.mergeDelta d e) {
        s with
        deltas := (s.deltas.set e GuardDelta.empty).set d
          ⟨delta.compacted ++ other.compacted, delta.added ++ other.added⟩ }
  | dropDelta {d : Nat} {delta : GuardDelta} (atDelta : s.deltas[d]? = some delta) :
      Step s (.dropDelta d) {
        s with
        files := { s.files with reps := derefAll s.files.reps delta.guards }
        deltas := s.deltas.eraseIdx d }
  | currentVersion (free : s.modifyLockFree) :
      Step s .currentVersion {
        s with
        versions := { s.versions with versions := ref s.versions.versions s.versions.current }
        versionGuards := s.versionGuards ++ [s.versions.current] }
  | versionGuard {op : GuardOp} {ran : List (Cell VersionRep) × List Guard}
      (done : op.run s.versions.versions s.versionGuards = some ran) :
      Step s (.versionGuard op)
        { s with versions := { s.versions with versions := ran.1 }, versionGuards := ran.2 }
  | getSnapshot {i : Nat} {g : Guard} (at_ : s.versionGuards[i]? = some g) :
      Step s (.getSnapshot i)
        { s with versionGuards := s.versionGuards.set i none, snapshots := s.snapshots ++ [g] }
  | snapshot {op : GuardOp} {ran : List (Cell VersionRep) × List Guard}
      (done : op.run s.versions.versions s.snapshots = some ran) :
      Step s (.snapshot op)
        { s with versions := { s.versions with versions := ran.1 }, snapshots := ran.2 }
  | versionOfSnapshot {k : Nat} {g : Guard} (at_ : s.snapshots[k]? = some g) :
      Step s (.versionOfSnapshot k) {
        s with
        versions := { s.versions with versions := ref s.versions.versions g }
        versionGuards := s.versionGuards ++ [g] }
  | startUpdate {d name : Nat} {delta : GuardDelta} {added : List (Cell File) × VersionCenter}
      (free : s.modifyLockFree ∧ s.FreshName name) (atDelta : s.deltas[d]? = some delta)
      (new : addNewVersion s.files.reps s.versions name = some added) :
      Step s (.startUpdate d name) {
        s with
        files := { s.files with reps := added.1 }
        versions := added.2
        deltas := s.deltas.eraseIdx d
        updates := s.updates ++ [⟨delta, added.2.current, .added⟩] }
  | updateStep {i : Nat} {u : Update} {c : Cell VersionRep} (at_ : s.updates[i]? = some u)
      (found : s.version? u.guard = some c) : Step s (.updateStep i) (s.updateStep i u c)
  | versionGC (free : s.modifyLockFree) : Step s .versionGC s.inMemGC
  | lockVersions (free : s.modifyLockFree) :
      Step s .lockVersions { s with visiting := some (s.versions.versions.map (·.address)) }
  | visitVersion {a : Nat} {rest : List Nat} (visiting : s.visiting = some (a :: rest)) :
      Step s .visitVersion { s with disk := s.visitVersion a, visiting := some rest }
  | eraseVersions (visiting : s.visiting = some []) :
      Step s .eraseVersions { s.inMemGC with visiting := none }
  | partitionFiles (idle : s.removing = none) :
      Step s .partitionFiles
        { s with removing := some ⟨[], (s.files.reps.filter (·.refs = 0)).map (·.address)⟩ }
  | unlinkFile {unlinked rest : List Nat} {a : Nat} (running : s.removing = some ⟨unlinked, a :: rest⟩) :
      Step s .unlinkFile { s.unlinkFile a with removing := some ⟨unlinked ++ [a], rest⟩ }
  | eraseFiles {unlinked : List Nat} (running : s.removing = some ⟨unlinked, []⟩) :
      Step s .eraseFiles {
        s with
        files := { s.files with reps := s.files.reps.filter (·.address ∉ unlinked) }
        removing := none }

theorem step_cases {s s' : State} {a : Action} (taken : step s a = some s') : Step s a s' := by
  cases a with
  | getFile name =>
    rw [step] at taken
    split at taken
    · cases taken
    · rename_i idle
      obtain rfl := Option.some.inj taken
      exact .getFile (Option.not_isSome_iff_eq_none.mp idle)
  | fileGuard op =>
    obtain ⟨ran, done, rfl⟩ := Option.map_eq_some_iff.mp taken
    exact .fileGuard done
  | fileOfVersion i k =>
    obtain ⟨g, at_, taken⟩ := Option.bind_eq_some_iff.mp taken
    obtain ⟨c, found, taken⟩ := Option.bind_eq_some_iff.mp taken
    obtain ⟨f, listed, rfl⟩ := Option.map_eq_some_iff.mp taken
    exact .fileOfVersion at_ found listed
  | newDelta =>
    obtain rfl := Option.some.inj taken
    exact .newDelta
  | addNewFile d i =>
    obtain ⟨delta, atDelta, taken⟩ := Option.bind_eq_some_iff.mp taken
    obtain ⟨g, atGuard, taken⟩ := Option.bind_eq_some_iff.mp taken
    obtain ⟨a, rfl, rfl⟩ := Option.map_eq_some_iff.mp taken
    exact .addNewFile atDelta atGuard
  | addCompactedFile d i =>
    obtain ⟨delta, atDelta, taken⟩ := Option.bind_eq_some_iff.mp taken
    obtain ⟨g, atGuard, rfl⟩ := Option.map_eq_some_iff.mp taken
    exact .addCompactedFile atDelta atGuard
  | mergeDelta d e =>
    rw [step] at taken
    split at taken
    · cases taken
    · rename_i ne
      obtain ⟨delta, atDelta, taken⟩ := Option.bind_eq_some_iff.mp taken
      obtain ⟨other, atOther, rfl⟩ := Option.map_eq_some_iff.mp taken
      exact .mergeDelta ne atDelta atOther
  | dropDelta d =>
    obtain ⟨delta, atDelta, rfl⟩ := Option.map_eq_some_iff.mp taken
    exact .dropDelta atDelta
  | currentVersion =>
    rw [step] at taken
    split at taken
    · rename_i free
      obtain rfl := Option.some.inj taken
      exact .currentVersion free
    · cases taken
  | versionGuard op =>
    obtain ⟨ran, done, rfl⟩ := Option.map_eq_some_iff.mp taken
    exact .versionGuard done
  | getSnapshot i =>
    obtain ⟨g, at_, rfl⟩ := Option.map_eq_some_iff.mp taken
    exact .getSnapshot at_
  | snapshot op =>
    obtain ⟨ran, done, rfl⟩ := Option.map_eq_some_iff.mp taken
    exact .snapshot done
  | versionOfSnapshot k =>
    obtain ⟨g, at_, rfl⟩ := Option.map_eq_some_iff.mp taken
    exact .versionOfSnapshot at_
  | startUpdate d name =>
    rw [step] at taken
    split at taken
    · rename_i free
      obtain ⟨delta, atDelta, taken⟩ := Option.bind_eq_some_iff.mp taken
      obtain ⟨added, new, rfl⟩ := Option.map_eq_some_iff.mp taken
      exact .startUpdate free atDelta new
    · cases taken
  | updateStep i =>
    obtain ⟨u, at_, taken⟩ := Option.bind_eq_some_iff.mp taken
    obtain ⟨c, found, rfl⟩ := Option.map_eq_some_iff.mp taken
    exact .updateStep at_ found
  | versionGC =>
    rw [step] at taken
    split at taken
    · rename_i free
      obtain rfl := Option.some.inj taken
      exact .versionGC free
    · cases taken
  | lockVersions =>
    rw [step] at taken
    split at taken
    · rename_i free
      obtain rfl := Option.some.inj taken
      exact .lockVersions free
    · cases taken
  | visitVersion =>
    rw [step] at taken
    split at taken
    · rename_i d rest visiting
      obtain rfl := Option.some.inj taken
      exact .visitVersion visiting
    · cases taken
    · cases taken
  | eraseVersions =>
    rw [step] at taken
    split at taken
    · rename_i visiting
      obtain rfl := Option.some.inj taken
      exact .eraseVersions visiting
    · cases taken
    · cases taken
  | partitionFiles =>
    rw [step] at taken
    split at taken
    · cases taken
    · rename_i idle
      obtain rfl := Option.some.inj taken
      exact .partitionFiles (Option.not_isSome_iff_eq_none.mp idle)
  | unlinkFile =>
    rw [step] at taken
    split at taken
    · rename_i unlinked a rest running
      obtain rfl := Option.some.inj taken
      exact .unlinkFile running
    · cases taken
    · cases taken
  | eraseFiles =>
    rw [step] at taken
    split at taken
    · rename_i unlinked running
      obtain rfl := Option.some.inj taken
      exact .eraseFiles running
    · cases taken
    · cases taken

/-- The database starts from a directory that meets `P`. -/
def machine (P : Disk → Prop) : Machine State Action where
  init s := ∃ d fresh, d.WellFormed ∧ d.FreshName fresh ∧ P d ∧ s = State.load d fresh
  step := step

end FrenzyKV.Collection
