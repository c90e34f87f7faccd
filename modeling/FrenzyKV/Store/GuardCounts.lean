import FrenzyKV.Store.Collection

namespace FrenzyKV.Collection

open Framework RefCount

/-- The reps whose names a running `file_center::GC` has taken out of the map. -/
def State.gone (s : State) : List Nat := (s.removing.map (·.unlinked)).getD []

structure Inv (s : State) : Prop where
  reps : Exact s.files.reps s.allFileGuards
  cells : Exact s.versions.versions s.allVersionGuards
  files : s.files.Coherent s.gone
  versions : s.versions.Coherent
  removing : ∀ r ∈ s.removing, ∀ a ∈ r.unlinked ++ r.pending,
    some a ∉ s.allFileGuards ∧ ∃ c ∈ s.files.reps, c.address = a
  unlinked : ∀ a ∈ s.unlinked, a < s.files.allocated ∧
    (a ∈ s.gone ∨ ∀ c ∈ s.files.reps, c.address ≠ a)

section Guards

variable {s s' : State}

/-- Steps that move file guards around. -/
theorem Inv.of_files_evolve (inv : Inv s)
    (reps : Evolves s.files.reps s.allFileGuards s'.files.reps s'.allFileGuards)
    (cells : Exact s'.versions.versions s'.allVersionGuards) (versions : s'.versions.Coherent)
    (files : s'.files = { s.files with reps := s'.files.reps })
    (removing : s'.removing = s.removing) (unlinked : s'.unlinked = s.unlinked) : Inv s' where
  reps := reps.exact inv.reps
  cells := cells
  files := by
    rw [State.gone, removing, files]
    exact inv.files.of_identity reps.same
  versions := versions
  removing r running a mem := by
    rw [removing] at running
    obtain ⟨free, known⟩ := inv.removing r running a mem
    exact ⟨fun held => free (reps.sub a held), held_of_identity reps.same known⟩
  unlinked a mem := by
    rw [unlinked] at mem
    obtain ⟨low, out⟩ := inv.unlinked a mem
    rw [State.gone, removing]
    refine ⟨by rw [files]; exact low, out.imp_right fun absent c hc => ?_⟩
    obtain ⟨d, hd, eq, -⟩ := mem_of_identity reps.same hc
    exact eq ▸ absent d hd

/-- Steps that only move guards around. -/
theorem Inv.of_evolves (inv : Inv s)
    (reps : Evolves s.files.reps s.allFileGuards s'.files.reps s'.allFileGuards)
    (cells : Evolves s.versions.versions s.allVersionGuards s'.versions.versions
      s'.allVersionGuards)
    (files : s'.files = { s.files with reps := s'.files.reps })
    (versions : s'.versions = { s.versions with versions := s'.versions.versions })
    (removing : s'.removing = s.removing) (unlinked : s'.unlinked = s.unlinked) : Inv s' := by
  refine inv.of_files_evolve reps (cells.exact inv.cells) ?_ files removing unlinked
  rw [versions]
  exact inv.versions.of_identity cells.same

theorem files_ref {vc : VersionCenter} {versions : List (Cell VersionRep)}
    (same : versions.map Cell.identity = vc.versions.map Cell.identity) :
    VersionCenter.files { vc with versions } = vc.files := by
  rw [VersionCenter.files_identity, VersionCenter.files_identity, same]

/-- Steps on version guards leave the file guards alone. -/
theorem Inv.of_version_guards (inv : Inv s)
    (cells : Evolves s.versions.versions s.allVersionGuards s'.versions.versions
      s'.allVersionGuards)
    (versions : s'.versions = { s.versions with versions := s'.versions.versions })
    (files : s'.files = s.files) (fileGuards : s'.fileGuards = s.fileGuards)
    (deltas : s'.deltas = s.deltas) (updates : s'.updates = s.updates)
    (removing : s'.removing = s.removing) (unlinked : s'.unlinked = s.unlinked) : Inv s' := by
  refine inv.of_evolves ?_ cells (by rw [files]) versions removing unlinked
  have same : s'.allFileGuards = s.allFileGuards := by
    rw [State.allFileGuards, State.allFileGuards, fileGuards, deltas, updates, versions,
      files_ref cells.same]
  rw [same, files]
  exact .refl

/-- Steps on file guards and deltas leave the version guards alone. -/
theorem Inv.of_file_guards (inv : Inv s)
    (reps : Evolves s.files.reps s.allFileGuards s'.files.reps s'.allFileGuards)
    (files : s'.files = { s.files with reps := s'.files.reps })
    (versions : s'.versions = s.versions) (versionGuards : s'.versionGuards = s.versionGuards)
    (snapshots : s'.snapshots = s.snapshots) (updates : s'.updates = s.updates)
    (removing : s'.removing = s.removing) (unlinked : s'.unlinked = s.unlinked) : Inv s' := by
  refine inv.of_evolves reps ?_ files (by rw [versions]) removing unlinked
  rw [State.allVersionGuards, State.allVersionGuards, versions, versionGuards, snapshots, updates]
  exact .refl

theorem inv_fileGuard (inv : Inv s) {op : GuardOp} (taken : step s (.fileGuard op) = some s') :
    Inv s' := by
  cases step_cases taken with
  | fileGuard ran =>
    exact inv.of_file_guards (GuardOp.run_evolves_within _ _ ran) rfl rfl rfl rfl rfl rfl rfl

theorem inv_fileOfVersion (inv : Inv s) {i k : Nat}
    (taken : step s (.fileOfVersion i k) = some s') : Inv s' := by
  cases step_cases taken with
  | @fileOfVersion _ _ g f c at_ found listed =>
    refine inv.of_file_guards ?_ rfl rfl rfl rfl rfl rfl rfl
    have known : ∀ a, f = some a → some a ∈ s.allFileGuards := by
      rintro a rfl
      apply List.mem_append_left
      exact List.mem_flatMap.mpr ⟨c, List.mem_of_find?_eq_some found, List.mem_of_getElem? listed⟩
    refine (Evolves.copy known).trans (.of_count fun a => ?_)
    simp only [State.allFileGuards, List.count_cons, List.count_append, List.count_nil]
    omega

/-- Moving a file guard into a delta. -/
theorem inv_moveIntoDelta (inv : Inv s) {d i : Nat} {delta delta' : GuardDelta} {g : Guard}
    (atDelta : s.deltas[d]? = some delta) (atGuard : s.fileGuards[i]? = some g)
    (grown : ∀ a, delta'.guards.count a = delta.guards.count a + [g].count a) (disk : Disk) :
    Inv { s with disk, fileGuards := s.fileGuards.set i none, deltas := s.deltas.set d delta' } := by
  refine inv.of_file_guards ?_ rfl rfl rfl rfl rfl rfl rfl
  refine .of_count fun a => ?_
  have away := count_set_slot atGuard none (some a)
  have null : [(none : Guard)].count (some a) = 0 := by simp
  have arrive := count_flatMap_set_slot GuardDelta.guards atDelta delta' (some a)
  have more := grown (some a)
  simp only [State.allFileGuards, List.count_append]
  omega

theorem inv_addNewFile (inv : Inv s) {d i : Nat} (taken : step s (.addNewFile d i) = some s') :
    Inv s' := by
  cases step_cases taken with
  | addNewFile atDelta atGuard =>
    apply inv_moveIntoDelta inv atDelta atGuard
    intro a
    simp only [GuardDelta.guards, List.count_append]
    omega

theorem inv_addCompactedFile (inv : Inv s) {d i : Nat}
    (taken : step s (.addCompactedFile d i) = some s') : Inv s' := by
  cases step_cases taken with
  | addCompactedFile atDelta atGuard =>
    apply inv_moveIntoDelta inv atDelta atGuard
    intro a
    simp only [GuardDelta.guards, List.count_append]
    omega

theorem inv_mergeDelta (inv : Inv s) {d e : Nat} (taken : step s (.mergeDelta d e) = some s') :
    Inv s' := by
  cases step_cases taken with
  | @mergeDelta _ _ delta other ne atDelta atOther =>
    refine inv.of_file_guards ?_ rfl rfl rfl rfl rfl rfl rfl
    refine .of_count fun a => ?_
    have atDelta' : (s.deltas.set e GuardDelta.empty)[d]? = some delta := by
      rw [List.getElem?_set_ne (Ne.symm ne)]
      exact atDelta
    have emptied := count_flatMap_set_slot GuardDelta.guards atOther GuardDelta.empty (some a)
    have merged := count_flatMap_set_slot GuardDelta.guards atDelta'
      ⟨delta.compacted ++ other.compacted, delta.added ++ other.added⟩ (some a)
    simp only [State.allFileGuards, GuardDelta.guards, GuardDelta.empty, List.count_append,
      List.count_nil] at emptied merged ⊢
    omega

theorem inv_dropDelta (inv : Inv s) {d : Nat} (taken : step s (.dropDelta d) = some s') :
    Inv s' := by
  cases step_cases taken with
  | dropDelta atDelta =>
    refine inv.of_file_guards ?_ rfl rfl rfl rfl rfl rfl rfl
    refine (Evolves.of_count fun a => ?_).trans Evolves.releaseAll
    have gone := count_flatMap_eraseIdx_slot GuardDelta.guards atDelta (some a)
    simp only [State.allFileGuards, List.count_append]
    omega

theorem inv_currentVersion (inv : Inv s) (taken : step s .currentVersion = some s') : Inv s' := by
  cases step_cases taken with
  | currentVersion free =>
    refine inv.of_version_guards ?_ rfl rfl rfl rfl rfl rfl rfl
    have known : ∀ a, s.versions.current = some a → some a ∈ s.allVersionGuards := fun a eq =>
      eq ▸ List.mem_cons_self
    refine (Evolves.copy known).trans (.of_count fun a => ?_)
    simp only [State.allVersionGuards, List.count_cons, List.count_append, List.count_nil]
    omega

theorem inv_versionGuard (inv : Inv s) {op : GuardOp}
    (taken : step s (.versionGuard op) = some s') : Inv s' := by
  cases step_cases taken with
  | versionGuard ran =>
    exact inv.of_version_guards (GuardOp.run_evolves_within [s.versions.current] _ ran)
      rfl rfl rfl rfl rfl rfl rfl

theorem inv_snapshot (inv : Inv s) {op : GuardOp} (taken : step s (.snapshot op) = some s') :
    Inv s' := by
  cases step_cases taken with
  | snapshot ran =>
    exact inv.of_version_guards
      (GuardOp.run_evolves_within (s.versions.current :: s.versionGuards) _ ran)
      rfl rfl rfl rfl rfl rfl rfl

theorem inv_getSnapshot (inv : Inv s) {i : Nat} (taken : step s (.getSnapshot i) = some s') :
    Inv s' := by
  cases step_cases taken with
  | getSnapshot at_ =>
    refine inv.of_version_guards (.of_count fun a => ?_) rfl rfl rfl rfl rfl rfl rfl
    have away := count_set_slot at_ none (some a)
    have null : [(none : Guard)].count (some a) = 0 := by simp
    simp only [State.allVersionGuards, List.count_append, List.count_cons] at away null ⊢
    omega

theorem inv_versionOfSnapshot (inv : Inv s) {k : Nat}
    (taken : step s (.versionOfSnapshot k) = some s') : Inv s' := by
  cases step_cases taken with
  | @versionOfSnapshot _ g at_ =>
    refine inv.of_version_guards ?_ rfl rfl rfl rfl rfl rfl rfl
    have known : ∀ a, g = some a → some a ∈ s.allVersionGuards := by
      rintro a rfl
      simp only [State.allVersionGuards, List.mem_cons, List.mem_append]
      exact Or.inr (Or.inr (Or.inl (List.mem_of_getElem? at_)))
    refine (Evolves.copy known).trans (.of_count fun a => ?_)
    simp only [State.allVersionGuards, List.count_append, List.count_cons, List.count_nil]
    omega

theorem inv_getFile (inv : Inv s) {name : File} (taken : step s (.getFile name) = some s') :
    Inv s' := by
  cases step_cases taken with
  | getFile idle =>
    have none_gone : s.gone = [] := by rw [State.gone, idle]; rfl
    obtain ⟨coherent, exact, -, -⟩ :=
      FileCenter.getFile_spec (none_gone ▸ inv.files) inv.reps name
    obtain ⟨grown, addresses⟩ := FileCenter.getFile_addresses s.files name
    constructor
    case reps =>
      refine exact.of_count fun a => ?_
      simp only [State.allFileGuards, List.count_cons, List.count_append, List.count_nil]
      omega
    case cells => exact inv.cells
    case files => exact none_gone.symm ▸ coherent
    case versions => exact inv.versions
    case removing =>
      intro r running
      simp [idle] at running
    case unlinked =>
      intro a mem
      obtain ⟨low, out⟩ := inv.unlinked a mem
      refine ⟨low.trans_le grown, out.imp_right fun absent c hc => ?_⟩
      rcases addresses c hc with ⟨d, hd, eq⟩ | new
      · exact eq ▸ absent d hd
      · omega

theorem inv_startUpdate (inv : Inv s) {d name : Nat}
    (taken : step s (.startUpdate d name) = some s') : Inv s' := by
  cases step_cases taken with
  | @startUpdate _ _ delta added free atDelta new =>
    refine inv.of_files_evolve ?_ ?_ (inv.versions.add new free.2.2) rfl rfl rfl
    · let others := s.fileGuards ++ (s.deltas.flatMap GuardDelta.guards ++
        s.updates.flatMap (·.delta.guards))
      have copied : Evolves s.files.reps s.allFileGuards added.1 (added.2.files ++ others) :=
        addNewVersion_evolves new
      refine copied.trans (.of_count fun a => ?_)
      have moved := count_flatMap_eraseIdx_slot GuardDelta.guards atDelta (some a)
      simp only [others, State.allFileGuards, List.flatMap_append, List.flatMap_cons,
        List.flatMap_nil, List.count_append, List.count_nil]
      omega
    · have exact := addNewVersion_exact new inv.cells inv.versions.allocated
      obtain ⟨-, -, -, current, -, -⟩ := addNewVersion_cases new
      refine exact.of_count fun a => ?_
      simp only [State.allVersionGuards, List.map_append, List.map_cons, List.map_nil,
        List.count_cons, List.count_append, List.count_nil, current]
      omega

/-- Steps of an update that touch no guard. -/
theorem Inv.of_phase (inv : Inv s) {i : Nat} {u : Update} (at_ : s.updates[i]? = some u)
    (phase : UpdatePhase) (disk : Disk) (published : Option Nat) :
    Inv { s with disk, published, updates := s.updates.set i { u with phase } } := by
  have guards : (s.updates.set i { u with phase }).map (·.guard) = s.updates.map (·.guard) :=
    map_set_slot _ at_ rfl
  have deltas : (s.updates.set i { u with phase }).flatMap (·.delta.guards) =
      s.updates.flatMap (·.delta.guards) := by
    rw [List.flatMap_def, List.flatMap_def]
    exact congrArg List.flatten (map_set_slot _ at_ rfl)
  refine inv.of_evolves (.of_count fun a => ?_) (.of_count fun a => ?_) rfl rfl rfl rfl
  · simp only [State.allFileGuards, deltas]
  · simp only [State.allVersionGuards, guards]

theorem inv_applyDelta (inv : Inv s) {i : Nat} {u : Update} {c : Cell VersionRep}
    (at_ : s.updates[i]? = some u) (hc : c ∈ s.versions.versions) :
    Inv (s.applyDelta c u.delta) := by
  let replaced := fun v : Cell VersionRep => if v.address = c.address then
    { v with val := ⟨v.val.name, (plusEquals s.files.reps c.val.files u.delta).2⟩ } else v
  have address : ∀ v, (replaced v).address = v.address := fun v => by
    simp only [replaced]
    split <;> rfl
  have refs : ∀ v, (replaced v).refs = v.refs := fun v => by
    simp only [replaced]
    split <;> rfl
  have name : ∀ v, (replaced v).val.name = v.val.name := fun v => by
    simp only [replaced]
    split <;> rfl
  refine inv.of_files_evolve ?_ (inv.cells.modify address refs) (inv.versions.modify address name)
    rfl rfl rfl
  -- the guards of the version, of the delta, and all others
  let emptied := s.versions.versions.map fun v =>
    if v.address = c.address then { v with val := ⟨v.val.name, []⟩ } else v
  let others := emptied.flatMap (·.val.files) ++ (s.fileGuards ++
    (s.deltas.flatMap GuardDelta.guards ++ (s.updates.eraseIdx i).flatMap (·.delta.guards)))
  have away := fun a => count_files_replace inv.cells.distinct hc [] (some a)
  have back := fun a => count_files_replace inv.cells.distinct hc
    (plusEquals s.files.reps c.val.files u.delta).2 (some a)
  have delta := fun a => count_flatMap_eraseIdx_slot (·.delta.guards) at_ (some a)
  have front : Evolves s.files.reps s.allFileGuards s.files.reps
      (c.val.files ++ (u.delta.guards ++ others)) := .of_count fun a => by
    have := away a
    have := delta a
    simp only [others, emptied, State.allFileGuards, VersionCenter.files, List.count_append,
      List.count_nil] at *
    omega
  refine (front.trans plusEquals_evolves).trans (.of_count fun a => ?_)
  have := away a
  have := back a
  have := delta a
  simp only [others, emptied, State.applyDelta, State.allFileGuards, VersionCenter.files,
    List.count_append, List.count_nil] at *
  omega

theorem inv_updateStep (inv : Inv s) {i : Nat} (taken : step s (.updateStep i) = some s') :
    Inv s' := by
  cases step_cases taken with
  | @updateStep _ u c at_ found =>
    rw [State.updateStep]
    split
    · have applied := inv_applyDelta inv at_ (List.mem_of_find?_eq_some found)
      have at' : (s.applyDelta c u.delta).updates[i]? = some u := at_
      exact applied.of_phase at' .applied s.disk s.published
    · exact inv.of_phase at_ .unlocked s.disk s.published
    · exact inv.of_phase at_ .described _ s.published
    · exact inv.of_phase at_ .published _ _
    · refine inv.of_evolves ?_ ?_ rfl rfl rfl rfl
      · refine (Evolves.of_count fun a => ?_).trans Evolves.releaseAll
        have gone := count_flatMap_eraseIdx_slot (·.delta.guards) at_ (some a)
        simp only [State.allFileGuards, files_ref deref_identity, List.count_append]
        omega
      · refine (Evolves.of_count fun a => ?_).trans Evolves.release
        have gone := count_map_eraseIdx_slot (·.guard) at_ (some a)
        simp only [State.allVersionGuards, List.count_cons, List.count_append, List.count_nil]
          at gone ⊢
        omega

theorem inv_inMemGC (inv : Inv s) (visiting : Option (List Nat)) :
    Inv { s.inMemGC with visiting } := by
  let swept := FrenzyKV.inMemGC s.files.reps s.versions
  have cells : Exact swept.2.versions s.allVersionGuards := inMemGC_exact inv.cells
  have versions : swept.2.Coherent := inv.versions.gc inv.cells
  exact inv.of_files_evolve inMemGC_evolves cells versions rfl rfl rfl

/-- Nothing but the disk and the walk over the versions changes. -/
theorem Inv.of_visit (inv : Inv s) (disk : Disk) (visiting : Option (List Nat)) :
    Inv { s with disk, visiting } :=
  inv.of_evolves .refl .refl rfl rfl rfl rfl

theorem inv_partitionFiles (inv : Inv s) (taken : step s .partitionFiles = some s') : Inv s' := by
  cases step_cases taken with
  | partitionFiles idle =>
    have none_gone : s.gone = [] := by rw [State.gone, idle]; rfl
    constructor
    case reps => exact inv.reps
    case cells => exact inv.cells
    case files => exact none_gone ▸ inv.files
    case versions => exact inv.versions
    case removing =>
      intro r running a mem
      obtain rfl := Option.some.inj running
      obtain ⟨c, hc, rfl⟩ := List.mem_map.mp mem
      obtain ⟨hc, zero⟩ := List.mem_filter.mp hc
      exact ⟨fun held => (inv.reps.refs_ne_zero_iff hc).mpr held (of_decide_eq_true zero), c, hc, rfl⟩
    case unlinked =>
      intro a mem
      rw [← none_gone]
      exact inv.unlinked a mem

theorem inv_unlinkFile (inv : Inv s) (taken : step s .unlinkFile = some s') : Inv s' := by
  cases step_cases taken with
  | @unlinkFile unlinked rest a running =>
    have gone : s.gone = unlinked := by rw [State.gone, running]; rfl
    obtain ⟨-, c, hc, rfl⟩ := inv.removing _ running a (by simp)
    have name : fileOf s.files.reps (some c.address) = c.val :=
      fileOf_address inv.reps.distinct hc
    constructor
    case reps => exact inv.reps
    case cells => exact inv.cells
    case files =>
      have erased := inv.files.eraseName inv.reps.distinct hc
      rwa [gone, ← name] at erased
    case versions => exact inv.versions
    case removing =>
      intro r running' a mem
      obtain rfl := Option.some.inj running'
      exact inv.removing _ running a (by simpa using mem)
    case unlinked =>
      intro a mem
      cases List.mem_append.mp mem with
      | inl old =>
        obtain ⟨low, out⟩ := inv.unlinked a old
        refine ⟨low, out.imp_left fun before => ?_⟩
        exact List.mem_append_left _ (gone ▸ before)
      | inr new =>
        obtain rfl := List.mem_singleton.mp new
        exact ⟨inv.files.allocated c hc, Or.inl (List.mem_append_right _ List.mem_cons_self)⟩

theorem inv_eraseFiles (inv : Inv s) (taken : step s .eraseFiles = some s') : Inv s' := by
  cases step_cases taken with
  | @eraseFiles unlinked running =>
    have gone : s.gone = unlinked := by rw [State.gone, running]; rfl
    constructor
    case reps =>
      refine inv.reps.collect fun c hc out => ?_
      exact (inv.removing _ running c.address (by simpa using out)).1
    case cells => exact inv.cells
    case files => exact (gone ▸ inv.files).eraseReps
    case versions => exact inv.versions
    case removing => exact fun r running' => by cases running'
    case unlinked =>
      intro a mem
      obtain ⟨low, out⟩ := inv.unlinked a mem
      refine ⟨low, Or.inr fun c hc => ?_⟩
      obtain ⟨old, kept⟩ := List.mem_filter.mp hc
      cases out with
      | inl before =>
        rintro rfl
        exact of_decide_eq_true kept (gone ▸ before)
      | inr absent => exact absent c old

theorem inv_load {d : Disk} (wf : d.WellFormed) (fresh : Nat) : Inv (State.load d fresh) := by
  obtain ⟨loaded, -⟩ := loadCurrentVersion_spec wf.sstables wf.descriptors fresh
  constructor
  case reps => simpa [State.allFileGuards, State.load] using loaded.reps
  case cells => simpa [State.allVersionGuards, State.load] using loaded.cells
  case files => exact loaded.coherent
  case versions => exact loaded.versions
  case removing => exact fun r running => by cases running
  case unlinked => simp [State.load]

end Guards

/-- Every step keeps the counts exact. -/
theorem inv_step {s s' : State} (inv : Inv s) {a : Action} (taken : step s a = some s') :
    Inv s' := by
  cases a with
  | getFile name => exact inv_getFile inv taken
  | fileGuard op => exact inv_fileGuard inv taken
  | fileOfVersion i k => exact inv_fileOfVersion inv taken
  | newDelta =>
    obtain rfl := Option.some.inj taken
    refine inv.of_file_guards (.of_count fun a => ?_) rfl rfl rfl rfl rfl rfl rfl
    simp [State.allFileGuards, GuardDelta.guards, GuardDelta.empty]
  | addNewFile d i => exact inv_addNewFile inv taken
  | addCompactedFile d i => exact inv_addCompactedFile inv taken
  | mergeDelta d e => exact inv_mergeDelta inv taken
  | dropDelta d => exact inv_dropDelta inv taken
  | currentVersion => exact inv_currentVersion inv taken
  | versionGuard op => exact inv_versionGuard inv taken
  | getSnapshot i => exact inv_getSnapshot inv taken
  | snapshot op => exact inv_snapshot inv taken
  | versionOfSnapshot k => exact inv_versionOfSnapshot inv taken
  | startUpdate d name => exact inv_startUpdate inv taken
  | updateStep i => exact inv_updateStep inv taken
  | versionGC =>
    cases step_cases taken with
    | versionGC free => exact inv_inMemGC inv s.visiting
  | lockVersions =>
    cases step_cases taken with
    | lockVersions free => exact inv.of_visit s.disk _
  | visitVersion =>
    cases step_cases taken with
    | visitVersion visiting => exact inv.of_visit _ _
  | eraseVersions =>
    cases step_cases taken with
    | eraseVersions visiting => exact inv_inMemGC inv none
  | partitionFiles => exact inv_partitionFiles inv taken
  | unlinkFile => exact inv_unlinkFile inv taken
  | eraseFiles => exact inv_eraseFiles inv taken

theorem inv_of_reach {P : Disk → Prop} {ok : State → Action → Prop} {s : State}
    (reached : Reach (machine P) ok s) : Inv s := by
  apply reached.invariant
  · rintro s ⟨d, fresh, wf, -, -, rfl⟩
    exact inv_load wf fresh
  · intro s a s' inv _ taken
    exact inv_step inv taken

theorem Inv.not_gone {s : State} (inv : Inv s) {a : Nat} (held : some a ∈ s.allFileGuards) :
    a ∉ s.gone := by
  intro out
  rw [State.gone] at out
  cases running : s.removing with
  | none => simp [running] at out
  | some r =>
    rw [running] at out
    exact (inv.removing r running a (List.mem_append_left _ out)).1 held

/-- A guarded file is in the table, under its name, and its file was never unlinked. -/
theorem Inv.file_held {s : State} (inv : Inv s) {a : Nat} (held : some a ∈ s.allFileGuards) :
    ∃ c ∈ s.files.reps, c.address = a ∧ s.files.nameRep.lookup c.val = some a ∧
      a ∉ s.unlinked := by
  obtain ⟨c, hc, rfl⟩ := inv.reps.held a held
  have notGone := inv.not_gone held
  refine ⟨c, hc, rfl, inv.files.mapped c hc notGone, fun out => ?_⟩
  cases (inv.unlinked _ out).2 with
  | inl gone => exact notGone gone
  | inr absent => exact absent c hc rfl

/-- In every interleaving the current version and the guarded ones are in the list, guarded
files are in the table, and all counts are the numbers of guards. -/
theorem collectors_spare_guarded {P : Disk → Prop} {s : State}
    (reached : Reach (machine P) (fun _ _ => True) s) :
    (∃ c ∈ s.versions.versions, s.versions.current = some c.address) ∧
      (∀ a, some a ∈ s.allVersionGuards → ∃ c ∈ s.versions.versions, c.address = a) ∧
      (∀ a, some a ∈ s.allFileGuards → ∃ c ∈ s.files.reps, c.address = a ∧
        s.files.nameRep.lookup c.val = some a ∧ a ∉ s.unlinked) ∧
      (∀ c ∈ s.versions.versions, c.refs = s.allVersionGuards.count (some c.address)) ∧
      ∀ c ∈ s.files.reps, c.refs = s.allFileGuards.count (some c.address) := by
  have inv := inv_of_reach reached
  obtain ⟨c, last, current⟩ := inv.versions.back
  exact ⟨⟨c, List.mem_of_getLast? last, current⟩, inv.cells.held, fun a held => inv.file_held held,
    inv.cells.counts, inv.reps.counts⟩

section Frames

variable {s s' : State} {a : Action}

def Action.keepsReps : Action → Bool
  | .getFile _ | .eraseFiles => false
  | _ => true

/-- Only `get_file` and the end of a collection add or remove reps. -/
theorem reps_identity (taken : step s a = some s') (keeps : a.keepsReps = true) :
    s'.files.reps.map Cell.identity = s.files.reps.map Cell.identity := by
  cases step_cases taken with
  | getFile idle => cases keeps
  | eraseFiles running => cases keeps
  | fileGuard done => exact GuardOp.run_identity done
  | fileOfVersion at_ found listed => exact ref_identity
  | dropDelta atDelta => exact derefAll_identity
  | startUpdate free atDelta new =>
    obtain ⟨back, -, eq, -⟩ := addNewVersion_cases new
    simp [eq]
  | updateStep at_ found =>
    rw [State.updateStep]
    split <;> simp [State.applyDelta]
  | versionGC free => exact derefAll_identity
  | eraseVersions visiting => exact derefAll_identity
  | _ => rfl

/-- A guard refers to the same file as long as it lives. -/
theorem fileOf_step (inv : Inv s) (taken : step s a = some s') {b : Nat}
    (held : some b ∈ s.allFileGuards) :
    fileOf s'.files.reps (some b) = fileOf s.files.reps (some b) := by
  by_cases keeps : a.keepsReps = true
  · exact fileOf_of_identity (reps_identity taken keeps)
  · cases step_cases taken with
    | @getFile name idle =>
      have none_gone : s.gone = [] := by rw [State.gone, idle]; rfl
      exact (FileCenter.getFile_spec (none_gone ▸ inv.files) inv.reps name).2.2.2 b held
    | @eraseFiles unlinked running =>
      obtain ⟨c, hc, rfl⟩ := inv.reps.held b held
      have kept : c.address ∉ unlinked := fun out =>
        (inv.removing _ running c.address (List.mem_append_left _ out)).1 held
      rw [fileOf_address inv.reps.distinct hc]
      apply fileOf_address (inv.reps.distinct.sublist List.filter_sublist)
      exact List.mem_filter.mpr ⟨hc, decide_eq_true kept⟩
    | _ => exact absurd rfl keeps

/-- Two guards on one file are guards on one rep. -/
theorem Inv.eq_of_fileOf (inv : Inv s) {b d : Nat} (hb : ∃ c ∈ s.files.reps, c.address = b)
    (hd : ∃ c ∈ s.files.reps, c.address = d)
    (same : fileOf s.files.reps (some b) = fileOf s.files.reps (some d)) : b = d := by
  obtain ⟨x, hx, rfl⟩ := hb
  obtain ⟨y, hy, rfl⟩ := hd
  rw [fileOf_address inv.reps.distinct hx, fileOf_address inv.reps.distinct hy] at same
  exact congrArg Cell.address (inv.files.eq_of_val hx hy same)

/-- The table of a guarded file stays on disk. -/
theorem table_step (inv : Inv s) (taken : step s a = some s') {b : Nat}
    (held : some b ∈ s.allFileGuards) (onDisk : fileOf s.files.reps (some b) ∈ s.disk.sstables) :
    fileOf s'.files.reps (some b) ∈ s'.disk.sstables := by
  rw [fileOf_step inv taken held]
  cases step_cases taken with
  | @unlinkFile unlinked rest d running =>
    obtain ⟨free, known⟩ := inv.removing _ running d (by simp)
    refine List.mem_filter.mpr ⟨onDisk, decide_eq_true fun same => ?_⟩
    obtain rfl := inv.eq_of_fileOf (inv.reps.held b held) known same
    exact free held
  | addNewFile atDelta atGuard => exact List.mem_append_left _ onDisk
  | updateStep at_ found =>
    rw [State.updateStep]
    split <;> exact onDisk
  | visitVersion visiting =>
    simp only [State.visitVersion]
    split
    · split <;> exact onDisk
    · exact onDisk
  | _ => exact onDisk

def Action.erases : Action → Bool
  | .versionGC | .eraseVersions => true
  | _ => false

/-- A version stays as it is while it is not erased and no delta is applied to it. -/
theorem cell_step (taken : step s a = some s') {c : Cell VersionRep}
    (hc : c ∈ s.versions.versions) (kept : a.erases = true → c.refs ≠ 0)
    (settled : ∀ i u, a = .updateStep i → s.updates[i]? = some u → u.phase = .added →
      u.guard ≠ some c.address) :
    ∃ c' ∈ s'.versions.versions, c'.address = c.address ∧ c'.val = c.val := by
  have same : ∀ cells : List (Cell VersionRep),
      cells.map Cell.identity = s.versions.versions.map Cell.identity →
      ∃ c' ∈ cells, c'.address = c.address ∧ c'.val = c.val := fun cells identity =>
    mem_of_identity identity.symm hc
  have swept : a.erases = true → c ∈ s.inMemGC.versions.versions := fun erases =>
    List.mem_filter.mpr ⟨hc, decide_eq_true (kept erases)⟩
  cases step_cases taken with
  | currentVersion free => exact same _ ref_identity
  | versionGuard done => exact same _ (GuardOp.run_identity done)
  | snapshot done => exact same _ (GuardOp.run_identity done)
  | versionOfSnapshot at_ => exact same _ ref_identity
  | @startUpdate d name delta added free atDelta new =>
    obtain ⟨back, -, -, -, -, identity⟩ := addNewVersion_cases new
    have mem : c.identity ∈ added.2.versions.map Cell.identity :=
      identity ▸ List.mem_append_left _ (List.mem_map_of_mem hc)
    obtain ⟨c', hc', eq⟩ := List.mem_map.mp mem
    obtain ⟨address, val⟩ := Prod.mk.inj eq
    exact ⟨c', hc', address, val⟩
  | @updateStep i u v at_ found =>
    rw [State.updateStep]
    split
    · rename_i phase
      have guard : u.guard = some v.address := by
        simpa using List.find?_some found
      have other : c.address ≠ v.address := fun eq =>
        settled i u rfl at_ phase (guard.trans (congrArg some eq.symm))
      refine ⟨c, ?_, rfl, rfl⟩
      exact List.mem_map.mpr ⟨c, hc, if_neg other⟩
    · exact ⟨c, hc, rfl, rfl⟩
    · exact ⟨c, hc, rfl, rfl⟩
    · exact ⟨c, hc, rfl, rfl⟩
    · exact same _ deref_identity
  | versionGC free => exact ⟨c, swept rfl, rfl, rfl⟩
  | eraseVersions visiting => exact ⟨c, swept rfl, rfl, rfl⟩
  | _ => exact ⟨c, hc, rfl, rfl⟩

end Frames

section Runs

def tableFile (n : Nat) : File := ⟨0, n, n, default⟩

/-- One table, listed by the current version. -/
def oneTable : Disk := ⟨[], [tableFile 1], [(0, [tableFile 1])], some 0, []⟩

theorem oneTable_initial {P : Disk → Prop} (meets : P oneTable) :
    (machine P).init (State.load oneTable 7) :=
  ⟨oneTable, 7, ⟨by decide +kernel, by decide +kernel⟩, by decide +kernel, meets, rfl⟩

/-- An update replaces the table while a reader holds the old version; then the reader
leaves and both collectors run. -/
def replaceTable : List Action :=
  [.currentVersion, .fileOfVersion 0 0, .newDelta, .addCompactedFile 0 0, .getFile (tableFile 2),
    .addNewFile 0 1, .startUpdate 0 5, .updateStep 0, .updateStep 0, .updateStep 0, .updateStep 0,
    .updateStep 0, .versionGuard (.copy 0), .versionGuard (.moveAssign 1 0),
    .versionGuard (.release 0), .lockVersions, .visitVersion, .visitVersion, .eraseVersions,
    .partitionFiles, .unlinkFile, .eraseFiles]

theorem collectors_spare_guarded_replaceTable :
    ∃ s, (machine fun _ => True).run (State.load oneTable 7) replaceTable = some s ∧
      s.unlinked = [0] ∧ s.disk.sstables = [tableFile 2] ∧
      ∀ c ∈ s.files.reps, c.refs = s.allFileGuards.count (some c.address) := by
  obtain ⟨s, ran, unlinked, left⟩ : ∃ s ∈ (machine fun _ => True).run (State.load oneTable 7)
      replaceTable, s.unlinked = [0] ∧ s.disk.sstables = [tableFile 2] := by decide +kernel
  have reached : Reach (machine fun _ => True) (fun _ _ => True) s :=
    Machine.reach_of_run _ (fun _ _ => trivial) (.init (oneTable_initial trivial)) ran
  exact ⟨s, ran, unlinked, left, (collectors_spare_guarded reached).2.2.2.2⟩

end Runs

end FrenzyKV.Collection
