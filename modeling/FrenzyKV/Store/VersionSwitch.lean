import Mathlib.Data.Fintype.EquivFin
import FrenzyKV.Framework.CrashStates
import FrenzyKV.Store.GuardCounts

namespace FrenzyKV.VersionSwitch

open Framework RefCount Collection

/-- The persistent effects of `update_current_version` and of the end of `flush_to_disk`. -/
def switchEffects (name : Nat) (files : Version File) : List DiskEffect :=
  .writeDescriptor name files :: setCurrentVersionFile name

/-- The files of the current version in memory. -/
def currentFiles (s : State) : Version File :=
  ((s.version? s.versions.current).map fun c => names s.files.reps c.val.files).getD []

def SameFiles (v w : Version File) : Prop := ∀ f, f ∈ v ↔ f ∈ w

/-- The steps of `do_GC`. -/
def collects : Action → Bool
  | .lockVersions | .visitVersion | .eraseVersions | .partitionFiles | .unlinkFile | .eraseFiles =>
    true
  | _ => false

/-- The database after a restart on the disk. -/
def restart (t : Disk) (fresh : Nat) : Machine State Action where
  init s := s = State.load t fresh
  step := step

/-- A restart loads the old or the new version, and the collectors spare its tables. -/
def Switched (old new : Version File) (t : Disk) : Prop :=
  ∀ fresh, t.FreshName fresh →
    (SameFiles (currentFiles (State.load t fresh)) old ∨
      SameFiles (currentFiles (State.load t fresh)) new) ∧
    ∀ s, Reach (restart t fresh) (fun _ a => collects a = true) s →
      ∀ f ∈ currentFiles (State.load t fresh), f ∈ t.sstables → f ∈ s.disk.sstables

variable {d t : Disk} {name fresh : Nat} {files : Version File}

/-- The two disk steps of an update in the interleaved model are these effects. -/
theorem updateStep_switchEffects (s : State) (i : Nat) (u : Update) (c : Cell VersionRep) :
    let described := s.updateStep i { u with phase := .unlocked } c
    (described.updateStep i { u with phase := .described } c).disk =
      s.disk.applyAll (switchEffects c.val.name (names s.files.reps c.val.files)) := rfl

theorem mem_crashStates_switch :
    t ∈ crashStates Disk.apply d (switchEffects name files) ↔
      t = d ∨ t = d.apply (.writeDescriptor name files) ∨
        t = (d.apply (.writeDescriptor name files)).apply .truncateCurrent ∨
        t = (d.apply (.writeDescriptor name files)).applyAll (setCurrentVersionFile name) := by
  simp only [switchEffects, setCurrentVersionFile, crashStates, List.mem_cons, List.not_mem_nil,
    or_false]
  -- the sync changes nothing that a crash of the process takes
  have synced : ∀ x : Disk, x.apply .syncCurrent = x := fun x => rfl
  simp only [synced, or_self]
  rfl

theorem wellFormed_of_crash (wf : d.WellFormed) (new : d.FreshName name)
    (mem : t ∈ crashStates Disk.apply d (switchEffects name files)) : t.WellFormed := by
  have described : (d.apply (.writeDescriptor name files)).WellFormed := by
    refine ⟨wf.sstables, ?_⟩
    change ((d.descriptors ++ [(name, files)]).map (·.1)).Nodup
    rw [List.map_append, List.nodup_append]
    refine ⟨wf.descriptors, List.nodup_singleton _, fun n hn m hm same => ?_⟩
    obtain ⟨p, hp, rfl⟩ := List.mem_map.mp hn
    obtain rfl := List.mem_singleton.mp hm
    exact new.2 p hp same
  rcases mem_crashStates_switch.mp mem with rfl | rfl | rfl | rfl
  · exact wf
  · exact described
  · exact ⟨described.sstables, described.descriptors⟩
  · exact ⟨described.sstables, described.descriptors⟩

theorem currentFiles_load (wf : t.WellFormed) (fresh : Nat) :
    currentFiles (State.load t fresh) = t.getCurrentVersion := by
  obtain ⟨loaded, c, hc, current, -, -, listed, -⟩ :=
    loadCurrentVersion_spec wf.sstables wf.descriptors fresh
  have found : (State.load t fresh).version? (State.load t fresh).versions.current = some c := by
    rw [show (State.load t fresh).versions.current = some c.address from current]
    exact find?_address loaded.cells.distinct hc
  rw [currentFiles, found]
  exact listed

/-- What holds while the collectors run: the current version and its tables stay. -/
structure Spared (t : Disk) (files : List Guard) (listed : Guard → File) (s : State) : Prop where
  inv : Inv s
  idle : s.updates = []
  current : ∃ c ∈ s.versions.versions, s.versions.current = some c.address ∧ c.val.files = files
  same : ∀ g ∈ files, fileOf s.files.reps g = listed g
  stored : ∀ g ∈ files, listed g ∈ t.sstables → listed g ∈ s.disk.sstables

theorem Spared.step {s s' : State} {gs : List Guard} {listed : Guard → File}
    (nonnull : ∀ g ∈ gs, ∃ a, g = some a) (spared : Spared t gs listed s) {a : Action}
    (collecting : collects a = true) (taken : step s a = some s') : Spared t gs listed s' := by
  obtain ⟨c, hc, current, eq⟩ := spared.current
  have used : c.refs ≠ 0 := (spared.inv.cells.refs_ne_zero_iff hc).mpr (by
    rw [State.allVersionGuards, current]
    exact List.mem_cons_self)
  have held : ∀ g ∈ gs, g ∈ s.allFileGuards := fun g hg =>
    List.mem_append_left _ (List.mem_flatMap.mpr ⟨c, hc, eq ▸ hg⟩)
  have kept := cell_step taken hc (fun _ => used) (by simp [spared.idle])
  constructor
  case inv => exact inv_step spared.inv taken
  case idle =>
    have := spared.idle
    cases a <;> simp only [collects, reduceCtorEq] at collecting <;>
      grind [Collection.step, State.inMemGC, State.unlinkFile]
  case current =>
    obtain ⟨c', hc', address, val⟩ := kept
    refine ⟨c', hc', ?_, val ▸ eq⟩
    have still : s'.versions.current = s.versions.current := by
      cases a <;> simp only [collects, reduceCtorEq] at collecting <;>
        grind [Collection.step, State.inMemGC, FrenzyKV.inMemGC, State.unlinkFile]
    rw [still, current, address]
  case same =>
    intro g hg
    obtain ⟨b, rfl⟩ := nonnull g hg
    exact (fileOf_step spared.inv taken (held _ hg)).trans (spared.same _ hg)
  case stored =>
    intro g hg before
    obtain ⟨b, rfl⟩ := nonnull g hg
    have now := table_step spared.inv taken (held _ hg)
      ((spared.same _ hg).symm ▸ spared.stored _ hg before)
    rwa [fileOf_step spared.inv taken (held _ hg), spared.same _ hg] at now

/-- The collectors never take a table of the version that was loaded. -/
theorem loaded_spared (wf : t.WellFormed) {s : State}
    (reached : Reach (restart t fresh) (fun _ a => collects a = true) s) :
    ∀ f ∈ currentFiles (State.load t fresh), f ∈ t.sstables → f ∈ s.disk.sstables := by
  obtain ⟨-, c, hc, current, -, -, listed, nonnull⟩ :=
    loadCurrentVersion_spec wf.sstables wf.descriptors fresh
  have spared : Spared t c.val.files (fileOf (State.load t fresh).files.reps) s := by
    apply reached.invariant
    · rintro s rfl
      exact ⟨inv_load wf fresh, rfl, ⟨c, hc, current, rfl⟩, fun g _ => rfl, fun g _ on => on⟩
    · intro s a s' spared collecting taken
      exact spared.step nonnull collecting taken
  intro f hf on
  rw [currentFiles_load wf, ← listed] at hf
  obtain ⟨g, hg, rfl⟩ := List.mem_map.mp hf
  exact spared.stored g hg on

theorem switched_iff (wf : t.WellFormed) (new : ∃ fresh, t.FreshName fresh) {old v : Version File} :
    Switched old v t ↔ SameFiles t.getCurrentVersion old ∨ SameFiles t.getCurrentVersion v := by
  constructor
  · intro switched
    obtain ⟨fresh, isFresh⟩ := new
    exact currentFiles_load wf fresh ▸ (switched fresh isFresh).1
  · intro same fresh isFresh
    exact ⟨currentFiles_load wf fresh ▸ same, fun s reached => loaded_spared wf reached⟩

theorem sameFiles_nil_iff {v : Version File} : SameFiles [] v ↔ v = [] := by
  rw [SameFiles, List.eq_nil_iff_forall_not_mem]
  simp

/-- There is always a name that no file has. -/
theorem exists_freshName (t : Disk) : ∃ fresh, t.FreshName fresh := by
  obtain ⟨fresh, free⟩ := Infinite.exists_notMem_finset
    (t.current.toList ++ t.descriptors.map (·.1)).toFinset
  simp only [List.mem_toFinset, List.mem_append, not_or] at free
  refine ⟨fresh, fun named => free.1 (by simp [named]), fun p hp same => free.2 ?_⟩
  exact List.mem_map.mpr ⟨p, hp, same⟩

/-- Every crash point leads to the old or to the new version exactly if one of them is
empty, as the one in between is. -/
theorem switch_atomic_iff (wf : d.WellFormed) (isFresh : d.FreshName name) (delta : VersionDelta) :
    (∀ t ∈ crashStates Disk.apply d (switchEffects name (d.getCurrentVersion.apply delta)),
      Switched d.getCurrentVersion (d.getCurrentVersion.apply delta) t) ↔
      d.getCurrentVersion = [] ∨ d.getCurrentVersion.apply delta = [] := by
  let new := d.getCurrentVersion.apply delta
  have iff : ∀ t ∈ crashStates Disk.apply d (switchEffects name new),
      (Switched d.getCurrentVersion new t ↔
        SameFiles t.getCurrentVersion d.getCurrentVersion ∨ SameFiles t.getCurrentVersion new) :=
    fun t mem => switched_iff (wellFormed_of_crash wf isFresh mem) (exists_freshName t)
  constructor
  · intro switched
    have truncated : (d.apply (.writeDescriptor name new)).apply .truncateCurrent ∈
        crashStates Disk.apply d (switchEffects name new) :=
      mem_crashStates_switch.mpr (Or.inr (Or.inr (Or.inl rfl)))
    have loaded := (iff _ truncated).mp (switched _ truncated)
    exact loaded.imp sameFiles_nil_iff.mp sameFiles_nil_iff.mp
  · intro empty t mem
    apply (iff t mem).mpr
    rcases mem_crashStates_switch.mp mem with rfl | rfl | rfl | rfl
    · exact Or.inl fun f => Iff.rfl
    · rw [Disk.getCurrentVersion_writeDescriptor isFresh]
      exact Or.inl fun f => Iff.rfl
    · exact empty.imp sameFiles_nil_iff.mpr sameFiles_nil_iff.mpr
    · rw [Disk.getCurrentVersion_setCurrent isFresh]
      exact Or.inr fun f => Iff.rfl

section Examples

/-- The first table of an empty database has been written. -/
def firstTable : Disk := ⟨[], [tableFile 1], [], none, []⟩

theorem switch_atomic_firstTable :
    firstTable.WellFormed ∧ firstTable.FreshName 5 ∧
      ∀ t ∈ crashStates Disk.apply firstTable
          (switchEffects 5 (firstTable.getCurrentVersion.apply ⟨[], [tableFile 1]⟩)),
        Switched firstTable.getCurrentVersion
          (firstTable.getCurrentVersion.apply ⟨[], [tableFile 1]⟩) t := by
  have wf : firstTable.WellFormed := ⟨by decide +kernel, by decide +kernel⟩
  have isFresh : firstTable.FreshName 5 := by decide +kernel
  exact ⟨wf, isFresh, (switch_atomic_iff wf isFresh _).mpr (Or.inl rfl)⟩

/-- One table is listed and a second one is to be added. -/
def secondTable : Disk := ⟨[], [tableFile 1, tableFile 2], [(0, [tableFile 1])], some 0, []⟩

def doGC : List Action :=
  [.lockVersions, .visitVersion, .visitVersion, .visitVersion, .eraseVersions, .partitionFiles,
    .unlinkFile, .unlinkFile, .eraseFiles]

/-- A crash right after the current-version file was truncated: the restart loads an empty
version and its first collection deletes both tables. -/
theorem switch_loses_tables :
    ∃ t ∈ crashStates Disk.apply secondTable
        (switchEffects 5 (secondTable.getCurrentVersion.apply ⟨[], [tableFile 2]⟩)),
      ¬ Switched secondTable.getCurrentVersion
        (secondTable.getCurrentVersion.apply ⟨[], [tableFile 2]⟩) t ∧
      ∃ s, Reach (restart t 7) (fun _ a => collects a = true) s ∧ s.disk.sstables = [] := by
  let new := secondTable.getCurrentVersion.apply ⟨[], [tableFile 2]⟩
  let t := (secondTable.apply (.writeDescriptor 5 new)).apply .truncateCurrent
  have mem : t ∈ crashStates Disk.apply secondTable (switchEffects 5 new) :=
    mem_crashStates_switch.mpr (Or.inr (Or.inr (Or.inl rfl)))
  have wf : t.WellFormed := ⟨by decide +kernel, by decide +kernel⟩
  refine ⟨t, mem, fun switched => ?_, ?_⟩
  · have loaded := (switched_iff wf (exists_freshName t)).mp switched
    have empty : secondTable.getCurrentVersion = [] ∨ new = [] :=
      loaded.imp sameFiles_nil_iff.mp sameFiles_nil_iff.mp
    exact absurd empty (by decide +kernel)
  · obtain ⟨s, ran, gone⟩ : ∃ s ∈ ((restart t 7).restrict (fun _ a => collects a = true)).run
        (State.load t 7) doGC, s.disk.sstables = [] := by decide +kernel
    exact ⟨s, Machine.reach_of_restrict
      (Machine.reach_of_run _ (fun _ _ => trivial) (.init rfl) ran), gone⟩

end Examples

end FrenzyKV.VersionSwitch
