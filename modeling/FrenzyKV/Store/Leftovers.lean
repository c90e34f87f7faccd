import FrenzyKV.Store.GuardCounts

/-! What the collectors leave behind: every table and every descriptor on disk is known in memory
while no sweep of the versions outruns the unlinking, and a collection that runs alone leaves what
guards refer to (`db/garbage_collector.cc`). -/

namespace FrenzyKV.Collection

open Framework RefCount

/-- Every table on disk has a rep that is not unlinked, and every descriptor a version. -/
structure Tracked (s : State) : Prop where
  tables : ∀ f ∈ s.disk.sstables, ∃ c ∈ s.files.reps, c.val = f ∧ c.address ∉ s.gone
  descriptors : ∀ p ∈ s.disk.descriptors, ∃ c ∈ s.versions.versions, c.val.name = p.1

/-- A sweep takes no version whose descriptor is still there. -/
def SweepsUnlinked (s : State) (a : Action) : Prop :=
  a.erases = true → ∀ c ∈ s.versions.versions, c.refs = 0 → ∀ p ∈ s.disk.descriptors, p.1 ≠ c.val.name

instance (s : State) (a : Action) : Decidable (SweepsUnlinked s a) :=
  inferInstanceAs (Decidable (a.erases = true → ∀ c ∈ s.versions.versions, c.refs = 0 →
    ∀ p ∈ s.disk.descriptors, p.1 ≠ c.val.name))

section Steps

variable {s s' : State} {a : Action}

theorem tables_step (inv : Inv s) (taken : step s a = some s')
    (tables : ∀ f ∈ s.disk.sstables, ∃ c ∈ s.files.reps, c.val = f ∧ c.address ∉ s.gone) :
    ∀ f ∈ s'.disk.sstables, ∃ c ∈ s'.files.reps, c.val = f ∧ c.address ∉ s'.gone := by
  -- most steps keep the reps and the tables
  have same : s'.files.reps.map Cell.identity = s.files.reps.map Cell.identity →
      s'.disk.sstables = s.disk.sstables → s'.gone = s.gone →
      ∀ f ∈ s'.disk.sstables, ∃ c ∈ s'.files.reps, c.val = f ∧ c.address ∉ s'.gone := by
    intro identity disk gone f mem
    obtain ⟨c, hc, val, there⟩ := tables f (disk ▸ mem)
    obtain ⟨c', hc', address, val'⟩ := mem_of_identity identity.symm hc
    exact ⟨c', hc', val'.trans val, by rw [address, gone]; exact there⟩
  have keeps := @reps_identity s s' a taken
  cases step_cases taken with
  | @getFile name idle =>
    intro f mem
    obtain ⟨c, hc, val, there⟩ := tables f mem
    obtain ⟨c', hc', address, val'⟩ := FileCenter.kept_getFile s.files name hc
    exact ⟨c', hc', val'.trans val, by rw [address]; exact there⟩
  | @addNewFile d i b delta atDelta atGuard =>
    intro f mem
    cases List.mem_append.mp mem with
    | inl old => exact tables f old
    | inr new =>
      have held : some b ∈ s.allFileGuards :=
        List.mem_append_right _ (List.mem_append_left _ (List.mem_of_getElem? atGuard))
      obtain ⟨c, hc, rfl, -⟩ := inv.file_held held
      refine ⟨c, hc, ?_, inv.not_gone held⟩
      rw [List.mem_singleton.mp new, fileOf_address inv.reps.distinct hc]
  | updateStep at_ found =>
    refine same (keeps rfl) ?_ ?_
    · rw [State.updateStep]
      split <;> rfl
    · rw [State.updateStep]
      split <;> rfl
  | @visitVersion b rest visiting =>
    refine same (keeps rfl) ?_ rfl
    simp only [State.visitVersion]
    split
    · split <;> rfl
    · rfl
  | @unlinkFile unlinked rest b running =>
    have gone : s.gone = unlinked := by rw [State.gone, running]; rfl
    intro f mem
    obtain ⟨old, other⟩ := List.mem_filter.mp mem
    obtain ⟨c, hc, rfl, there⟩ := tables f old
    refine ⟨c, hc, rfl, fun out => ?_⟩
    cases List.mem_append.mp out with
    | inl before => exact there (gone ▸ before)
    | inr now =>
      refine of_decide_eq_true other ?_
      rw [← List.mem_singleton.mp now, fileOf_address inv.reps.distinct hc]
  | @eraseFiles unlinked running =>
    have gone : s.gone = unlinked := by rw [State.gone, running]; rfl
    intro f mem
    obtain ⟨c, hc, val, there⟩ := tables f mem
    exact ⟨c, List.mem_filter.mpr ⟨hc, decide_eq_true (gone ▸ there)⟩, val, List.not_mem_nil⟩
  | partitionFiles idle =>
    exact same (keeps rfl) rfl (by rw [State.gone, State.gone, idle]; rfl)
  | _ => exact same (keeps rfl) rfl rfl

theorem descriptors_step (inv : Inv s) (taken : step s a = some s')
    (descriptors : ∀ p ∈ s.disk.descriptors, ∃ c ∈ s.versions.versions, c.val.name = p.1) :
    (∀ p ∈ s'.disk.descriptors, ∃ c ∈ s'.versions.versions, c.val.name = p.1) ↔ SweepsUnlinked s a := by
  have still : ∀ cells : List (Cell VersionRep),
      cells.map Cell.identity = s.versions.versions.map Cell.identity →
      ∀ p ∈ s.disk.descriptors, ∃ c ∈ cells, c.val.name = p.1 := by
    intro cells identity p mem
    obtain ⟨c, hc, name⟩ := descriptors p mem
    obtain ⟨c', hc', -, val⟩ := mem_of_identity identity.symm hc
    exact ⟨c', hc', val ▸ name⟩
  have swept : (∀ p ∈ s.disk.descriptors, ∃ c ∈ s.inMemGC.versions.versions, c.val.name = p.1) ↔
      ∀ c ∈ s.versions.versions, c.refs = 0 → ∀ p ∈ s.disk.descriptors, p.1 ≠ c.val.name := by
    constructor
    · intro all c hc zero p mem same
      obtain ⟨d, hd, name⟩ := all p mem
      obtain ⟨hd, kept⟩ := List.mem_filter.mp hd
      obtain rfl := inv.versions.eq_of_name hd hc (name.trans same)
      exact of_decide_eq_true kept zero
    · intro none_left p mem
      obtain ⟨c, hc, name⟩ := descriptors p mem
      refine ⟨c, List.mem_filter.mpr ⟨hc, decide_eq_true fun zero => ?_⟩, name⟩
      exact none_left c hc zero p mem name.symm
  have idle : a.erases = false → (SweepsUnlinked s a ↔ True) := fun no =>
    iff_true_intro fun yes => absurd (no.symm.trans yes) Bool.false_ne_true
  cases step_cases taken with
  | currentVersion free => exact (iff_true_intro (still _ ref_identity)).trans (idle rfl).symm
  | versionGuard done => exact (iff_true_intro (still _ (GuardOp.run_identity done))).trans (idle rfl).symm
  | snapshot done => exact (iff_true_intro (still _ (GuardOp.run_identity done))).trans (idle rfl).symm
  | versionOfSnapshot at_ => exact (iff_true_intro (still _ ref_identity)).trans (idle rfl).symm
  | @startUpdate d name delta added free atDelta new =>
    obtain ⟨back, -, -, -, -, identity⟩ := addNewVersion_cases new
    refine (iff_true_intro fun p mem => ?_).trans (idle rfl).symm
    obtain ⟨c, hc, name⟩ := descriptors p mem
    have mem : c.identity ∈ added.2.versions.map Cell.identity :=
      identity ▸ List.mem_append_left _ (List.mem_map_of_mem hc)
    obtain ⟨c', hc', eq⟩ := List.mem_map.mp mem
    exact ⟨c', hc', (congrArg VersionRep.name (Prod.mk.inj eq).2).trans name⟩
  | @updateStep i u v at_ found =>
    refine (iff_true_intro ?_).trans (idle rfl).symm
    rw [State.updateStep]
    split
    · intro p mem
      obtain ⟨c, hc, name⟩ := descriptors p mem
      refine ⟨_, List.mem_map_of_mem hc, ?_⟩
      split
      · exact name
      · exact name
    · exact descriptors
    · intro p mem
      cases List.mem_append.mp mem with
      | inl old => exact descriptors p old
      | inr new =>
        rw [List.mem_singleton.mp new]
        exact ⟨v, List.mem_of_find?_eq_some found, rfl⟩
    · exact descriptors
    · exact still _ deref_identity
  | versionGC free => exact swept.trans ⟨fun left _ => left, fun out => out rfl⟩
  | eraseVersions visiting => exact swept.trans ⟨fun left _ => left, fun out => out rfl⟩
  | @visitVersion b rest visiting =>
    refine (iff_true_intro fun p mem => descriptors p ?_).trans (idle rfl).symm
    simp only [State.visitVersion] at mem
    split at mem
    · split at mem
      · exact (List.mem_filter.mp mem).1
      · exact mem
    · exact mem
  | _ => exact (iff_true_intro descriptors).trans (idle rfl).symm

theorem tracked_step (inv : Inv s) (tracked : Tracked s) (taken : step s a = some s') :
    Tracked s' ↔ SweepsUnlinked s a :=
  ⟨fun tracked' => (descriptors_step inv taken tracked.descriptors).mp tracked'.descriptors,
    fun out => ⟨tables_step inv taken tracked.tables,
      (descriptors_step inv taken tracked.descriptors).mpr out⟩⟩

end Steps

section Load

/-- `fc'` has the reps of `fc`, and maybe more. -/
def Keeps (fc fc' : FileCenter) : Prop :=
  ∀ c ∈ fc.reps, ∃ c' ∈ fc'.reps, c'.address = c.address ∧ c'.val = c.val

theorem Keeps.trans {fc fc' fc'' : FileCenter} (first : Keeps fc fc') (second : Keeps fc' fc'') :
    Keeps fc fc'' := by
  intro c hc
  obtain ⟨c', hc', address, val⟩ := first c hc
  obtain ⟨c'', hc'', address', val'⟩ := second c' hc'
  exact ⟨c'', hc'', address'.trans address, val'.trans val⟩

theorem keeps_of_identity {fc : FileCenter} {reps : List (Cell File)}
    (same : reps.map Cell.identity = fc.reps.map Cell.identity) : Keeps fc { fc with reps } :=
  fun _ hc => mem_of_identity same.symm hc

theorem keeps_getFiles (fc : FileCenter) (files : List File) : Keeps fc (fc.getFiles files).1 := by
  induction files generalizing fc with
  | nil => exact fun c hc => ⟨c, hc, rfl, rfl⟩
  | cons name rest ih => exact Keeps.trans (fun c hc => fc.kept_getFile name hc) (ih _)

theorem keeps_loadVersion (fc : FileCenter) (name : Nat) (files : List File) :
    Keeps fc (loadVersion fc name files).1 :=
  (keeps_getFiles fc files).trans (keeps_of_identity (by simp))

theorem loadOthers_keeps (d : Disk) (fc : FileCenter) (vc : VersionCenter) (rest : List Nat) :
    Keeps fc (loadOthers d fc vc rest).1 ∧ (∀ c ∈ vc.versions, c ∈ (loadOthers d fc vc rest).2.versions) ∧
      ∀ n ∈ rest, ∃ c ∈ (loadOthers d fc vc rest).2.versions, c.val.name = n := by
  induction rest generalizing fc vc with
  | nil => exact ⟨fun c hc => ⟨c, hc, rfl, rfl⟩, fun c hc => hc, fun n mem => absurd mem List.not_mem_nil⟩
  | cons n rest ih =>
    obtain ⟨kept, before, named⟩ := ih (loadVersion fc n (d.getVersion n)).1 { vc with
      versions := ⟨vc.allocated, 0, (loadVersion fc n (d.getVersion n)).2⟩ :: vc.versions
      allocated := vc.allocated + 1 }
    refine ⟨(keeps_loadVersion fc n _).trans kept, fun c hc => before c (List.mem_cons_of_mem _ hc), ?_⟩
    intro m mem
    cases List.mem_cons.mp mem with
    | inl eq => exact ⟨_, before _ List.mem_cons_self, eq.symm⟩
    | inr later => exact named m later

theorem val_mem_loadFiles {sstables : List File} {f : File} (mem : f ∈ sstables) :
    ∃ c ∈ (FileCenter.loadFiles sstables).reps, c.val = f := by
  have loop : ∀ (l : List File) (fc : FileCenter), (f ∈ l ∨ ∃ c ∈ fc.reps, c.val = f) →
      ∃ c ∈ (l.foldl FileCenter.emplace fc).reps, c.val = f := by
    intro l
    induction l with
    | nil => exact fun fc here => here.resolve_left List.not_mem_nil
    | cons g l ih =>
      intro fc here
      refine ih (fc.emplace g) ?_
      rcases here with mem | ⟨c, hc, val⟩
      · cases List.mem_cons.mp mem with
        | inl eq => exact .inr ⟨_, List.mem_append_right _ List.mem_cons_self, eq.symm⟩
        | inr later => exact .inl later
      · exact .inr ⟨c, List.mem_append_left _ hc, val⟩
  exact loop sstables FileCenter.empty (.inl mem)

/-- What lies in the directory is known once it is loaded. -/
theorem tracked_load (d : Disk) (fresh : Nat) : Tracked (State.load d fresh) := by
  obtain ⟨kept, before, named⟩ := loadOthers_keeps d
    (loadVersion (FileCenter.loadFiles d.sstables) (d.current.getD fresh) d.getCurrentVersion).1
    ⟨ref [⟨0, 0, (loadVersion (FileCenter.loadFiles d.sstables) (d.current.getD fresh)
      d.getCurrentVersion).2⟩] (some 0), some 0, 1⟩
    ((d.descriptors.map (·.1)).filter (· ≠ d.current.getD fresh))
  constructor
  case tables =>
    intro f mem
    obtain ⟨c, hc, val⟩ := val_mem_loadFiles mem
    obtain ⟨c', hc', -, val'⟩ := (keeps_loadVersion _ _ _).trans kept c hc
    exact ⟨c', hc', val'.trans val, List.not_mem_nil⟩
  case descriptors =>
    intro p mem
    by_cases current : p.1 = d.current.getD fresh
    · exact ⟨_, before _ (List.mem_singleton.mpr rfl), current.symm⟩
    · exact named p.1 (List.mem_filter.mpr ⟨List.mem_map_of_mem mem, decide_eq_true current⟩)

end Load

/-- In every run everything on disk stays known in memory exactly as long as no sweep of the versions
outruns the unlinking of their descriptors. -/
theorem tracked_iff {P : Disk → Prop} {d : Disk} (wf : d.WellFormed) (fresh : Nat) (as : List Action) :
    (machine P).Throughout Tracked (State.load d fresh) as ↔
      (machine P).StepsMeet SweepsUnlinked (State.load d fresh) as :=
  Machine.throughout_iff_of_invariant (fun _ _ _ inv taken => inv_step inv taken)
    (fun _ _ _ inv tracked taken => tracked_step inv tracked taken) (inv_load wf fresh)
    (tracked_load d fresh)

/-- A reader holds the old version until the collection has walked past it. -/
def lateRelease : List Action :=
  [.currentVersion, .newDelta, .getFile (tableFile 2), .addNewFile 0 0, .startUpdate 0 5,
    .updateStep 0, .updateStep 0, .updateStep 0, .updateStep 0, .updateStep 0, .lockVersions,
    .visitVersion, .versionGuard (.release 0), .visitVersion, .eraseVersions]

/-- The descriptor of the old version stays on disk with nothing in memory that knows of it. -/
theorem tracked_lateRelease :
    ∃ s, (machine fun _ => True).run (State.load oneTable 7) lateRelease = some s ∧
      (∃ p ∈ s.disk.descriptors, ∀ c ∈ s.versions.versions, c.val.name ≠ p.1) ∧
      ((machine fun _ => True).Throughout Tracked (State.load oneTable 7) lateRelease ↔
        (machine fun _ => True).StepsMeet SweepsUnlinked (State.load oneTable 7) lateRelease) := by
  obtain ⟨s, ran, leaked⟩ : ∃ s ∈ (machine fun _ => True).run (State.load oneTable 7) lateRelease,
      ∃ p ∈ s.disk.descriptors, ∀ c ∈ s.versions.versions, c.val.name ≠ p.1 := by decide +kernel
  exact ⟨s, ran, leaked, tracked_iff ⟨by decide +kernel, by decide +kernel⟩ 7 lateRelease⟩

section Alone

variable {s : State} {P : Disk → Prop}

theorem inv_run {s' : State} {as : List Action} (inv : Inv s) (ran : (machine P).run s as = some s') :
    Inv s' :=
  Machine.invariant_of_run (P := Inv) (fun _ _ _ before taken => inv_step before taken) inv ran

/-- What the walk over the versions `as` leaves of the descriptors. -/
def State.unvisited (s : State) (as : List Nat) (p : Nat × List File) : Bool :=
  as.all fun a => (s.version? (some a)).all fun c => !(c.refs = 0 && p.1 = c.val.name)

theorem run_visitVersion {as : List Nat} (visiting : s.visiting = some as) :
    (machine P).run s (List.replicate as.length .visitVersion) = some { s with
      disk := { s.disk with descriptors := s.disk.descriptors.filter (s.unvisited as) }
      visiting := some [] } := by
  induction as generalizing s with
  | nil =>
    have all : s.disk.descriptors.filter (s.unvisited []) = s.disk.descriptors :=
      List.filter_eq_self.mpr fun _ _ => rfl
    rw [all, ← visiting]
    rfl
  | cons a as ih =>
    have visited : s.visitVersion a = { s.disk with
        descriptors := s.disk.descriptors.filter (s.unvisited [a]) } := by
      rw [State.visitVersion]
      cases found : s.version? (some a) with
      | none =>
        have all : s.disk.descriptors.filter (s.unvisited [a]) = s.disk.descriptors :=
          List.filter_eq_self.mpr fun p _ => by simp [State.unvisited, found]
        rw [all]
      | some c =>
        dsimp only
        split
        · rename_i zero
          have same : s.unvisited [a] = fun p => decide (p.1 ≠ c.val.name) := by
            funext p
            simp [State.unvisited, found, zero]
          rw [same]
          rfl
        · rename_i held
          have all : s.disk.descriptors.filter (s.unvisited [a]) = s.disk.descriptors :=
            List.filter_eq_self.mpr fun p _ => by simp [State.unvisited, found, held]
          rw [all]
    have taken : step s .visitVersion = some { s with
        disk := s.visitVersion a, visiting := some as } := by
      rw [step, visiting]
    rw [List.length_cons, List.replicate_succ, Machine.run]
    change (step s .visitVersion).bind _ = _
    rw [taken, Option.bind_some, ih rfl, visited]
    have both : (s.disk.descriptors.filter (s.unvisited [a])).filter (s.unvisited as) =
        s.disk.descriptors.filter (s.unvisited (a :: as)) := by
      rw [List.filter_filter]
      refine List.filter_congr fun p _ => ?_
      simp [State.unvisited, Bool.and_comm]
    exact congrArg (fun descriptors => some { s with
      disk := { s.disk with descriptors }, visiting := some [] }) both

/-- What the loop over the reps `as` leaves of the tables. -/
def State.spared (s : State) (as : List Nat) (f : File) : Bool :=
  as.all fun a => f ≠ fileOf s.files.reps (some a)

theorem run_unlinkFile {done as : List Nat} (removing : s.removing = some ⟨done, as⟩) :
    ∃ nameRep, (machine P).run s (List.replicate as.length .unlinkFile) = some { s with
      disk := { s.disk with sstables := s.disk.sstables.filter (s.spared as) }
      files := { s.files with nameRep }
      unlinked := s.unlinked ++ as
      removing := some ⟨done ++ as, []⟩ } := by
  induction as generalizing s done with
  | nil =>
    have all : s.disk.sstables.filter (s.spared []) = s.disk.sstables :=
      List.filter_eq_self.mpr fun _ _ => rfl
    refine ⟨s.files.nameRep, ?_⟩
    rw [all, List.append_nil, List.append_nil, ← removing]
    rfl
  | cons a as ih =>
    have taken : step s .unlinkFile = some { s.unlinkFile a with
        removing := some ⟨done ++ [a], as⟩ } := by
      rw [step, removing]
    have both : (s.disk.sstables.filter (· ≠ fileOf s.files.reps (some a))).filter (s.spared as) =
        s.disk.sstables.filter (s.spared (a :: as)) := by
      rw [List.filter_filter]
      exact List.filter_congr fun f _ => Bool.and_comm _ _
    obtain ⟨nameRep, ran⟩ := @ih { s.unlinkFile a with removing := some ⟨done ++ [a], as⟩ } _ rfl
    refine ⟨nameRep, ?_⟩
    rw [List.length_cons, List.replicate_succ, Machine.run]
    change (step s .unlinkFile).bind _ = _
    have started : ∀ l : List Nat, l ++ a :: as = l ++ [a] ++ as := fun l => List.append_cons l a as
    rw [taken, Option.bind_some, ran, ← both, started, started]
    rfl

/-- `garbage_collector::do_GC` when nothing else runs. -/
def doGC (s : State) : List Action :=
  .lockVersions :: (List.replicate s.versions.versions.length .visitVersion ++ (
    [.eraseVersions, .partitionFiles] ++ (
      List.replicate (s.inMemGC.files.reps.filter (·.refs = 0)).length .unlinkFile ++ [.eraseFiles])))

/-- The walk over all versions unlinks the descriptors of those without guards. -/
theorem filter_unvisited (inv : Inv s) (tracked : Tracked s) :
    s.disk.descriptors.filter (s.unvisited (s.versions.versions.map Cell.address)) =
      s.disk.descriptors.filter fun p => s.inMemGC.versions.versions.any (p.1 = ·.val.name) := by
  refine List.filter_congr fun p mem => ?_
  obtain ⟨c, hc, name⟩ := tracked.descriptors p mem
  rw [Bool.eq_iff_iff, State.unvisited, List.all_eq_true, List.any_eq_true]
  constructor
  · intro unvisited
    refine ⟨c, List.mem_filter.mpr ⟨hc, decide_eq_true fun zero => ?_⟩, decide_eq_true name.symm⟩
    have here := unvisited c.address (List.mem_map_of_mem hc)
    rw [State.version?, find?_address inv.cells.distinct hc] at here
    simp [zero, name] at here
  · rintro ⟨d, hd, named⟩ a _
    obtain ⟨hd, held⟩ := List.mem_filter.mp hd
    cases found : s.version? (some a) with
    | none => rfl
    | some e =>
      have he : e ∈ s.versions.versions := List.mem_of_find?_eq_some found
      rw [Option.all_some, Bool.not_eq_true', Bool.and_eq_false_iff, decide_eq_false_iff_not,
        decide_eq_false_iff_not, ← not_and_or]
      rintro ⟨zero, named'⟩
      have same : d.val.name = e.val.name := (of_decide_eq_true named).symm.trans named'
      exact of_decide_eq_true held (inv.versions.eq_of_name hd he same ▸ zero)

/-- The loop over the reps without guards unlinks their tables. -/
theorem filter_spared (inv : Inv s) (tables : ∀ f ∈ s.disk.sstables, ∃ c ∈ s.files.reps, c.val = f) :
    let garbage := (s.files.reps.filter (·.refs = 0)).map Cell.address
    s.disk.sstables.filter (s.spared garbage) =
      s.disk.sstables.filter fun f =>
        (s.files.reps.filter (·.address ∉ garbage)).any (f = ·.val) := by
  intro garbage
  refine List.filter_congr fun f mem => ?_
  obtain ⟨c, hc, rfl⟩ := tables f mem
  rw [Bool.eq_iff_iff, State.spared, List.all_eq_true, List.any_eq_true]
  constructor
  · intro spared
    refine ⟨c, List.mem_filter.mpr ⟨hc, decide_eq_true fun out => ?_⟩, decide_eq_true rfl⟩
    refine of_decide_eq_true (spared c.address out) ?_
    rw [fileOf_address inv.reps.distinct hc]
  · rintro ⟨d, hd, same⟩ a out
    obtain ⟨hd, kept⟩ := List.mem_filter.mp hd
    obtain rfl := inv.files.eq_of_val hc hd (of_decide_eq_true same)
    obtain ⟨e, he, rfl⟩ := List.mem_map.mp out
    have he' := (List.mem_filter.mp he).1
    rw [fileOf_address inv.reps.distinct he']
    refine decide_eq_true fun named => ?_
    rw [inv.files.eq_of_val hc he' named] at kept
    exact of_decide_eq_true kept out

/-- What a collection alone makes of `s`: the guarded versions and files stay in memory, and on disk
their descriptors and tables. -/
structure Collected (s s' : State) : Prop where
  fileGuards : s'.fileGuards = s.fileGuards ∧ s'.deltas = s.deltas ∧ s'.updates = s.updates
  versionGuards : s'.allVersionGuards = s.allVersionGuards
  versions : s'.versions.versions = s.versions.versions.filter (·.refs ≠ 0)
  reps : ∀ c ∈ s'.files.reps, ∃ c₀ ∈ s.files.reps, c₀.address = c.address ∧ c₀.val = c.val
  disk : s'.disk = { s.disk with
    descriptors := s.disk.descriptors.filter fun p => s'.versions.versions.any (p.1 = ·.val.name)
    sstables := s.disk.sstables.filter fun f => s'.files.reps.any (f = ·.val) }
  guarded : ∀ c ∈ s'.versions.versions, some c.address ∈ s'.allVersionGuards
  held : ∀ c ∈ s'.files.reps, some c.address ∈ s'.allFileGuards

theorem exists_collected (inv : Inv s) (tracked : Tracked s) (free : s.modifyLockFree)
    (idle : s.removing = none) : ∃ s', (machine P).run s (doGC s) = some s' ∧ Collected s s' := by
  let walk := s.versions.versions.map (·.address)
  let walked : State := { s with
    disk := { s.disk with descriptors := s.disk.descriptors.filter (s.unvisited walk) }
    visiting := some [] }
  let swept : State := { walked.inMemGC with visiting := none }
  let garbage := (swept.files.reps.filter (·.refs = 0)).map (·.address)
  have visits : (machine P).run { s with visiting := some walk }
      (List.replicate s.versions.versions.length .visitVersion) = some walked := by
    rw [← List.length_map (·.address)]
    exact run_visitVersion rfl
  obtain ⟨nameRep, unlinks⟩ := @run_unlinkFile { swept with removing := some ⟨[], garbage⟩ } P [] garbage rfl
  let s' : State := { swept with
    disk := { swept.disk with sstables := swept.disk.sstables.filter (swept.spared garbage) }
    files := { swept.files with nameRep, reps := swept.files.reps.filter (·.address ∉ garbage) }
    unlinked := swept.unlinked ++ garbage
    removing := none }
  have ran : (machine P).run s (doGC s) = some s' := by
    have started : step s .lockVersions = some { s with visiting := some walk } := if_pos free
    have cleared : (machine P).run walked [.eraseVersions, .partitionFiles] =
        some { swept with removing := some ⟨[], garbage⟩ } := by
      have partitioned : step swept .partitionFiles =
          some { swept with removing := some ⟨[], garbage⟩ } := by
        rw [step, if_neg]
        change ¬ s.removing.isSome = true
        rw [idle]
        exact Bool.false_ne_true
      change (step swept .partitionFiles).bind some = _
      rw [partitioned, Option.bind_some]
    have counted : (s.inMemGC.files.reps.filter (·.refs = 0)).length = garbage.length :=
      (List.length_map Cell.address).symm
    rw [doGC, Machine.run]
    change (step s .lockVersions).bind _ = _
    rw [started, Option.bind_some, Machine.run_append, visits, Option.bind_some, Machine.run_append,
      cleared, Option.bind_some, Machine.run_append, counted, unlinks, Option.bind_some]
    rfl
  have inv' : Inv s' := inv_run inv ran
  have sweptInv : Inv swept := inv_inMemGC (inv.of_visit _ _) none
  have sweptTables : ∀ f ∈ swept.disk.sstables, ∃ c ∈ swept.files.reps, c.val = f := by
    intro f mem
    obtain ⟨c, hc, val, -⟩ := tracked.tables f mem
    have released : swept.files.reps.map Cell.identity = s.files.reps.map Cell.identity :=
      derefAll_identity
    obtain ⟨d, hd, -, same⟩ := mem_of_identity released.symm hc
    exact ⟨d, hd, same.trans val⟩
  refine ⟨s', ran, ⟨rfl, rfl, rfl⟩, rfl, rfl, fun c hc => ?_, ?_, ?_, ?_⟩
  · exact mem_of_identity derefAll_identity (List.mem_filter.mp hc).1
  · exact congrArg₂ (fun descriptors sstables => { s.disk with descriptors, sstables })
      (filter_unvisited inv tracked) (filter_spared sweptInv sweptTables)
  · intro c hc
    exact (inv'.cells.refs_ne_zero_iff hc).mp (of_decide_eq_true (List.mem_filter.mp hc).2)
  · intro c hc
    obtain ⟨old, kept⟩ := List.mem_filter.mp hc
    refine (inv'.reps.refs_ne_zero_iff hc).mp fun zero => of_decide_eq_true kept ?_
    exact List.mem_map_of_mem (List.mem_filter.mpr ⟨old, decide_eq_true zero⟩)

/-- After any run, a collection that nothing interrupts leaves nothing in memory that no guard refers
to, and on disk exactly the descriptors and tables of what is left, unless a sweep has outrun the
unlinking before. -/
theorem doGC_complete {d : Disk} (wf : d.WellFormed) (fresh : Nat) {as : List Action}
    (ran : (machine P).run (State.load d fresh) as = some s)
    (unlinked : (machine P).StepsMeet SweepsUnlinked (State.load d fresh) as)
    (free : s.modifyLockFree) (idle : s.removing = none) :
    ∃ s', (machine P).run s (doGC s) = some s' ∧ Collected s s' := by
  have both : Inv s ∧ Tracked s := by
    refine Machine.invariant_of_stepsMeet (P := fun s => Inv s ∧ Tracked s) ?_
      ⟨inv_load wf fresh, tracked_load d fresh⟩ unlinked ran
    intro s a s' before met taken
    exact ⟨inv_step before.1 taken, (tracked_step before.1 before.2 taken).mpr met⟩
  exact exists_collected both.1 both.2 free idle

/-- An update replaces the table while a reader holds the old version, and the reader leaves. -/
def replaced : List Action := replaceTable.take 15

theorem doGC_complete_replaced :
    ∃ s s', (machine fun _ => True).run (State.load oneTable 7) replaced = some s ∧
      (machine fun _ => True).run s (doGC s) = some s' ∧ Collected s s' := by
  obtain ⟨s, ran, free, idle⟩ : ∃ s ∈ ((machine fun _ => True).restrict SweepsUnlinked).run
      (State.load oneTable 7) replaced, s.modifyLockFree = true ∧ s.removing.isNone = true := by
    decide +kernel
  have wf : oneTable.WellFormed := ⟨by decide +kernel, by decide +kernel⟩
  obtain ⟨s', done, collected⟩ := doGC_complete wf 7 (Machine.run_of_restrict ran)
    (Machine.stepsMeet_of_restrict ran) free (Option.isNone_iff_eq_none.mp idle)
  exact ⟨s, s', Machine.run_of_restrict ran, done, collected⟩

/-- The collection at the start of the database leaves of a directory the current descriptor and the
tables that it lists. -/
theorem doGC_load {d : Disk} (wf : d.WellFormed) (fresh : Nat) :
    ∃ s, (machine P).run (State.load d fresh) (doGC (State.load d fresh)) = some s ∧
      s.disk = { d with
        descriptors := d.descriptors.filter (·.1 = d.current.getD fresh)
        sstables := d.sstables.filter (· ∈ d.getCurrentVersion) } := by
  obtain ⟨s, ran, collected⟩ := exists_collected (P := P) (inv_load wf fresh) (tracked_load d fresh) rfl rfl
  have inv := inv_run (inv_load wf fresh) ran
  obtain ⟨loaded, c, hc, current, -, name, listed, some_guard⟩ :=
    loadCurrentVersion_spec wf.sstables wf.descriptors fresh
  have only : ∀ v ∈ s.versions.versions, v = c := by
    intro v hv
    obtain ⟨hv, held⟩ := List.mem_filter.mp (collected.versions ▸ hv)
    have guard := (loaded.cells.refs_ne_zero_iff hv).mp (of_decide_eq_true held)
    rw [current] at guard
    exact eq_of_address loaded.cells.distinct hv hc (Option.some.inj (List.mem_singleton.mp guard))
  have inList : c ∈ s.versions.versions := by
    rw [collected.versions]
    refine List.mem_filter.mpr ⟨hc, decide_eq_true ((loaded.cells.refs_ne_zero_iff hc).mpr ?_)⟩
    rw [current]
    exact List.mem_singleton_self _
  have guards : ∀ g, g ∈ s.allFileGuards ↔ g ∈ c.val.files := by
    intro g
    have none_else : s.allFileGuards = s.versions.files := by
      obtain ⟨files, deltas, updates⟩ := collected.fileGuards
      rw [State.allFileGuards, files, deltas, updates]
      exact List.append_nil _
    rw [none_else]
    constructor
    · intro mem
      obtain ⟨v, hv, inFiles⟩ := List.mem_flatMap.mp mem
      exact only v hv ▸ inFiles
    · exact fun mem => List.mem_flatMap.mpr ⟨c, inList, mem⟩
  have named : ∀ r ∈ s.files.reps, fileOf (State.load d fresh).files.reps (some r.address) = r.val := by
    intro r hr
    obtain ⟨r₀, hr₀, address, val⟩ := collected.reps r hr
    rw [← address, ← val]
    exact fileOf_address loaded.reps.distinct hr₀
  refine ⟨s, ran, collected.disk.trans (congrArg₂ (fun descriptors sstables =>
    { d with descriptors, sstables }) (List.filter_congr fun p _ => ?_) (List.filter_congr fun f _ => ?_))⟩
  · rw [Bool.eq_iff_iff, List.any_eq_true, decide_eq_true_iff]
    constructor
    · rintro ⟨v, hv, same⟩
      rw [of_decide_eq_true same, only v hv, name]
    · exact fun same => ⟨c, inList, decide_eq_true (same.trans name.symm)⟩
  · rw [Bool.eq_iff_iff, List.any_eq_true, decide_eq_true_iff, ← listed, names, List.mem_map]
    constructor
    · rintro ⟨r, hr, same⟩
      exact ⟨some r.address, (guards _).mp (collected.held r hr),
        (named r hr).trans (of_decide_eq_true same).symm⟩
    · rintro ⟨g, hg, rfl⟩
      obtain ⟨a, rfl⟩ := some_guard g hg
      obtain ⟨r, hr, rfl⟩ := inv.reps.held a ((guards _).mpr hg)
      exact ⟨r, hr, decide_eq_true (named r hr)⟩

/-- The directory of `oneTable` with a table and a descriptor that a crash has left. -/
def afterCrash : Disk := ⟨[], [tableFile 1, tableFile 3], [(0, [tableFile 1]), (4, [])], some 0, []⟩

theorem doGC_load_afterCrash :
    ∃ s, (machine fun _ => True).run (State.load afterCrash 7) (doGC (State.load afterCrash 7)) = some s ∧
      s.disk = { afterCrash with
        descriptors := afterCrash.descriptors.filter (·.1 = afterCrash.current.getD 7)
        sstables := afterCrash.sstables.filter (· ∈ afterCrash.getCurrentVersion) } :=
  doGC_load ⟨by decide +kernel, by decide +kernel⟩ 7

end Alone

end FrenzyKV.Collection
