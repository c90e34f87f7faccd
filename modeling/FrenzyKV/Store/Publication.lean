import FrenzyKV.Store.GuardCounts

namespace FrenzyKV.Publication

open Framework RefCount Collection

/-- The named descriptor is on disk with all the tables that it lists. -/
def Complete (d : Disk) (n : Nat) : Prop :=
  ∃ files, d.descriptors.lookup n = some files ∧ ∀ f ∈ files, f ∈ d.sstables

/-- The directory that a database starts from. -/
def CompleteDirectory (d : Disk) : Prop := ∀ n, d.current = some n → Complete d n

/-- After the first update the current-version file names a complete version; when no
update is pending it names the current one. -/
structure Consistent (s : State) : Prop where
  named : s.completed = true → ∃ n, s.disk.current = some n ∧ Complete s.disk n
  current : s.completed = true → s.updates = [] → ∃ c ∈ s.versions.versions,
    s.versions.current = some c.address ∧ s.disk.current = some c.val.name

/-- An update names its version only if no version added later was named before. -/
def InOrder (s : State) : Action → Prop
  | .updateStep i => ∀ u ∈ s.updates[i]?, u.phase = .described → ∀ a ∈ u.guard,
      ∀ p ∈ s.published, p < a
  | _ => True

/-- The version that the current-version file names. -/
def Named (s : State) (c : Cell VersionRep) : Prop := s.disk.current = some c.val.name

/-- A collection does not take the named version for garbage. -/
def NamedHeld (s : State) : Action → Prop
  | .visitVersion => ∀ l ∈ s.visiting, ∀ a ∈ l.head?, ∀ c ∈ s.version? (some a),
      Named s c → c.refs ≠ 0
  | .versionGC | .eraseVersions => ∀ c ∈ s.versions.versions, Named s c → c.refs ≠ 0
  | _ => True

def Orderly (s : State) (a : Action) : Prop := InOrder s a ∧ NamedHeld s a

instance (s : State) (c : Cell VersionRep) : Decidable (Named s c) :=
  inferInstanceAs (Decidable (_ = _))

instance (s : State) : (a : Action) → Decidable (InOrder s a)
  | .updateStep i => inferInstanceAs (Decidable (∀ u ∈ s.updates[i]?, u.phase = .described →
      ∀ a ∈ u.guard, ∀ p ∈ s.published, p < a))
  | .getFile _ | .fileGuard _ | .fileOfVersion _ _ | .newDelta | .addNewFile _ _
  | .addCompactedFile _ _ | .mergeDelta _ _ | .dropDelta _ | .currentVersion | .versionGuard _
  | .getSnapshot _ | .snapshot _ | .versionOfSnapshot _ | .startUpdate _ _ | .versionGC
  | .lockVersions | .visitVersion | .eraseVersions | .partitionFiles | .unlinkFile
  | .eraseFiles => isTrue trivial

instance (s : State) : (a : Action) → Decidable (NamedHeld s a)
  | .visitVersion => inferInstanceAs (Decidable (∀ l ∈ s.visiting, ∀ a ∈ l.head?,
      ∀ c ∈ s.version? (some a), Named s c → c.refs ≠ 0))
  | .versionGC | .eraseVersions =>
    inferInstanceAs (Decidable (∀ c ∈ s.versions.versions, Named s c → c.refs ≠ 0))
  | .getFile _ | .fileGuard _ | .fileOfVersion _ _ | .newDelta | .addNewFile _ _
  | .addCompactedFile _ _ | .mergeDelta _ _ | .dropDelta _ | .currentVersion | .versionGuard _
  | .getSnapshot _ | .snapshot _ | .versionOfSnapshot _ | .startUpdate _ _ | .updateStep _
  | .lockVersions | .partitionFiles | .unlinkFile | .eraseFiles => isTrue trivial

instance (s : State) (a : Action) : Decidable (Orderly s a) :=
  inferInstanceAs (Decidable (InOrder s a ∧ NamedHeld s a))

def OnDisk (s : State) (g : Guard) : Prop :=
  ∃ b, g = some b ∧ fileOf s.files.reps (some b) ∈ s.disk.sstables

def Tables (s : State) (c : Cell VersionRep) : Prop := ∀ g ∈ c.val.files, OnDisk s g

def Described (s : State) (c : Cell VersionRep) : Prop :=
  s.disk.descriptors.lookup c.val.name = some (names s.files.reps c.val.files)

/-- A version that was added no later than the current one. -/
def UpToCurrent (s : State) (c : Cell VersionRep) : Prop :=
  ∃ k, s.versions.current = some k ∧ c.address ≤ k

/-- What holds of a pending update with its version. -/
structure UpdateOk (s : State) (u : Update) (c : Cell VersionRep) : Prop where
  guard : u.guard = some c.address
  tables : Tables s c
  delta : ∀ g ∈ u.delta.added, OnDisk s g
  upTo : UpToCurrent s c
  blank : u.phase ≠ .described → u.phase ≠ .published →
    s.disk.descriptors.lookup c.val.name = none
  described : u.phase = .described → Described s c
  unnamed : u.phase ≠ .published → s.published ≠ some c.address
  finished : u.phase = .published → s.disk.current ≠ none

structure Inv (s : State) : Prop where
  guards : Collection.Inv s
  deltas : ∀ delta ∈ s.deltas, ∀ g ∈ delta.added, OnDisk s g
  updates : ∀ u ∈ s.updates, ∃ c ∈ s.versions.versions, UpdateOk s u c
  separate : s.updates.Pairwise (·.guard ≠ ·.guard)
  current : ∃ c ∈ s.versions.versions, s.versions.current = some c.address ∧ Tables s c
  named : ∀ n, s.disk.current = some n → ∃ c ∈ s.versions.versions,
    s.published = some c.address ∧ c.val.name = n ∧ Tables s c ∧ Described s c ∧ UpToCurrent s c
  pointer : s.disk.current = none → s.published = none
  -- the current version is named, or its update is pending, or there was none
  settled : s.published = s.versions.current ∨
    (∃ u ∈ s.updates, u.guard = s.versions.current ∧ u.phase ≠ .published) ∨
    s.disk.current = none ∧ s.updates = []
  completed : s.completed = true → s.disk.current ≠ none

section Frame

variable {s s' : State} {a : Action}

theorem onDisk_step (inv : Collection.Inv s) (taken : step s a = some s') {g : Guard}
    (held : g ∈ s.allFileGuards) (onDisk : OnDisk s g) : OnDisk s' g := by
  obtain ⟨b, rfl, on⟩ := onDisk
  exact ⟨b, rfl, table_step inv taken held on⟩

/-- A version that no step may touch keeps its files, and they stay on disk. -/
theorem cell_frame (inv : Collection.Inv s) (taken : step s a = some s') {c : Cell VersionRep}
    (hc : c ∈ s.versions.versions) (kept : a.erases = true → c.refs ≠ 0)
    (settled : ∀ i u, a = .updateStep i → s.updates[i]? = some u → u.phase = .added →
      u.guard ≠ some c.address) (tables : Tables s c) :
    ∃ c' ∈ s'.versions.versions, c'.address = c.address ∧ c'.val = c.val ∧ Tables s' c' ∧
      names s'.files.reps c'.val.files = names s.files.reps c.val.files := by
  obtain ⟨c', hc', address, val⟩ := cell_step taken hc kept settled
  have held : ∀ g ∈ c.val.files, g ∈ s.allFileGuards := fun g hg =>
    List.mem_append_left _ (List.mem_flatMap.mpr ⟨c, hc, hg⟩)
  refine ⟨c', hc', address, val, fun g hg => ?_, ?_⟩
  · rw [val] at hg
    exact onDisk_step inv taken (held g hg) (tables g hg)
  · rw [val]
    refine List.map_congr_left fun g hg => ?_
    obtain ⟨b, rfl, -⟩ := tables g hg
    exact fileOf_step inv taken (held _ hg)

/-- Steps that are not steps of an update. -/
def isFrame : Action → Bool
  | .startUpdate _ _ | .updateStep _ => false
  | _ => true

theorem frame_same (taken : step s a = some s') (frame : isFrame a = true) :
    s'.updates = s.updates ∧ s'.versions.current = s.versions.current ∧
      s'.published = s.published ∧ s'.completed = s.completed ∧
      s'.disk.current = s.disk.current := by
  cases step_cases taken with
  | startUpdate free atDelta new => cases frame
  | updateStep at_ found => cases frame
  | visitVersion visiting =>
    refine ⟨rfl, rfl, rfl, rfl, ?_⟩
    simp only [State.visitVersion]
    split
    · split <;> rfl
    · rfl
  | _ => exact ⟨rfl, rfl, rfl, rfl, rfl⟩

/-- Among these steps only `GC_with` touches the descriptors. -/
theorem frame_lookup (taken : step s a = some s') (frame : isFrame a = true) (n : Nat) :
    s'.disk.descriptors.lookup n = s.disk.descriptors.lookup n ∨
      s'.disk.descriptors.lookup n = none ∧ a = .visitVersion ∧ ∃ l ∈ s.visiting,
        ∃ d ∈ l.head?, ∃ v ∈ s.version? (some d), v.refs = 0 ∧ v.val.name = n := by
  cases step_cases taken with
  | startUpdate free atDelta new => cases frame
  | updateStep at_ found => cases frame
  | @visitVersion d rest visiting =>
    simp only [State.visitVersion]
    split
    · rename_i v found
      split
      · rename_i zero
        have erased := lookup_filter_ne s.disk.descriptors v.val.name n
        by_cases same : n = v.val.name
        · refine Or.inr ⟨erased.trans (if_pos same), trivial, _, visiting, d, rfl, v, found, zero, ?_⟩
          exact same.symm
        · exact Or.inl (erased.trans (if_neg same))
      · exact Or.inl rfl
    · exact Or.inl rfl
  | _ => exact Or.inl rfl

/-- Files get into a delta only after their tables were written. -/
theorem frame_deltas (inv : Collection.Inv s) (taken : step s a = some s')
    (deltas : ∀ delta ∈ s.deltas, ∀ g ∈ delta.added, OnDisk s g) :
    ∀ delta ∈ s'.deltas, ∀ g ∈ delta.added, OnDisk s' g := by
  have old : ∀ delta ∈ s.deltas, ∀ g ∈ delta.added, OnDisk s' g := by
    intro delta hd g hg
    refine onDisk_step inv taken ?_ (deltas delta hd g hg)
    simp only [State.allFileGuards, List.mem_append, List.mem_flatMap]
    exact Or.inr (Or.inr (Or.inl ⟨delta, hd, List.mem_append_right _ hg⟩))
  intro delta hd g hg
  cases step_cases taken with
  | @addNewFile d i b was atDelta atGuard =>
    cases List.mem_or_eq_of_mem_set hd with
    | inl before => exact old delta before g hg
    | inr eq =>
      subst eq
      cases List.mem_append.mp hg with
      | inl before => exact old was (List.mem_of_getElem? atDelta) g before
      | inr now =>
        obtain rfl := List.mem_singleton.mp now
        exact ⟨b, rfl, List.mem_append_right _ (List.mem_singleton.mpr rfl)⟩
  | @addCompactedFile d i was new atDelta atGuard =>
    cases List.mem_or_eq_of_mem_set hd with
    | inl before => exact old delta before g hg
    | inr eq =>
      subst eq
      exact old was (List.mem_of_getElem? atDelta) g hg
  | @mergeDelta d e was other ne atDelta atOther =>
    cases List.mem_or_eq_of_mem_set hd with
    | inl before =>
      cases List.mem_or_eq_of_mem_set before with
      | inl before => exact old delta before g hg
      | inr eq =>
        subst eq
        simp [GuardDelta.empty] at hg
    | inr eq =>
      subst eq
      cases List.mem_append.mp hg with
      | inl first => exact old was (List.mem_of_getElem? atDelta) g first
      | inr second => exact old other (List.mem_of_getElem? atOther) g second
  | newDelta =>
    cases List.mem_append.mp hd with
    | inl before => exact old delta before g hg
    | inr new =>
      obtain rfl := List.mem_singleton.mp new
      simp [GuardDelta.empty] at hg
  | dropDelta atDelta => exact old delta (List.mem_of_mem_eraseIdx hd) g hg
  | startUpdate free atDelta new => exact old delta (List.mem_of_mem_eraseIdx hd) g hg
  | @updateStep i u c at_ found =>
    have same : (s.updateStep i u c).deltas = s.deltas := by
      rw [State.updateStep]
      split <;> rfl
    exact old delta (same ▸ hd) g hg
  | _ => exact old delta hd g hg

/-- A version in the state after a step that is the same as one before. -/
structure SameVersion (s s' : State) (c c' : Cell VersionRep) : Prop where
  mem : c' ∈ s'.versions.versions
  address : c'.address = c.address
  val : c'.val = c.val
  tables : Tables s' c'
  names : names s'.files.reps c'.val.files = names s.files.reps c.val.files

/-- Guarded versions and the named one keep their descriptors too. -/
theorem version_frame (inv : Collection.Inv s) (held : NamedHeld s a) (taken : step s a = some s')
    (frame : isFrame a = true) {c : Cell VersionRep} (hc : c ∈ s.versions.versions)
    (tables : Tables s c) (used : c.refs ≠ 0 ∨ Named s c) :
    ∃ c', SameVersion s s' c c' ∧
      s'.disk.descriptors.lookup c'.val.name = s.disk.descriptors.lookup c.val.name := by
  have kept : a.erases = true → c.refs ≠ 0 := by
    intro erases
    cases used with
    | inl refs => exact refs
    | inr named =>
      cases a with
      | versionGC => exact held c hc named
      | eraseVersions => exact held c hc named
      | _ => simp [Action.erases] at erases
  have settled : ∀ i u, a = .updateStep i → s.updates[i]? = some u → u.phase = .added →
      u.guard ≠ some c.address := by
    rintro i u rfl
    simp [isFrame] at frame
  obtain ⟨c', hc', address, val, tables', listed⟩ := cell_frame inv taken hc kept settled tables
  refine ⟨c', ⟨hc', address, val, tables', listed⟩, ?_⟩
  rw [val]
  refine (frame_lookup taken frame c.val.name).resolve_right ?_
  rintro ⟨-, rfl, l, hl, d, hd, v, found, zero, name⟩
  obtain rfl := inv.versions.eq_of_name (List.mem_of_find?_eq_some found) hc name
  cases used with
  | inl refs => exact refs zero
  | inr named => exact held l hl d hd v found named zero

theorem SameVersion.upTo {c c' : Cell VersionRep} (same : SameVersion s s' c c')
    (current : s'.versions.current = s.versions.current) (upTo : UpToCurrent s c) :
    UpToCurrent s' c' := by
  obtain ⟨k, eq, le⟩ := upTo
  exact ⟨k, current.trans eq, same.address ▸ le⟩

theorem SameVersion.described {c c' : Cell VersionRep} (same : SameVersion s s' c c')
    (lookup : s'.disk.descriptors.lookup c'.val.name = s.disk.descriptors.lookup c.val.name)
    (described : Described s c) : Described s' c' := by
  rw [Described, lookup, same.names]
  exact described

/-- What holds of an update holds after a step that leaves its version and its descriptor alone. -/
theorem SameVersion.updateOk {u : Update} {c c' : Cell VersionRep} (same : SameVersion s s' c c')
    (lookup : s'.disk.descriptors.lookup c'.val.name = s.disk.descriptors.lookup c.val.name)
    (published : s'.published = s.published) (pointer : s'.disk.current = s.disk.current)
    (upTo : UpToCurrent s' c') (delta : ∀ g ∈ u.delta.added, OnDisk s g → OnDisk s' g)
    (ok : UpdateOk s u c) : UpdateOk s' u c' := by
  constructor
  case guard => rw [same.address]; exact ok.guard
  case tables => exact same.tables
  case delta => exact fun g hg => delta g hg (ok.delta g hg)
  case upTo => exact upTo
  case blank => rw [lookup]; exact ok.blank
  case described => exact fun phase => same.described lookup (ok.described phase)
  case unnamed => rw [published, same.address]; exact ok.unnamed
  case finished => rw [pointer]; exact ok.finished

theorem SameVersion.named {n : Nat} {c c' : Cell VersionRep} (same : SameVersion s s' c c')
    (lookup : s'.disk.descriptors.lookup c'.val.name = s.disk.descriptors.lookup c.val.name)
    (published : s'.published = s.published) (upTo : UpToCurrent s' c')
    (address : s.published = some c.address) (name : c.val.name = n) (described : Described s c) :
    s'.published = some c'.address ∧ c'.val.name = n ∧ Tables s' c' ∧ Described s' c' ∧
      UpToCurrent s' c' := by
  refine ⟨?_, ?_, same.tables, same.described lookup described, upTo⟩
  · rw [published, same.address, address]
  · rw [same.val, name]

theorem Inv.refs_of_current (inv : Inv s) {c : Cell VersionRep} (hc : c ∈ s.versions.versions)
    (current : s.versions.current = some c.address) : c.refs ≠ 0 := by
  refine (inv.guards.cells.refs_ne_zero_iff hc).mpr ?_
  rw [State.allVersionGuards, current]
  exact List.mem_cons_self

theorem Inv.refs_of_update (inv : Inv s) {c : Cell VersionRep} (hc : c ∈ s.versions.versions)
    {u : Update} (hu : u ∈ s.updates) (guard : u.guard = some c.address) : c.refs ≠ 0 := by
  refine (inv.guards.cells.refs_ne_zero_iff hc).mpr ?_
  simp only [State.allVersionGuards, List.mem_cons, List.mem_append, List.mem_map]
  exact Or.inr (Or.inr (Or.inr ⟨u, hu, guard⟩))

theorem delta_held {u : Update} (hu : u ∈ s.updates) {g : Guard} (hg : g ∈ u.delta.added) :
    g ∈ s.allFileGuards := by
  simp only [State.allFileGuards, List.mem_append, List.mem_flatMap]
  exact Or.inr (Or.inr (Or.inr ⟨u, hu, List.mem_append_right _ hg⟩))

theorem inv_frame (inv : Inv s) (held : NamedHeld s a) (taken : step s a = some s')
    (frame : isFrame a = true) : Inv s' := by
  obtain ⟨updates, current, published, completed, pointer⟩ := frame_same taken frame
  have version := fun {c : Cell VersionRep} hc tables used =>
    version_frame (c := c) inv.guards held taken frame hc tables used
  constructor
  case guards => exact inv_step inv.guards taken
  case deltas => exact frame_deltas inv.guards taken inv.deltas
  case updates =>
    intro u hu
    rw [updates] at hu
    obtain ⟨c, hc, ok⟩ := inv.updates u hu
    obtain ⟨c', same, lookup⟩ := version hc ok.tables
      (Or.inl (inv.refs_of_update hc hu ok.guard))
    exact ⟨c', same.mem, same.updateOk lookup published pointer (same.upTo current ok.upTo)
      (fun g hg => onDisk_step inv.guards taken (delta_held hu hg)) ok⟩
  case separate => rw [updates]; exact inv.separate
  case current =>
    obtain ⟨c, hc, eq, tables⟩ := inv.current
    obtain ⟨c', same, -⟩ := version hc tables (Or.inl (inv.refs_of_current hc eq))
    exact ⟨c', same.mem, by rw [current, same.address, eq], same.tables⟩
  case named =>
    intro n name
    rw [pointer] at name
    obtain ⟨c, hc, eq, rfl, tables, described, upTo⟩ := inv.named n name
    obtain ⟨c', same, lookup⟩ := version hc tables (Or.inr name)
    exact ⟨c', same.mem, same.named lookup published (same.upTo current upTo) eq rfl described⟩
  case pointer => rw [pointer, published]; exact inv.pointer
  case settled => rw [published, current, updates, pointer]; exact inv.settled
  case completed => rw [completed, pointer]; exact inv.completed

end Frame

section Updates

variable {s s' : State} {i : Nat} {u : Update} {c : Cell VersionRep}

/-- The update that takes the step, with its version. -/
theorem Inv.stepping (inv : Inv s) (at_ : s.updates[i]? = some u)
    (found : s.version? u.guard = some c) : c ∈ s.versions.versions ∧ UpdateOk s u c := by
  have hc := List.mem_of_find?_eq_some found
  obtain ⟨d, hd, ok⟩ := inv.updates u (List.mem_of_getElem? at_)
  have guard : u.guard = some c.address := by simpa using List.find?_some found
  have same := eq_of_address inv.guards.cells.distinct hc hd
    (Option.some.inj (guard.symm.trans ok.guard))
  exact ⟨hc, same ▸ ok⟩

theorem Inv.name_ne (inv : Inv s) {d : Cell VersionRep} (hc : c ∈ s.versions.versions)
    (hd : d ∈ s.versions.versions) (other : d.address ≠ c.address) : d.val.name ≠ c.val.name :=
  fun same => other (congrArg Cell.address (inv.guards.versions.eq_of_name hd hc same))

/-- The pending updates after a step that changes one phase. -/
theorem Inv.settled_of_phase (inv : Inv s) (at_ : s.updates[i]? = some u) {phase : UpdatePhase}
    (pending : phase ≠ .published) :
    s.published = s.versions.current ∨
      (∃ v ∈ s.updates.set i { u with phase }, v.guard = s.versions.current ∧
        v.phase ≠ .published) ∨
      s.disk.current = none ∧ s.updates.set i { u with phase } = [] := by
  rcases inv.settled with named | ⟨v, hv, guard, other⟩ | ⟨none, idle⟩
  · exact Or.inl named
  · refine Or.inr (Or.inl ?_)
    by_cases same : v.guard = u.guard
    · exact ⟨_, (mem_set_slot inv.separate at_).mpr (Or.inl rfl), same.symm.trans guard, pending⟩
    · exact ⟨v, (mem_set_slot inv.separate at_).mpr (Or.inr ⟨hv, same⟩), guard, other⟩
  · rw [idle] at at_
    simp at at_

theorem inv_unlock (inv : Inv s) (at_ : s.updates[i]? = some u)
    (found : s.version? u.guard = some c) (phase : u.phase = .applied)
    (guards : Collection.Inv (s.updateStep i u c)) : Inv (s.updateStep i u c) := by
  obtain ⟨hc, ok⟩ := inv.stepping at_ found
  simp only [State.updateStep, phase] at guards ⊢
  constructor
  case guards => exact guards
  case deltas => exact inv.deltas
  case updates =>
    intro v hv
    rcases (mem_set_slot inv.separate at_).mp hv with rfl | ⟨old, -⟩
    · exact ⟨c, hc, { ok with
        blank := fun _ _ => ok.blank (by simp [phase]) (by simp [phase])
        described := fun h => by cases h
        unnamed := fun _ => ok.unnamed (by simp [phase])
        finished := fun h => by cases h }⟩
    · obtain ⟨d, hd, other⟩ := inv.updates v old
      exact ⟨d, hd, { other with }⟩
  case separate => exact pairwise_set_slot inv.separate at_ rfl
  case current => exact inv.current
  case named => exact inv.named
  case pointer => exact inv.pointer
  case settled => exact inv.settled_of_phase at_ (by simp)
  case completed => exact inv.completed

/-- Writing the descriptor of one version leaves the others' alone. -/
theorem inv_describe (inv : Inv s) (at_ : s.updates[i]? = some u)
    (found : s.version? u.guard = some c) (phase : u.phase = .unlocked)
    (guards : Collection.Inv (s.updateStep i u c)) : Inv (s.updateStep i u c) := by
  obtain ⟨hc, ok⟩ := inv.stepping at_ found
  let files := names s.files.reps c.val.files
  have blank := ok.blank (by simp [phase]) (by simp [phase])
  have others : ∀ d ∈ s.versions.versions, d.address ≠ c.address →
      (s.disk.descriptors ++ [(c.val.name, files)]).lookup d.val.name =
        s.disk.descriptors.lookup d.val.name :=
    fun d hd other => lookup_append_of_ne (inv.name_ne hc hd other)
  simp only [State.updateStep, phase] at guards ⊢
  constructor
  case guards => exact guards
  case deltas => exact inv.deltas
  case updates =>
    intro v hv
    rcases (mem_set_slot inv.separate at_).mp hv with rfl | ⟨old, ne⟩
    · exact ⟨c, hc, { ok with
        blank := fun h => absurd rfl h
        described := fun _ => by
          change (s.disk.descriptors ++ [(c.val.name, files)]).lookup c.val.name = _
          rw [List.lookup_append, blank, List.lookup_cons_self]
          rfl
        unnamed := fun _ => ok.unnamed (by simp [phase])
        finished := fun h => by cases h }⟩
    · obtain ⟨d, hd, other⟩ := inv.updates v old
      have apart : d.address ≠ c.address := fun same =>
        ne (other.guard.trans ((congrArg some same).trans ok.guard.symm))
      exact ⟨d, hd, { other with
        blank := fun h h' => (others d hd apart).trans (other.blank h h')
        described := fun h => (others d hd apart).trans (other.described h) }⟩
  case separate => exact pairwise_set_slot inv.separate at_ rfl
  case current => exact inv.current
  case named =>
    intro n name
    obtain ⟨d, hd, eq, rfl, tables, described, upTo⟩ := inv.named n name
    have apart : d.address ≠ c.address := fun same =>
      ok.unnamed (by simp [phase]) (eq.trans (congrArg some same))
    exact ⟨d, hd, eq, rfl, tables, (others d hd apart).trans described, upTo⟩
  case pointer => exact inv.pointer
  case settled => exact inv.settled_of_phase at_ (by simp)
  case completed => exact inv.completed

/-- The last steps of an update leave every version but its own as it was. -/
theorem other_version (inv : Inv s) (taken : step s (.updateStep i) = some s')
    (at_ : s.updates[i]? = some u) {d : Cell VersionRep} (hd : d ∈ s.versions.versions)
    (tables : Tables s d) (other : u.phase = .added → u.guard ≠ some d.address) :
    ∃ d', SameVersion s s' d d' := by
  have settled : ∀ j v, Action.updateStep i = .updateStep j → s.updates[j]? = some v →
      v.phase = .added → v.guard ≠ some d.address := by
    rintro j v same at' phase
    obtain rfl := Action.updateStep.inj same
    obtain rfl := Option.some.inj (at_.symm.trans at')
    exact other phase
  obtain ⟨d', hd', address, val, tables', listed⟩ :=
    cell_frame inv.guards taken hd (fun erases => by cases erases) settled tables
  exact ⟨d', ⟨hd', address, val, tables', listed⟩⟩

theorem inv_apply (inv : Inv s) (at_ : s.updates[i]? = some u)
    (found : s.version? u.guard = some c) (phase : u.phase = .added)
    (taken : step s (.updateStep i) = some (s.updateStep i u c)) : Inv (s.updateStep i u c) := by
  obtain ⟨hc, ok⟩ := inv.stepping at_ found
  have guards := inv_step inv.guards taken
  have deltas := frame_deltas inv.guards taken inv.deltas
  have others := fun {d : Cell VersionRep} hd tables other =>
    other_version (d := d) inv taken at_ hd tables fun _ => other
  have delta : ∀ v ∈ s.updates, ∀ g ∈ v.delta.added, OnDisk s g → OnDisk (s.updateStep i u c) g :=
    fun v hv g hg on => onDisk_step inv.guards taken (delta_held hv hg) on
  have hu := List.mem_of_getElem? at_
  have ownFiles : ∀ g ∈ c.val.files, g ∈ s.allFileGuards := fun g hg =>
    List.mem_append_left _ (List.mem_flatMap.mpr ⟨c, hc, hg⟩)
  have ownTables : ∀ g ∈ (plusEquals s.files.reps c.val.files u.delta).2,
      OnDisk (s.updateStep i u c) g := by
    intro g hg
    cases plusEquals_subset g hg with
    | inl old => exact onDisk_step inv.guards taken (ownFiles g old) (ok.tables g old)
    | inr added => exact delta u hu g added (ok.delta g added)
  simp only [State.updateStep, phase, State.applyDelta] at guards deltas others delta ownTables ⊢
  let c' : Cell VersionRep :=
    { c with val := ⟨c.val.name, (plusEquals s.files.reps c.val.files u.delta).2⟩ }
  have hc' : c' ∈ s.versions.versions.map fun v => if v.address = c.address then
      { v with val := ⟨v.val.name, (plusEquals s.files.reps c.val.files u.delta).2⟩ } else v :=
    List.mem_map.mpr ⟨c, hc, if_pos rfl⟩
  constructor
  case guards => exact guards
  case deltas => exact deltas
  case updates =>
    intro v hv
    rcases (mem_set_slot inv.separate at_).mp hv with rfl | ⟨old, ne⟩
    · refine ⟨c', hc', ?_⟩
      constructor
      case guard => exact ok.guard
      case tables => exact ownTables
      case delta => exact fun g hg => delta u hu g hg (ok.delta g hg)
      case upTo => exact ok.upTo
      case blank => exact fun _ _ => ok.blank (by simp [phase]) (by simp [phase])
      case described => exact fun h => by cases h
      case unnamed => exact fun _ => ok.unnamed (by simp [phase])
      case finished => exact fun h => by cases h
    · obtain ⟨d, hd, other⟩ := inv.updates v old
      obtain ⟨d', same⟩ := others hd other.tables (fun eq => ne (other.guard.trans eq.symm))
      exact ⟨d', same.mem, same.updateOk (by rw [same.val]) rfl rfl (same.upTo rfl other.upTo)
        (delta v old) other⟩
  case separate => exact pairwise_set_slot inv.separate at_ rfl
  case current =>
    obtain ⟨d, hd, eq, tables⟩ := inv.current
    by_cases own : u.guard = some d.address
    · obtain rfl := eq_of_address inv.guards.cells.distinct hc hd
        (Option.some.inj (ok.guard.symm.trans own))
      exact ⟨c', hc', eq, ownTables⟩
    · obtain ⟨d', same⟩ := others hd tables own
      exact ⟨d', same.mem, by rw [same.address]; exact eq, same.tables⟩
  case named =>
    intro n name
    obtain ⟨d, hd, eq, rfl, tables, described, upTo⟩ := inv.named n name
    have apart : u.guard ≠ some d.address := fun same =>
      ok.unnamed (by simp [phase]) (eq.trans (same.symm.trans ok.guard))
    obtain ⟨d', same⟩ := others hd tables apart
    exact ⟨d', same.mem, same.named (by rw [same.val]) rfl (same.upTo rfl upTo) eq rfl described⟩
  case pointer => exact inv.pointer
  case settled => exact inv.settled_of_phase at_ (by simp)
  case completed => exact inv.completed

theorem inv_publish (inv : Inv s) (at_ : s.updates[i]? = some u)
    (found : s.version? u.guard = some c) (phase : u.phase = .described)
    (inOrder : InOrder s (.updateStep i)) (guards : Collection.Inv (s.updateStep i u c)) :
    Inv (s.updateStep i u c) := by
  obtain ⟨hc, ok⟩ := inv.stepping at_ found
  have later : ∀ p, s.published = some p → p < c.address :=
    inOrder u at_ phase c.address ok.guard
  simp only [State.updateStep, phase] at guards ⊢
  constructor
  case guards => exact guards
  case deltas => exact inv.deltas
  case updates =>
    intro v hv
    rcases (mem_set_slot inv.separate at_).mp hv with rfl | ⟨old, ne⟩
    · exact ⟨c, hc, { ok with
        blank := fun _ h => absurd rfl h
        described := fun h => by cases h
        unnamed := fun h => absurd rfl h
        finished := fun _ h => by cases h }⟩
    · obtain ⟨d, hd, other⟩ := inv.updates v old
      exact ⟨d, hd, { other with
        unnamed := fun _ same => ne (other.guard.trans (same.symm.trans ok.guard.symm))
        finished := fun _ h => by cases h }⟩
  case separate => exact pairwise_set_slot inv.separate at_ rfl
  case current => exact inv.current
  case named =>
    intro n name
    exact ⟨c, hc, rfl, Option.some.inj name, ok.tables, ok.described phase, ok.upTo⟩
  case pointer => exact fun h => by cases h
  case settled =>
    obtain ⟨k, current, le⟩ := ok.upTo
    by_cases latest : c.address = k
    · exact Or.inl (by rw [current, latest])
    · -- a version added later is pending, for none was named
      refine Or.inr (Or.inl ?_)
      rcases inv.settled with named | ⟨v, hv, guard, pending⟩ | ⟨-, idle⟩
      · have := later k (named.trans current)
        omega
      · refine ⟨v, (mem_set_slot inv.separate at_).mpr (Or.inr ⟨hv, ?_⟩), guard, pending⟩
        intro same
        have := ok.guard.symm.trans (same.symm.trans (guard.trans current))
        exact latest (Option.some.inj this)
      · rw [idle] at at_
        simp at at_
  case completed => exact fun _ h => by cases h

theorem inv_finish (inv : Inv s) (at_ : s.updates[i]? = some u)
    (found : s.version? u.guard = some c) (phase : u.phase = .published)
    (taken : step s (.updateStep i) = some (s.updateStep i u c)) : Inv (s.updateStep i u c) := by
  obtain ⟨hc, ok⟩ := inv.stepping at_ found
  have guards := inv_step inv.guards taken
  have deltas := frame_deltas inv.guards taken inv.deltas
  have others := fun {d : Cell VersionRep} hd tables =>
    other_version (d := d) inv taken at_ hd tables (by simp [phase])
  have delta : ∀ v ∈ s.updates, ∀ g ∈ v.delta.added, OnDisk s g → OnDisk (s.updateStep i u c) g :=
    fun v hv g hg on => onDisk_step inv.guards taken (delta_held hv hg) on
  have pointer := ok.finished phase
  simp only [State.updateStep, phase] at guards deltas others delta ⊢
  constructor
  case guards => exact guards
  case deltas => exact deltas
  case updates =>
    intro v hv
    obtain ⟨old, -⟩ := (mem_eraseIdx_slot inv.separate at_).mp hv
    obtain ⟨d, hd, other⟩ := inv.updates v old
    obtain ⟨d', same⟩ := others hd other.tables
    exact ⟨d', same.mem, same.updateOk (by rw [same.val]) rfl rfl (same.upTo rfl other.upTo)
      (delta v old) other⟩
  case separate => exact inv.separate.sublist (List.eraseIdx_sublist _ _)
  case current =>
    obtain ⟨d, hd, eq, tables⟩ := inv.current
    obtain ⟨d', same⟩ := others hd tables
    exact ⟨d', same.mem, by rw [same.address]; exact eq, same.tables⟩
  case named =>
    intro n name
    obtain ⟨d, hd, eq, rfl, tables, described, upTo⟩ := inv.named n name
    obtain ⟨d', same⟩ := others hd tables
    exact ⟨d', same.mem, same.named (by rw [same.val]) rfl (same.upTo rfl upTo) eq rfl described⟩
  case pointer => exact inv.pointer
  case settled =>
    rcases inv.settled with named | ⟨v, hv, guard, pending⟩ | ⟨none, -⟩
    · exact Or.inl named
    · refine Or.inr (Or.inl ⟨v, (mem_eraseIdx_slot inv.separate at_).mpr ⟨hv, fun same => ?_⟩,
        guard, pending⟩)
      obtain rfl := eq_of_pairwise_ne inv.separate hv (List.mem_of_getElem? at_) same
      exact pending phase
    · exact absurd none pointer
  case completed => exact fun _ => pointer

/-- What adding a version does. -/
structure Started (s s' : State) (name : Nat) (delta : GuardDelta) (c : Cell VersionRep) :
    Prop where
  fresh : s.FreshName name
  moved : delta ∈ s.deltas
  mem : c ∈ s'.versions.versions
  address : c.address = s.versions.allocated
  name : c.val.name = name
  files : ∃ back, s.versions.versions.getLast? = some back ∧ c.val.files = back.val.files
  current : s'.versions.current = some c.address
  updates : s'.updates = s.updates ++ [⟨delta, some c.address, .added⟩]
  disk : s'.disk = s.disk
  published : s'.published = s.published
  completed : s'.completed = s.completed

theorem startUpdate_cases {d name : Nat} (taken : step s (.startUpdate d name) = some s') :
    ∃ delta c, Started s s' name delta c := by
  cases step_cases taken with
  | @startUpdate _ _ delta added free atDelta new =>
    obtain ⟨back, last, -, current, -, identity⟩ := addNewVersion_cases new
    have made : (s.versions.allocated, ⟨name, back.val.files⟩) ∈
        added.2.versions.map Cell.identity :=
      identity ▸ List.mem_append_right _ (List.mem_singleton.mpr rfl)
    obtain ⟨c, hc, eq⟩ := List.mem_map.mp made
    obtain ⟨address, val⟩ := Prod.mk.inj eq
    have latest : added.2.current = some c.address := current.trans (congrArg some address.symm)
    exact ⟨delta, c, free.2, List.mem_of_getElem? atDelta, hc, address, congrArg (·.name) val,
      ⟨back, last, congrArg (·.files) val⟩, latest, by rw [latest], rfl, rfl, rfl⟩

/-- The version that was named last was added before any new one. -/
theorem Inv.published_lt (inv : Inv s) {p : Nat} (published : s.published = some p) :
    p < s.versions.allocated := by
  cases pointer : s.disk.current with
  | none => simp [inv.pointer pointer] at published
  | some n =>
    obtain ⟨x, hx, eq, -⟩ := inv.named n pointer
    obtain rfl := Option.some.inj (published.symm.trans eq)
    exact inv.guards.versions.allocated x hx

section Started

variable {d name : Nat} {delta : GuardDelta}

theorem Started.other (inv : Inv s) (taken : step s (.startUpdate d name) = some s')
    {x : Cell VersionRep} (hx : x ∈ s.versions.versions) (tables : Tables s x) :
    ∃ x', SameVersion s s' x x' := by
  obtain ⟨x', hx', same, val, tables', listed⟩ := cell_frame (c := x) inv.guards taken hx
    (fun erases => by cases erases) (fun _ _ same => by cases same) tables
  exact ⟨x', hx', same, val, tables', listed⟩

/-- The new version starts with the files of the current one. -/
theorem Started.tables (inv : Inv s) (taken : step s (.startUpdate d name) = some s')
    (started : Started s s' name delta c) : Tables s' c := by
  obtain ⟨x, hx, currentBefore, tables⟩ := inv.current
  obtain ⟨y, last', currentLast⟩ := inv.guards.versions.back
  obtain ⟨back, last, files⟩ := started.files
  obtain rfl := Option.some.inj (last.symm.trans last')
  obtain rfl := eq_of_address inv.guards.cells.distinct hx (List.mem_of_getLast? last)
    (Option.some.inj (currentBefore.symm.trans currentLast))
  obtain ⟨x', same⟩ := Started.other inv taken hx tables
  intro g hg
  rw [files, ← same.val] at hg
  exact same.tables g hg

theorem Started.updateOk (inv : Inv s) (taken : step s (.startUpdate d name) = some s')
    (started : Started s s' name delta c) : UpdateOk s' ⟨delta, some c.address, .added⟩ c := by
  have address := started.address
  constructor
  case guard => rfl
  case tables => exact started.tables inv taken
  case delta =>
    intro g hg
    refine onDisk_step inv.guards taken ?_ (inv.deltas delta started.moved g hg)
    simp only [State.allFileGuards, List.mem_append, List.mem_flatMap]
    exact Or.inr (Or.inr (Or.inl ⟨delta, started.moved, List.mem_append_right _ hg⟩))
  case upTo => exact ⟨_, started.current, le_rfl⟩
  case blank =>
    intro _ _
    rw [started.disk, started.name, List.lookup_eq_none_iff]
    intro p hp
    simpa using (started.fresh.1.2 p hp).symm
  case described => exact fun h => by cases h
  case unnamed =>
    intro _ latest
    rw [started.published] at latest
    have := inv.published_lt latest
    omega
  case finished => exact fun h => by cases h

end Started

theorem inv_start (inv : Inv s) {d name : Nat} (taken : step s (.startUpdate d name) = some s') :
    Inv s' := by
  obtain ⟨delta, c, started⟩ := startUpdate_cases taken
  have bound := inv.guards.versions.allocated
  have address := started.address
  have upTo : ∀ x ∈ s.versions.versions, ∀ x' : Cell VersionRep, x'.address = x.address →
      UpToCurrent s' x' := by
    intro x hx x' same
    have := bound x hx
    exact ⟨_, started.current, by omega⟩
  constructor
  case guards => exact inv_step inv.guards taken
  case deltas => exact frame_deltas inv.guards taken inv.deltas
  case updates =>
    intro v hv
    rw [started.updates] at hv
    cases List.mem_append.mp hv with
    | inl old =>
      obtain ⟨x, hx, other⟩ := inv.updates v old
      obtain ⟨x', same⟩ := Started.other inv taken hx other.tables
      exact ⟨x', same.mem, same.updateOk (by rw [started.disk, same.val]) started.published
        (by rw [started.disk]) (upTo x hx x' same.address)
        (fun g hg => onDisk_step inv.guards taken (delta_held old hg)) other⟩
    | inr now =>
      obtain rfl := List.mem_singleton.mp now
      exact ⟨c, started.mem, started.updateOk inv taken⟩
  case separate =>
    rw [started.updates]
    refine List.pairwise_append.mpr ⟨inv.separate, List.pairwise_singleton _ _, ?_⟩
    intro v hv w hw same
    obtain rfl := List.mem_singleton.mp hw
    obtain ⟨x, hx, other⟩ := inv.updates v hv
    have := Option.some.inj (other.guard.symm.trans same)
    have := bound x hx
    omega
  case current => exact ⟨c, started.mem, started.current, started.tables inv taken⟩
  case named =>
    intro n pointer
    rw [started.disk] at pointer
    obtain ⟨x, hx, eq, rfl, tables, described, -⟩ := inv.named n pointer
    obtain ⟨x', same⟩ := Started.other inv taken hx tables
    exact ⟨x', same.mem, same.named (by rw [started.disk, same.val]) started.published
      (upTo x hx x' same.address) eq rfl described⟩
  case pointer => rw [started.disk, started.published]; exact inv.pointer
  case settled =>
    refine Or.inr (Or.inl ⟨⟨delta, some c.address, .added⟩, ?_, started.current.symm,
      UpdatePhase.noConfusion⟩)
    rw [started.updates]
    exact List.mem_append_right _ (List.mem_singleton.mpr rfl)
  case completed => rw [started.completed, started.disk]; exact inv.completed

theorem inv_updateStep (inv : Inv s) (inOrder : InOrder s (.updateStep i))
    (taken : step s (.updateStep i) = some s') : Inv s' := by
  have guards := inv_step inv.guards taken
  cases step_cases taken with
  | @updateStep _ u c at_ found =>
    cases phase : u.phase with
    | added => exact inv_apply inv at_ found phase taken
    | applied => exact inv_unlock inv at_ found phase guards
    | unlocked => exact inv_describe inv at_ found phase guards
    | described => exact inv_publish inv at_ found phase inOrder guards
    | published => exact inv_finish inv at_ found phase taken

end Updates

theorem inv_load {d : Disk} (wf : d.WellFormed) (complete : CompleteDirectory d) (fresh : Nat) :
    Inv (State.load d fresh) := by
  obtain ⟨-, c, hc, current, address, name, listed, nonnull⟩ :=
    loadCurrentVersion_spec wf.sstables wf.descriptors fresh
  have named : ∀ n, d.current = some n → d.descriptors.lookup n = some d.getCurrentVersion ∧
      ∀ f ∈ d.getCurrentVersion, f ∈ d.sstables := by
    intro n pointer
    obtain ⟨files, found, stored⟩ := complete n pointer
    have version : d.getCurrentVersion = files := by
      simp [Disk.getCurrentVersion, Disk.getVersion, pointer, found]
    exact version ▸ ⟨found, stored⟩
  have stored : ∀ f ∈ d.getCurrentVersion, f ∈ d.sstables := by
    intro f hf
    cases pointer : d.current with
    | none => simp [Disk.getCurrentVersion, pointer] at hf
    | some n => exact (named n pointer).2 f hf
  have tables : Tables (State.load d fresh) c := by
    intro g hg
    obtain ⟨b, rfl⟩ := nonnull g hg
    exact ⟨b, rfl, stored _ (listed ▸ List.mem_map_of_mem hg)⟩
  constructor
  case guards => exact Collection.inv_load wf fresh
  case deltas => simp [State.load]
  case updates => simp [State.load]
  case separate => exact List.Pairwise.nil
  case current => exact ⟨c, hc, current, tables⟩
  case named =>
    intro n pointer
    have pointer : d.current = some n := pointer
    refine ⟨c, hc, ?_, ?_, tables, ?_, 0, current.trans (congrArg some address), address.le⟩
    · change d.current.map (fun _ => 0) = _
      rw [pointer, address]
      rfl
    · rw [name, pointer]
      rfl
    · change d.descriptors.lookup c.val.name = some (names (State.load d fresh).files.reps c.val.files)
      rw [name, pointer]
      exact (named n pointer).1.trans (congrArg some listed.symm)
  case pointer =>
    intro empty
    have empty : d.current = none := empty
    change d.current.map _ = _
    rw [empty]
    rfl
  case settled =>
    cases pointer : d.current with
    | none => exact Or.inr (Or.inr ⟨pointer, rfl⟩)
    | some n =>
      left
      change d.current.map (fun _ => 0) = _
      rw [pointer, show (State.load d fresh).versions.current = some c.address from current, address]
      rfl
  case completed => exact fun h => by cases h

theorem inv_of_reach {s : State} (reached : Reach (machine CompleteDirectory) Orderly s) :
    Inv s := by
  apply reached.invariant
  · rintro s ⟨d, fresh, wf, -, complete, rfl⟩
    exact inv_load wf complete fresh
  · intro s a s' inv orderly taken
    cases frame : isFrame a with
    | true => exact inv_frame inv orderly.2 taken frame
    | false =>
      cases a with
      | startUpdate d name => exact inv_start inv taken
      | updateStep i => exact inv_updateStep inv orderly.1 taken
      | _ => simp [isFrame] at frame

section Runs

/-- Write a table and put it into a new delta. -/
def newTable (d i n : Nat) : List Action := [.newDelta, .getFile (tableFile n), .addNewFile d i]

/-- Run an update on its own. -/
def update (i name : Nat) : List Action := .startUpdate 0 name :: List.replicate 5 (.updateStep i)

/-- Two updates one after another, a collection after each. -/
def inTurn : List Action :=
  newTable 0 0 2 ++ update 0 5 ++
    [.lockVersions, .visitVersion, .visitVersion, .eraseVersions, .partitionFiles, .eraseFiles] ++
    newTable 0 1 3 ++ update 0 6 ++ [.lockVersions, .visitVersion, .visitVersion, .eraseVersions]

theorem oneTable_complete : CompleteDirectory oneTable := by
  intro n named
  obtain rfl : 0 = n := Option.some.inj named
  exact ⟨[tableFile 1], by decide +kernel, by decide +kernel⟩

/-- Both updates have added their versions; the second one names its version first. -/
def overtaken : List Action :=
  newTable 0 0 2 ++ newTable 1 1 3 ++ [.startUpdate 0 5, .updateStep 0, .updateStep 0,
    .startUpdate 0 6, .updateStep 1, .updateStep 1, .updateStep 1, .updateStep 1, .updateStep 0,
    .updateStep 0, .updateStep 1, .updateStep 0]

/-- The collector runs while the second update has added its version and not yet named it. -/
def collectedEarly : List Action :=
  newTable 0 0 2 ++ update 0 5 ++ newTable 0 1 3 ++ [.startUpdate 0 6, .updateStep 0,
    .updateStep 0, .lockVersions, .visitVersion, .visitVersion, .visitVersion]

end Runs

end FrenzyKV.Publication
