import FrenzyKV.Util.FileCenter

/-! Version guards and the list of versions they refer to (`db/version.h`, `db/version.cc`). -/

namespace FrenzyKV

open Framework RefCount SortedDifference

/-- The name stands for the uuid in the name of the descriptor. -/
structure VersionRep where
  name : Nat
  files : List Guard

/-- `version_delta`. -/
structure GuardDelta where
  compacted : List Guard
  added : List Guard

namespace GuardDelta

def empty : GuardDelta := ⟨[], []⟩

def isEmpty (delta : GuardDelta) : Bool := delta.compacted.isEmpty && delta.added.isEmpty

def guards (delta : GuardDelta) : List Guard := delta.compacted ++ delta.added

end GuardDelta

/-- `m_versions` and `m_current`. -/
structure VersionCenter where
  versions : List (Cell VersionRep)
  current : Guard
  allocated : Nat

/-- The guards of all versions. -/
def VersionCenter.files (vc : VersionCenter) : List Guard := vc.versions.flatMap (·.val.files)

def sortGuards (reps : List (Cell File)) (gs : List Guard) : List Guard :=
  gs.insertionSort fun g h => (fileOf reps g).rank ≤ (fileOf reps h).rank

/-- What is left of the files of a version when a delta is applied. -/
def keptGuards (reps : List (Cell File)) (files : List Guard) (delta : GuardDelta) : List Guard :=
  setDifference (fun g => (fileOf reps g).rank) (sortGuards reps files)
    (sortGuards reps delta.compacted)

/-- `version_rep::operator+=` with the guards that it copies and drops on its way. -/
def plusEquals (reps : List (Cell File)) (files : List Guard) (delta : GuardDelta) :
    List (Cell File) × List Guard :=
  if delta.isEmpty then (reps, files)
  else
    let kept := keptGuards reps files delta
    let copied := refAll (refAll (refAll (refAll reps delta.added) files) delta.compacted) kept
    -- the old list goes first, then the sorted copies
    (derefAll (derefAll (derefAll copied files) delta.compacted) files, delta.added ++ kept)

/-- `version_center::add_new_version`. The guard it returns is a copy of `m_current`. -/
def addNewVersion (reps : List (Cell File)) (vc : VersionCenter) (name : Nat) :
    Option (List (Cell File) × VersionCenter) :=
  vc.versions.getLast?.map fun back =>
    let made : Guard := some vc.allocated
    let versions := vc.versions ++ [⟨vc.allocated, 0, ⟨name, back.val.files⟩⟩]
    (refAll reps back.val.files,
      ⟨ref (deref (ref versions made) vc.current) made, made, vc.allocated + 1⟩)

/-- A descriptor as a version, whose delta is dropped in the end. -/
def loadVersion (fc : FileCenter) (name : Nat) (files : List File) : FileCenter × VersionRep :=
  let got := fc.getFiles files
  let sum := plusEquals got.1.reps [] ⟨[], got.2⟩
  ({ got.1 with reps := derefAll sum.1 got.2 }, ⟨name, sum.2⟩)

/-- The loop of `load_current_version` over the other descriptors. -/
def loadOthers (d : Disk) (fc : FileCenter) (vc : VersionCenter) :
    List Nat → FileCenter × VersionCenter
  | [] => (fc, vc)
  | name :: rest =>
    let loaded := loadVersion fc name (d.getVersion name)
    loadOthers d loaded.1 { vc with
      versions := ⟨vc.allocated, 0, loaded.2⟩ :: vc.versions
      allocated := vc.allocated + 1 } rest

/-- `version_center::load_current_version`. Without a current version an empty one gets the
name `fresh`. -/
def loadCurrentVersion (d : Disk) (fc : FileCenter) (fresh : Nat) : FileCenter × VersionCenter :=
  let name := d.current.getD fresh
  let loaded := loadVersion fc name d.getCurrentVersion
  loadOthers d loaded.1 ⟨ref [⟨0, 0, loaded.2⟩] (some 0), some 0, 1⟩
    ((d.descriptors.map (·.1)).filter (· ≠ name))

/-- `in_mem_GC_impl`, which erases the versions without guards. -/
def inMemGC (reps : List (Cell File)) (vc : VersionCenter) : List (Cell File) × VersionCenter :=
  (derefAll reps ((vc.versions.filter (·.refs = 0)).flatMap (·.val.files)),
    { vc with versions := vc.versions.filter (·.refs ≠ 0) })

section Files

variable {reps reps' : List (Cell File)} {vc vc' : VersionCenter} {files others : List Guard}
  {delta : GuardDelta} {name : Nat}

/-- On the files that the guards stand for this is the operation on versions. -/
theorem names_plusEquals :
    names reps (plusEquals reps files delta).2 =
      Version.apply (names reps files) ⟨names reps delta.compacted, names reps delta.added⟩ := by
  have sorted : ∀ gs, (sortGuards reps gs).map (fileOf reps) = Version.sort (gs.map (fileOf reps)) :=
    fun gs => List.map_insertionSort _ _ _ _ fun _ _ _ _ => Iff.rfl
  rw [plusEquals, Version.apply]
  cases empty : delta.isEmpty with
  | true =>
    have : ((names reps delta.compacted).isEmpty && (names reps delta.added).isEmpty) = true := by
      simpa [GuardDelta.isEmpty, names] using empty
    rw [if_pos rfl, if_pos this]
  | false =>
    have : ¬ ((names reps delta.compacted).isEmpty && (names reps delta.added).isEmpty) = true := by
      simpa [GuardDelta.isEmpty, names] using empty
    rw [if_neg (by simp), if_neg this]
    simp only [names, List.map_append, keptGuards]
    rw [map_setDifference, sorted, sorted]

@[simp] theorem plusEquals_identity :
    (plusEquals reps files delta).1.map Cell.identity = reps.map Cell.identity := by
  rw [plusEquals]
  split
  · rfl
  · simp

theorem plusEquals_evolves :
    Evolves reps (files ++ (delta.guards ++ others)) (plusEquals reps files delta).1
      ((plusEquals reps files delta).2 ++ (delta.guards ++ others)) := by
  rw [plusEquals]
  split
  · exact .refl
  · let kept := keptGuards reps files delta
    have keptOld : ∀ a, some a ∈ kept → some a ∈ files := fun a mem =>
      (List.mem_insertionSort _).mp ((setDifference_sublist _ _ _).subset mem)
    let all := files ++ (delta.guards ++ others)
    have copied : Evolves reps all
        (refAll (refAll (refAll (refAll reps delta.added) files) delta.compacted) kept)
        (kept ++ (delta.compacted ++ (files ++ (delta.added ++ all)))) := by
      refine (((Evolves.copyAll ?_).trans (.copyAll ?_)).trans (.copyAll ?_)).trans (.copyAll ?_)
      all_goals
        intro a mem
        simp only [all, GuardDelta.guards, List.mem_append]
      · exact Or.inr (Or.inl (Or.inr mem))
      · exact Or.inr (Or.inl mem)
      · exact Or.inr (Or.inr (Or.inr (Or.inl (Or.inl mem))))
      · exact Or.inr (Or.inl (keptOld a mem))
    have order : Evolves (refAll (refAll (refAll (refAll reps delta.added) files) delta.compacted)
        kept) (kept ++ (delta.compacted ++ (files ++ (delta.added ++ all)))) _
        (files ++ (delta.compacted ++ (files ++ (delta.added ++ kept ++ (delta.guards ++ others))))) :=
      .of_count fun a => by
        simp only [all, List.count_append]
        omega
    exact (((copied.trans order).trans .releaseAll).trans .releaseAll).trans .releaseAll

theorem addNewVersion_cases {result : List (Cell File) × VersionCenter}
    (added : addNewVersion reps vc name = some result) :
    ∃ back, vc.versions.getLast? = some back ∧ result.1 = refAll reps back.val.files ∧
      result.2.current = some vc.allocated ∧ result.2.allocated = vc.allocated + 1 ∧
      result.2.versions.map Cell.identity =
        vc.versions.map Cell.identity ++ [(vc.allocated, ⟨name, back.val.files⟩)] := by
  obtain ⟨back, last, rfl⟩ := Option.map_eq_some_iff.mp added
  refine ⟨back, last, rfl, rfl, rfl, ?_⟩
  simp only [ref_identity, deref_identity, List.map_append, List.map_cons, List.map_nil]
  rfl

theorem VersionCenter.files_identity (vc : VersionCenter) :
    vc.files = (vc.versions.map Cell.identity).flatMap (·.2.files) := by
  rw [VersionCenter.files, List.flatMap_map]
  rfl

/-- Adding a version copies the guards of the last one. -/
theorem addNewVersion_evolves {result : List (Cell File) × VersionCenter}
    (added : addNewVersion reps vc name = some result) :
    Evolves reps (vc.files ++ others) result.1 (result.2.files ++ others) := by
  obtain ⟨back, last, copied, -, -, same⟩ := addNewVersion_cases added
  have known : ∀ a, some a ∈ back.val.files → some a ∈ vc.files ++ others := fun a mem =>
    List.mem_append_left _ (List.mem_flatMap.mpr ⟨back, List.mem_of_getLast? last, mem⟩)
  rw [copied, result.2.files_identity, same, List.flatMap_append, ← vc.files_identity]
  refine (Evolves.copyAll known).trans (.of_count fun a => ?_)
  simp only [List.flatMap_cons, List.flatMap_nil, List.append_nil, List.count_append]
  omega

theorem addNewVersion_exact {result : List (Cell File) × VersionCenter}
    (added : addNewVersion reps vc name = some result)
    (exact : Exact vc.versions (vc.current :: others))
    (bound : ∀ c ∈ vc.versions, c.address < vc.allocated) :
    Exact result.2.versions (result.2.current :: some vc.allocated :: others) := by
  obtain ⟨back, -, rfl⟩ := Option.map_eq_some_iff.mp added
  have alloc := exact.alloc ⟨name, back.val.files⟩ fun c hc => (bound c hc).ne
  have made := List.mem_append_right vc.versions (List.mem_singleton.mpr
    (Eq.refl (⟨vc.allocated, 0, ⟨name, back.val.files⟩⟩ : Cell VersionRep)))
  have counted := alloc.ref (g := some vc.allocated) fun a eq => ⟨_, made, Option.some.inj eq⟩
  have ordered : Exact _ (vc.current :: some vc.allocated :: others) := counted.of_count fun a => by
    simp only [List.count_cons]
    omega
  have moved := ordered.deref
  exact moved.ref fun a eq => moved.held a (by simp [eq])

/-- Erasing the unreferenced versions drops their guards. -/
theorem inMemGC_evolves :
    Evolves reps (vc.files ++ others) (inMemGC reps vc).1 ((inMemGC reps vc).2.files ++ others) := by
  refine (Evolves.of_count fun a => ?_).trans Evolves.releaseAll
  have parts := ((List.filter_append_perm (fun c : Cell VersionRep => c.refs = 0)
    vc.versions).flatMap_right (·.val.files)).count_eq (some a)
  simp only [VersionCenter.files, inMemGC, List.count_append, List.flatMap_append, ← decide_not,
    ne_eq] at parts ⊢
  omega

theorem inMemGC_exact (exact : Exact vc.versions others) :
    Exact (inMemGC reps vc).2.versions others := by
  apply exact.collect
  intro c hc garbage
  have zero : c.refs = 0 := by simpa using garbage
  exact fun mem => (exact.refs_ne_zero_iff hc).mpr mem zero

/-- Replacing the files of one version. -/
theorem count_files_replace {cells : List (Cell VersionRep)} {c : Cell VersionRep}
    (distinct : cells.Pairwise (·.address ≠ ·.address)) (hc : c ∈ cells) (new : List Guard)
    (a : Guard) :
    ((cells.map fun v => if v.address = c.address then { v with val := ⟨v.val.name, new⟩ }
        else v).flatMap (·.val.files)).count a + c.val.files.count a =
      (cells.flatMap (·.val.files)).count a + new.count a := by
  obtain ⟨before, after, rfl⟩ := List.append_of_mem hc
  obtain ⟨-, rest, cross⟩ := List.pairwise_append.mp distinct
  have others : ∀ part : List (Cell VersionRep), (∀ v ∈ part, v.address ≠ c.address) →
      (part.map fun v => if v.address = c.address then { v with val := ⟨v.val.name, new⟩ }
        else v) = part := by
    intro part free
    refine (List.map_congr_left fun v hv => ?_).trans (List.map_id part)
    exact if_neg (free v hv)
  rw [List.map_append, List.map_cons, others before fun v hv => cross v hv c List.mem_cons_self,
    others after fun v hv => ((List.pairwise_cons.mp rest).1 v hv).symm, if_pos rfl]
  simp only [List.flatMap_append, List.flatMap_cons, List.count_append]
  omega

end Files

/-- The versions have names of their own, and the last one is current. -/
structure VersionCenter.Coherent (vc : VersionCenter) : Prop where
  allocated : ∀ c ∈ vc.versions, c.address < vc.allocated
  names : vc.versions.Pairwise (·.val.name ≠ ·.val.name)
  back : ∃ c, vc.versions.getLast? = some c ∧ vc.current = some c.address

namespace VersionCenter.Coherent

variable {vc vc' : VersionCenter} {reps : List (Cell File)} {others : List Guard}

theorem eq_of_name (coherent : vc.Coherent) {c d : Cell VersionRep} (hc : c ∈ vc.versions)
    (hd : d ∈ vc.versions) (same : c.val.name = d.val.name) : c = d :=
  eq_of_pairwise_ne coherent.names hc hd same

theorem of_identity (coherent : vc.Coherent) {versions : List (Cell VersionRep)}
    (same : versions.map Cell.identity = vc.versions.map Cell.identity) :
    Coherent { vc with versions } where
  allocated c hc := by
    obtain ⟨d, hd, address, -⟩ := mem_of_identity same hc
    exact address ▸ coherent.allocated d hd
  names := by
    have vals := map_of_identity (fun _ v => v.name) same
    have nodup : (vc.versions.map fun c => c.val.name).Pairwise (· ≠ ·) :=
      List.pairwise_map.mpr coherent.names
    rw [← vals] at nodup
    exact List.pairwise_map.mp nodup
  back := by
    obtain ⟨c, last, current⟩ := coherent.back
    have := congrArg List.getLast? same
    rw [List.getLast?_map, List.getLast?_map, last] at this
    obtain ⟨d, last', eq⟩ := Option.map_eq_some_iff.mp this
    exact ⟨d, last', current.trans (congrArg some (Prod.mk.inj eq).1.symm)⟩

/-- Replacing the files of a version. -/
theorem modify (coherent : vc.Coherent) {f : Cell VersionRep → Cell VersionRep}
    (address : ∀ c, (f c).address = c.address) (name : ∀ c, (f c).val.name = c.val.name) :
    Coherent { vc with versions := vc.versions.map f } where
  allocated c hc := by
    obtain ⟨d, hd, rfl⟩ := List.mem_map.mp hc
    exact address d ▸ coherent.allocated d hd
  names := List.pairwise_map.mpr (coherent.names.imp fun ne => by rwa [name, name])
  back := by
    obtain ⟨c, last, current⟩ := coherent.back
    refine ⟨f c, ?_, current.trans (congrArg some (address c).symm)⟩
    rw [List.getLast?_map, last]
    rfl

theorem add {result : List (Cell File) × VersionCenter} {name : Nat} (coherent : vc.Coherent)
    (added : addNewVersion reps vc name = some result)
    (fresh : ∀ c ∈ vc.versions, c.val.name ≠ name) : result.2.Coherent := by
  obtain ⟨back, -, rfl⟩ := Option.map_eq_some_iff.mp added
  let made : Cell VersionRep := ⟨vc.allocated, 0, ⟨name, back.val.files⟩⟩
  have plain : Coherent ⟨vc.versions ++ [made], some vc.allocated, vc.allocated + 1⟩ := by
    constructor
    case allocated =>
      intro c hc
      cases List.mem_append.mp hc with
      | inl old => exact (coherent.allocated c old).trans (Nat.lt_succ_self _)
      | inr new =>
        obtain rfl := List.mem_singleton.mp new
        exact Nat.lt_succ_self _
    case names =>
      refine List.pairwise_append.mpr ⟨coherent.names, List.pairwise_singleton _ _, ?_⟩
      intro c hc d hd
      obtain rfl := List.mem_singleton.mp hd
      exact fresh c hc
    case back => exact ⟨made, List.getLast?_concat .., rfl⟩
  exact plain.of_identity (ref_identity.trans (deref_identity.trans ref_identity))

/-- The current version has a guard, so a collection keeps it last. -/
theorem gc (coherent : vc.Coherent) (exact : Exact vc.versions (vc.current :: others)) :
    (inMemGC reps vc).2.Coherent where
  allocated c hc := coherent.allocated c (List.mem_filter.mp hc).1
  names := coherent.names.sublist List.filter_sublist
  back := by
    obtain ⟨c, last, current⟩ := coherent.back
    have hc := List.mem_of_getLast? last
    have used : c.refs ≠ 0 := (exact.refs_ne_zero_iff hc).mpr (by simp [current])
    obtain ⟨before, eq⟩ := List.getLast?_eq_some_iff.mp last
    refine ⟨c, ?_, current⟩
    simp only [inMemGC, eq, List.filter_append]
    simp [used]

end VersionCenter.Coherent

section Load

variable {fc : FileCenter} {gs : List Guard}

/-- What a loaded version leaves behind: its guards, and all guards that were there. -/
theorem loadVersion_spec (coherent : fc.Coherent []) (exact : Exact fc.reps gs) (name : Nat)
    (files : List File) :
    let loaded := loadVersion fc name files
    loaded.1.Coherent [] ∧ Exact loaded.1.reps (loaded.2.files ++ gs) ∧ loaded.2.name = name ∧
      names loaded.1.reps loaded.2.files = files ∧
      ∀ a, some a ∈ gs → fileOf loaded.1.reps (some a) = fileOf fc.reps (some a) := by
  obtain ⟨coherent', exact', listed, same⟩ := FileCenter.getFiles_spec coherent exact files
  let got := fc.getFiles files
  let delta : GuardDelta := ⟨[], got.2⟩
  have summed : Evolves got.1.reps ([] ++ (delta.guards ++ gs)) (plusEquals got.1.reps [] delta).1
      ((plusEquals got.1.reps [] delta).2 ++ (delta.guards ++ gs)) := plusEquals_evolves
  have ordered : Evolves (plusEquals got.1.reps [] delta).1
      ((plusEquals got.1.reps [] delta).2 ++ (delta.guards ++ gs)) _
      (got.2 ++ ((plusEquals got.1.reps [] delta).2 ++ gs)) := .of_count fun a => by
    simp only [delta, GuardDelta.guards, List.nil_append, List.count_append]
    omega
  have all := (summed.trans ordered).trans .releaseAll
  refine ⟨coherent'.of_identity all.same, all.exact exact', rfl, ?_, fun a mem => ?_⟩
  · have sum := @names_plusEquals got.1.reps [] delta
    have apply : Version.apply [] ⟨[], files⟩ = files := by
      cases files <;> simp [Version.apply, Version.sort, setDifference]
    refine ((names_of_identity all.same _).trans sum).trans (Eq.trans ?_ apply)
    exact congrArg (fun added => Version.apply [] ⟨[], added⟩) listed
  · exact (fileOf_of_identity all.same).trans (same a mem)

theorem plusEquals_subset {reps : List (Cell File)} {files : List Guard} {delta : GuardDelta} :
    ∀ g ∈ (plusEquals reps files delta).2, g ∈ files ∨ g ∈ delta.added := by
  intro g hg
  rw [plusEquals] at hg
  split at hg
  · exact Or.inl hg
  · cases List.mem_append.mp hg with
    | inl added => exact Or.inr added
    | inr kept =>
      exact Or.inl ((List.mem_insertionSort _).mp ((setDifference_sublist _ _ _).subset kept))

theorem loadVersion_isSome (fc : FileCenter) (name : Nat) (files : List File) :
    ∀ g ∈ (loadVersion fc name files).2.files, ∃ a, g = some a := by
  intro g hg
  cases plusEquals_subset g hg with
  | inl old => simp at old
  | inr added => exact FileCenter.getFiles_isSome fc files g added

/-- The counts right after loading: `m_current` is the only version guard. -/
structure Loaded (fc : FileCenter) (vc : VersionCenter) : Prop where
  coherent : fc.Coherent []
  reps : Exact fc.reps vc.files
  versions : vc.Coherent
  cells : Exact vc.versions [vc.current]

theorem loadOthers_spec {d : Disk} {vc : VersionCenter} (loaded : Loaded fc vc) {rest : List Nat}
    (nodup : rest.Nodup) (fresh : ∀ n ∈ rest, ∀ c ∈ vc.versions, c.val.name ≠ n) :
    let result := loadOthers d fc vc rest
    Loaded result.1 result.2 ∧ result.2.current = vc.current ∧
      (∀ c ∈ vc.versions, c ∈ result.2.versions) ∧
      ∀ a, some a ∈ vc.files → fileOf result.1.reps (some a) = fileOf fc.reps (some a) := by
  induction rest generalizing fc vc with
  | nil => exact ⟨loaded, rfl, fun c hc => hc, fun a _ => rfl⟩
  | cons n rest ih =>
    obtain ⟨notIn, nodup⟩ := List.nodup_cons.mp nodup
    obtain ⟨coherent, exact, named, -, same⟩ :=
      loadVersion_spec loaded.coherent loaded.reps n (d.getVersion n)
    have bound := loaded.versions.allocated
    let version := (loadVersion fc n (d.getVersion n)).2
    let made : Cell VersionRep := ⟨vc.allocated, 0, version⟩
    let more : VersionCenter := { vc with
      versions := made :: vc.versions
      allocated := vc.allocated + 1 }
    have grown : Loaded (loadVersion fc n (d.getVersion n)).1 more := by
      constructor
      case coherent => exact coherent
      case reps => exact exact
      case cells =>
        have alloc := loaded.cells.alloc version fun c hc => (bound c hc).ne
        exact alloc.perm (List.perm_append_singleton made vc.versions)
      case versions =>
        constructor
        case allocated =>
          intro c hc
          cases List.mem_cons.mp hc with
          | inl eq => exact eq ▸ Nat.lt_succ_self _
          | inr old => exact (bound c old).trans (Nat.lt_succ_self _)
        case names =>
          refine List.pairwise_cons.mpr ⟨fun c hc => ?_, loaded.versions.names⟩
          exact named ▸ (fresh n List.mem_cons_self c hc).symm
        case back =>
          obtain ⟨c, last, current⟩ := loaded.versions.back
          refine ⟨c, ?_, current⟩
          rw [List.getLast?_cons, last]
          rfl
    obtain ⟨done, current, kept, same'⟩ := ih grown nodup (by
      intro m hm c hc
      cases List.mem_cons.mp hc with
      | inl eq =>
        subst eq
        exact fun eq => notIn (named.symm.trans eq ▸ hm)
      | inr old => exact fresh m (List.mem_cons_of_mem _ hm) c old)
    refine ⟨done, current, fun c hc => kept c (List.mem_cons_of_mem _ hc), fun a mem => ?_⟩
    have inMore : some a ∈ more.files := List.mem_append_right version.files mem
    exact (same' a inMore).trans (same a mem)

/-- After loading, the current version has the files that the current-version file names. -/
theorem loadCurrentVersion_spec {d : Disk} (tables : d.sstables.Nodup)
    (descriptors : (d.descriptors.map (·.1)).Nodup) (fresh : Nat) :
    let result := loadCurrentVersion d (FileCenter.loadFiles d.sstables) fresh
    Loaded result.1 result.2 ∧ ∃ c ∈ result.2.versions, result.2.current = some c.address ∧
      c.address = 0 ∧ c.val.name = d.current.getD fresh ∧
      names result.1.reps c.val.files = d.getCurrentVersion ∧
      ∀ g ∈ c.val.files, ∃ a, g = some a := by
  obtain ⟨coherent, exact⟩ := FileCenter.loadFiles_spec tables
  obtain ⟨coherent', exact', named, listed, -⟩ :=
    loadVersion_spec coherent exact (d.current.getD fresh) d.getCurrentVersion
  let version := (loadVersion (FileCenter.loadFiles d.sstables) (d.current.getD fresh)
    d.getCurrentVersion).2
  let first : VersionCenter := ⟨[⟨0, 1, version⟩], some 0, 1⟩
  have start : Loaded (loadVersion (FileCenter.loadFiles d.sstables) (d.current.getD fresh)
      d.getCurrentVersion).1 first := by
    constructor
    case coherent => exact coherent'
    case reps => simpa [first, VersionCenter.files] using exact'
    case versions =>
      constructor
      case allocated => simp [first]
      case names => exact List.pairwise_singleton _ _
      case back => exact ⟨_, rfl, rfl⟩
    case cells =>
      constructor
      case distinct => exact List.pairwise_singleton _ _
      case counts => simp [first]
      case held => simp [first]
  obtain ⟨done, current, kept, same⟩ := loadOthers_spec (d := d) start (descriptors.filter _) (by
    intro n hn c hc
    obtain rfl := List.mem_singleton.mp hc
    have other : n ≠ d.current.getD fresh := of_decide_eq_true (List.mem_filter.mp hn).2
    exact fun eq => other (eq.symm.trans named))
  have mem := kept _ (List.mem_singleton.mpr rfl)
  refine ⟨done, _, mem, current, rfl, named, Eq.trans ?_ listed, loadVersion_isSome _ _ _⟩
  refine List.map_congr_left fun g hg => ?_
  cases g with
  | none => rw [fileOf_null, fileOf_null]
  | some a => exact same a (by simpa [first, VersionCenter.files] using hg)

end Load

end FrenzyKV
