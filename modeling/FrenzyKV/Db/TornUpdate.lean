import FrenzyKV.Db.VersionReload

/-! Updates of the version that a crash cuts off at any byte, and what a restart makes of them
(`db/version_descriptor.cc`, `db/version.cc`). -/

namespace FrenzyKV.VersionReload

open Bytes FileNames

variable {Id : Type}

/-- How far an update got: bytes of the descriptor are written, or, behind the whole descriptor, bytes
of the current-version file, which is truncated first. -/
inductive Cut where
  | descriptor (n : Nat)
  | current (n : Nat)

/-- What is in the directory when an update with buffered writes is cut off. -/
def Directories.cut (d : Directories) (descName : ByteString) (files : List (FileRep Id)) :
    Cut → Directories
  | .descriptor n => d.write descName ((descriptorText (files.map FileRep.name)).take n)
  | .current n => (d.write descName (descriptorText (files.map FileRep.name))).write
      currentVersionDescriptorName (descName.take n)

/-- Updates one after another, each under an id of its own. -/
def updates (u : UuidText Id) (opt : WritableOptions) :
    Directories → List (Id × List (FileRep Id)) → Option Directories
  | d, [] => some d
  | d, v :: vs => (update opt d (getVersionDescriptorName u v.1) v.2).bind fun d' => updates u opt d' vs

/-- The files of the version that was updated last. -/
def lastFiles (vs : List (Id × List (FileRep Id))) : List (FileRep Id) := (vs.getLast?.map Prod.snd).getD []

/-- The files of the current version after a restart. -/
def restartFiles (u : UuidText Id) (d : Directories) (fresh : ByteString) : Option (List (FileRep Id)) :=
  (restart u d fresh).map fun loaded => loaded.2.1.files

/-- Every file under a descriptor name is a descriptor or the beginning of one. -/
def Descriptors (u : UuidText Id) (d : Directories) : Prop :=
  ∀ p ∈ d.versions, isVersionDescriptorName p.1 = true → Descriptor u (d.read p.1)

variable {u : UuidText Id} {opt : WritableOptions} {d d' : Directories} {name contents : ByteString}
  {files : List (FileRep Id)} {vs : List (Id × List (FileRep Id))} {fresh : ByteString} {id : Id}

theorem Descriptors.write (all : Descriptors u d)
    (new : isVersionDescriptorName name = true → Descriptor u contents) :
    Descriptors u (d.write name contents) := by
  intro p mem ending
  by_cases own : p.1 = name
  · rw [own, read_write_self]
    exact new (own ▸ ending)
  · rw [read_write_of_ne own]
    rcases List.mem_cons.mp mem with rfl | old
    · exact absurd rfl own
    · exact all p (List.mem_of_mem_filter old) ending

theorem Descriptors.write_current (all : Descriptors u d) (contents : ByteString) :
    Descriptors u (d.write currentVersionDescriptorName contents) :=
  all.write fun ending => absurd ending (by decide)

theorem Descriptors.write_text (all : Descriptors u d) (listed : ∀ f ∈ files, Listed u f)
    (cut : contents <+: descriptorText (files.map FileRep.name)) :
    Descriptors u (d.write name contents) :=
  all.write fun _ => ⟨files, listed, cut⟩

theorem Descriptors.cut (all : Descriptors u d) (listed : ∀ f ∈ files, Listed u f) (c : Cut) :
    Descriptors u (d.cut name files c) := by
  cases c with
  | descriptor n => exact all.write_text listed (List.take_prefix _ _)
  | current n => exact (all.write_text listed (List.prefix_refl _)).write_current _

/-- A whole update is one that is cut off behind the last byte. -/
theorem update_eq_cut (buffered : opt.needBufferedWrite = true)
    (updated : update opt d (getVersionDescriptorName u id) files = some d') :
    d' = d.cut (getVersionDescriptorName u id) files (.current vdNameLength) := by
  rw [update_eq updated, if_pos buffered, if_pos buffered, Directories.cut,
    List.take_of_length_le (getVersionDescriptorName_length u id).le]

theorem Descriptors.updates (buffered : opt.needBufferedWrite = true) (all : Descriptors u d)
    (listed : ∀ v ∈ vs, ∀ f ∈ v.2, Listed u f) (ran : updates u opt d vs = some d') : Descriptors u d' := by
  induction vs generalizing d with
  | nil =>
    obtain rfl := Option.some.inj ran
    exact all
  | cons v vs ih =>
    obtain ⟨here, later⟩ := List.forall_mem_cons.mp listed
    obtain ⟨mid, updated, rest⟩ := Option.bind_eq_some_iff.mp ran
    exact ih (update_eq_cut buffered updated ▸ all.cut here _) later rest

theorem updates_append {v : Id × List (FileRep Id)} (ran : updates u opt d (vs ++ [v]) = some d') :
    ∃ mid, update opt mid (getVersionDescriptorName u v.1) v.2 = some d' := by
  induction vs generalizing d with
  | nil =>
    obtain ⟨_, updated, rest⟩ := Option.bind_eq_some_iff.mp ran
    obtain rfl := Option.some.inj rest
    exact ⟨d, updated⟩
  | cons w vs ih =>
    obtain ⟨mid, -, rest⟩ := Option.bind_eq_some_iff.mp ran
    exact ih rest

theorem getVersionDescriptorName_injective (u : UuidText Id) :
    Function.Injective (getVersionDescriptorName u) := by
  intro a b same
  have texts : u.toText a = u.toText b := by
    simpa [getVersionDescriptorName] using same
  exact Option.some.inj ((u.inverse a).symm.trans (texts ▸ u.inverse b))

/-- A name in the current-version file that is not whole fails the assertion. -/
theorem restartFiles_of_torn (some_byte : d.read currentVersionDescriptorName ≠ [])
    (short : (d.read currentVersionDescriptorName).length < vdNameLength) :
    restartFiles u d fresh = none := by
  have whole := List.take_of_length_le short.le
  have pointer : currentDescriptorName d = none := by
    rw [currentDescriptorName, whole, if_neg some_byte, if_neg short.ne]
  have nothing : ∀ reps, loadCurrentVersion u d reps fresh = none := by
    intro reps
    rw [loadCurrentVersion, getCurrentVersion, pointer]
    rfl
  rw [restartFiles, restart, Option.map_eq_none_iff, Option.bind_eq_none_iff]
  exact fun reps _ => nothing reps

/-- Without a name in the current-version file the database starts with no files. -/
theorem restartFiles_of_missing (missing : d.read currentVersionDescriptorName = [])
    (tables : TableNames u d.sstables) (all : Descriptors u d) : restartFiles u d fresh = some [] := by
  have none_named : Named u ([] : NameRep Id) := List.forall_mem_nil _
  obtain ⟨reps, loaded, named⟩ := loadFiles_spec none_named tables
  have pointer : currentDescriptorName d = some none := by
    rw [currentDescriptorName, missing]
    rfl
  obtain ⟨reps', others, eq⟩ := loadOthers_spec named
    ((d.versions.map (·.1)).filter fun other => other ≠ fresh && isVersionDescriptorName other) (by
      intro other mem
      obtain ⟨inside, which⟩ := List.mem_filter.mp mem
      obtain ⟨p, present, rfl⟩ := List.mem_map.mp inside
      exact all p present (Bool.and_eq_true_iff.mp which).2)
  rw [restartFiles, restart, loaded, Option.bind_some, loadCurrentVersion, getCurrentVersion, pointer]
  simp only [Option.bind_some, Option.getD_none]
  rw [eq]
  rfl

theorem restartFiles_of_update (buffered : opt.needBufferedWrite = true) {r : Directories}
    (listed : ∀ f ∈ files, Listed u f)
    (updated : update opt d (getVersionDescriptorName u id) files = some d')
    (current : r.read currentVersionDescriptorName = d'.read currentVersionDescriptorName)
    (descriptor : r.read (getVersionDescriptorName u id) = d'.read (getVersionDescriptorName u id))
    (tables : TableNames u r.sstables) (all : Descriptors u r) : restartFiles u r fresh = some files := by
  obtain ⟨reps, name, others, eq⟩ := restart_of_update fresh listed updated current descriptor tables
    fun p mem ending _ => all p mem ending
  rw [restartFiles, eq, Option.map_some, if_pos buffered]

/-- The outcome of a restart after any updates and one that a crash cuts off at any byte: the version
before, as long as the current-version file is not touched; no files at all when it is empty; a failed
assertion inside of it; the new version when it is whole. -/
theorem restart_after_cut (buffered : opt.needBufferedWrite = true) {sstables : List (ByteString × Nat)}
    (ran : updates u opt ⟨sstables, []⟩ vs = some d) (unused : ∀ v ∈ vs, v.1 ≠ id)
    (listed : ∀ v ∈ vs, ∀ f ∈ v.2, Listed u f) (new : ∀ f ∈ files, Listed u f) (c : Cut)
    {left : List (ByteString × Nat)} (tables : TableNames u left) :
    restartFiles u { d.cut (getVersionDescriptorName u id) files c with sstables := left } fresh =
      match c with
      | .descriptor _ => some (lastFiles vs)
      | .current n => if n = 0 then some [] else if n < vdNameLength then none else some files := by
  have before : Descriptors u d :=
    Descriptors.updates buffered (fun p mem => absurd mem List.not_mem_nil) listed ran
  have all : Descriptors u { d.cut (getVersionDescriptorName u id) files c with sstables := left } :=
    before.cut new c
  have length := getVersionDescriptorName_length u id
  cases c with
  | descriptor n =>
    have apart := getVersionDescriptorName_ne u id
    have kept : ∀ other, other ≠ getVersionDescriptorName u id →
        (d.cut (getVersionDescriptorName u id) files (.descriptor n)).read other = d.read other :=
      fun other ne => read_write_of_ne ne
    rcases List.eq_nil_or_concat vs with rfl | ⟨us, v, rfl⟩
    · obtain rfl := Option.some.inj ran
      exact restartFiles_of_missing (kept _ apart.symm) tables all
    · rw [List.concat_eq_append] at ran unused listed ⊢
      have inside : v ∈ us ++ [v] := List.mem_append_right _ List.mem_cons_self
      obtain ⟨mid, updated⟩ := updates_append ran
      have other : getVersionDescriptorName u v.1 ≠ getVersionDescriptorName u id :=
        fun same => unused v inside (getVersionDescriptorName_injective u same)
      rw [lastFiles, List.getLast?_concat]
      exact restartFiles_of_update buffered (listed v inside) updated (kept _ apart.symm) (kept _ other)
        tables all
  | current n =>
    have pointer : (d.cut (getVersionDescriptorName u id) files (.current n)).read
        currentVersionDescriptorName = (getVersionDescriptorName u id).take n := read_write_self
    dsimp only
    split_ifs with first few
    · refine restartFiles_of_missing ?_ tables all
      rw [first, List.take_zero] at pointer
      exact first ▸ pointer
    · have bytes : ((getVersionDescriptorName u id).take n).length = n := by
        rw [List.length_take]
        omega
      refine restartFiles_of_torn (fun empty => ?_) ?_
      · rw [pointer.symm.trans empty] at bytes
        exact first bytes.symm
      · exact (congrArg List.length pointer).trans_lt (bytes.trans_lt few)
    · obtain ⟨desc, current, updated⟩ := update_of_new opt [] (getVersionDescriptorName u id) files
      have written := read_update (getVersionDescriptorName_ne u id) updated
      rw [if_pos buffered, if_pos buffered] at written
      rw [List.take_of_length_le (by omega)] at pointer
      refine restartFiles_of_update buffered new updated (pointer.trans written.2.symm) ?_ tables all
      refine Eq.trans ?_ written.1.symm
      exact (read_write_of_ne (getVersionDescriptorName_ne u id)).trans read_write_self

/-- The second of two updates is cut off in the middle of the second name of its descriptor. -/
theorem restart_after_cut_twoUpdates :
    ∃ d, updates plainText ⟨true, 4096⟩ ⟨[], []⟩ [(zeros, levelsZeroAndThree.take 1)] = some d ∧
      restartFiles plainText { d.cut (getVersionDescriptorName plainText ones) levelsZeroAndThree
        (.descriptor 80) with sstables := [(nameASst plainText 0 zeros, 100)] } [] =
          some (levelsZeroAndThree.take 1) := by
  obtain ⟨desc, current, updated⟩ := update_of_new ⟨true, 4096⟩ [] (getVersionDescriptorName plainText zeros)
    (levelsZeroAndThree.take 1)
  have ran : updates plainText ⟨true, 4096⟩ ⟨[], []⟩ [(zeros, levelsZeroAndThree.take 1)] =
      some ((Directories.write ⟨[], []⟩ (getVersionDescriptorName plainText zeros) desc).write
        currentVersionDescriptorName current) := by
    rw [updates, updated]
    rfl
  have tables : TableNames plainText [(nameASst plainText 0 zeros, 100)] := by
    intro p mem _
    exact ⟨0, zeros, by decide, by decide, by rw [List.mem_singleton.mp mem]⟩
  refine ⟨_, ran, restart_after_cut rfl ran ?_ ?_ levelsZeroAndThree_listed (.descriptor 80) tables⟩
  · intro v mem
    rw [List.mem_singleton.mp mem]
    decide
  · intro v mem f inside
    rw [List.mem_singleton.mp mem] at inside
    exact levelsZeroAndThree_listed f (List.mem_of_mem_take inside)

end FrenzyKV.VersionReload
