import FrenzyKV.Db.VersionDescriptor
import FrenzyKV.Io.IouringWritable
import FrenzyKV.Util.FileNames

/-! The version directory as files with bytes, how an update writes it and how a restart reads it
(`db/version_descriptor.cc`, `db/version.cc`, `util/file_center.cc`). -/

namespace FrenzyKV

open Bytes FileNames

namespace VersionReload

def newline : ByteString := [byteOf '\n']

/-- The loop of `append_version_descriptor`, and its `sync`. -/
def appendVersionDescriptor (opt : WritableOptions) (file : IouringWritable) :
    List ByteString → Option IouringWritable
  | [] => some file.flushValid
  | name :: filenames =>
    (file.append opt.needBufferedWrite name).bind fun file =>
      (file.append opt.needBufferedWrite newline).bind fun file =>
        appendVersionDescriptor opt file filenames

/-- `write_version_descriptor`, which asserts that the file is empty, as what is in the file then. -/
def writeVersionDescriptor (opt : WritableOptions) (existing : ByteString)
    (filenames : List ByteString) : Option ByteString :=
  if existing = [] then
    (appendVersionDescriptor opt (openWritable opt existing) filenames).map IouringWritable.file
  else none

/-- `set_current_version_file`, which opens the file with truncation. -/
def setCurrentVersionFile (opt : WritableOptions) (filename : ByteString) : Option ByteString :=
  ((openWritable opt []).append opt.needBufferedWrite filename).map fun file => file.flushValid.file

/-- A `file_rep`. -/
@[ext]
structure FileRep (Id : Type) where
  level : Int
  fileId : Id
  name : ByteString

/-- The table files with their sizes, and the files of the version directory with their contents. -/
structure Directories where
  sstables : List (ByteString × Nat)
  versions : List (ByteString × ByteString)

namespace Directories

/-- What a reader of the version directory finds; a missing file is created empty. -/
def read (d : Directories) (name : ByteString) : ByteString := (d.versions.lookup name).getD []

def write (d : Directories) (name contents : ByteString) : Directories :=
  { d with versions := (name, contents) :: d.versions.filter (·.1 ≠ name) }

end Directories

/-- `current_version_descriptor_name`. -/
def currentVersionDescriptorName : ByteString :=
  text ['c', 'u', 'r', 'r', 'e', 'n', 't', '_', 'v', 'e', 'r', 's', 'i', 'o', 'n', '_', 'd', 'e', 's',
    'c', 'r', 'i', 'p', 't', 'o', 'r']

variable {Id : Type}

/-- The end of an update: the descriptor of the version, then the file that names it. -/
def update (opt : WritableOptions) (d : Directories) (descName : ByteString)
    (files : List (FileRep Id)) : Option Directories :=
  (writeVersionDescriptor opt (d.read descName) (files.map FileRep.name)).bind fun desc =>
    (setCurrentVersionFile opt descName).map fun current =>
      (d.write descName desc).write currentVersionDescriptorName current

/-- `read_version_descriptor`: reads of one name and a newline. A read that gives less than a name
is dropped. -/
def readVersionDescriptor (contents : ByteString) : List ByteString :=
  if contents = [] then []
  else
    let buffer := contents.take (sstNameLength + 1)
    let later := readVersionDescriptor (contents.drop (sstNameLength + 1))
    if buffer.length < sstNameLength then later else buffer.take sstNameLength :: later
termination_by contents.length
decreasing_by
  rename_i some_byte
  have := List.length_pos_of_ne_nil some_byte
  rw [List.length_drop]
  omega

/-- `m_name_rep`. -/
abbrev NameRep (Id : Type) := List (ByteString × FileRep Id)

variable (u : UuidText Id)

/-- A new `file_rep` for a name. -/
def emplace (reps : NameRep Id) (name : ByteString) : Option (NameRep Id × FileRep Id) :=
  (retriveLevelAndIdFromSstName u name).map fun levelAndId =>
    let rep : FileRep Id := ⟨levelAndId.1, levelAndId.2, name⟩
    ((name, rep) :: reps, rep)

/-- `file_center::load_files`. Empty files are deleted; every other one must be a table. -/
def loadFiles (reps : NameRep Id) : List (ByteString × Nat) → Option (NameRep Id)
  | [] => some reps
  | (name, fileSize) :: entries =>
    if fileSize = 0 then loadFiles reps entries
    else (emplace u reps name).bind fun added => loadFiles added.1 entries

/-- `file_center::get_file`. -/
def getFile (reps : NameRep Id) (name : ByteString) : Option (NameRep Id × FileRep Id) :=
  if isSstName name then
    match reps.lookup name with
    | some rep => some (reps, rep)
    | none => emplace u reps name
  else none

/-- The loop of `get_version`. -/
def getFiles (reps : NameRep Id) : List ByteString → Option (NameRep Id × List (FileRep Id))
  | [] => some (reps, [])
  | name :: names =>
    (getFile u reps name).bind fun first =>
      (getFiles first.1 names).map fun others => (others.1, first.2 :: others.2)

def getVersion (d : Directories) (reps : NameRep Id) (descName : ByteString) :
    Option (NameRep Id × List (FileRep Id)) :=
  getFiles u reps (readVersionDescriptor (d.read descName))

/-- `current_descriptor_name`, with its assertion about the length. -/
def currentDescriptorName (d : Directories) : Option (Option ByteString) :=
  let name := (d.read currentVersionDescriptorName).take vdNameLength
  if name = [] then some none else if name.length = vdNameLength then some (some name) else none

/-- `get_current_version`. -/
def getCurrentVersion (d : Directories) (reps : NameRep Id) :
    Option (NameRep Id × List (FileRep Id)) :=
  (currentDescriptorName d).bind fun
    | none => some (reps, [])
    | some name => getVersion u d reps name

/-- A `version_rep`. -/
structure LoadedVersion (Id : Type) where
  descName : ByteString
  files : List (FileRep Id)

/-- The loop of `load_current_version` over the other descriptors. -/
def loadOthers (d : Directories) (reps : NameRep Id) :
    List ByteString → Option (NameRep Id × List (LoadedVersion Id))
  | [] => some (reps, [])
  | name :: names =>
    (getVersion u d reps name).bind fun got =>
      (loadOthers d got.1 names).map fun others => (others.1, others.2 ++ [⟨name, got.2⟩])

/-- `version_center::load_current_version`; without a current version an empty one gets the name
`fresh`. The result is the current version, and those that are loaded for the collection. -/
def loadCurrentVersion (d : Directories) (reps : NameRep Id) (fresh : ByteString) :
    Option (NameRep Id × LoadedVersion Id × List (LoadedVersion Id)) :=
  (getCurrentVersion u d reps).bind fun delta =>
    (currentDescriptorName d).bind fun name =>
      let current : LoadedVersion Id := ⟨name.getD fresh, delta.2⟩
      (loadOthers u d delta.1 ((d.versions.map (·.1)).filter fun name =>
        name ≠ current.descName && isVersionDescriptorName name)).map fun others =>
          (others.1, current, others.2)

/-- A restart: `load_files`, then `load_current_version`. -/
def restart (d : Directories) (fresh : ByteString) :
    Option (NameRep Id × LoadedVersion Id × List (LoadedVersion Id)) :=
  (loadFiles u [] d.sstables).bind fun reps => loadCurrentVersion u d reps fresh

/-- What a descriptor holds: each name on a line of its own. -/
def descriptorText (filenames : List ByteString) : ByteString := filenames.flatMap (· ++ newline)

section Update

variable {opt : WritableOptions} {d d' : Directories} {name other contents : ByteString}

@[simp] theorem read_write_self : (d.write name contents).read name = contents := by
  rw [Directories.read, Directories.write, List.lookup_cons, beq_self_eq_true]
  rfl

theorem read_write_of_ne (ne : other ≠ name) : (d.write name contents).read other = d.read other := by
  have absent : (other == name) = false := by simpa using ne
  rw [Directories.read, Directories.write, List.lookup_cons, absent]
  exact congrArg (·.getD []) ((lookup_filter_ne d.versions name other).trans (if_neg ne))

/-- What is appended is in the file in the end, if appends are buffered. -/
theorem appendVersionDescriptor_spec (opt : WritableOptions) (file : IouringWritable) (names : List ByteString)
    (empty : opt.needBufferedWrite = false → file.buffered = []) :
    ∃ file', appendVersionDescriptor opt file names = some file' ∧ file'.file =
      file.contents ++ if opt.needBufferedWrite = true then descriptorText names else [] := by
  induction names generalizing file with
  | nil => exact ⟨_, rfl, by rw [IouringWritable.flushValid_file]; simp [descriptorText]⟩
  | cons name names ih =>
    cases buffered : opt.needBufferedWrite with
    | true =>
      rw [buffered] at ih
      obtain ⟨named, append, contents⟩ := IouringWritable.append_buffered file name
      obtain ⟨ended, append', contents'⟩ := IouringWritable.append_buffered named newline
      obtain ⟨file', later, eq⟩ := ih ended (fun off => by cases off)
      refine ⟨file', ?_, ?_⟩
      · rw [appendVersionDescriptor, buffered, append, Option.bind_some, append', Option.bind_some, later]
      · rw [eq, contents', contents]
        simp [descriptorText]
    | false =>
      rw [buffered] at ih
      obtain ⟨named, append, contents, none_left⟩ :=
        IouringWritable.append_unbuffered (empty buffered) name
      obtain ⟨ended, append', contents', none_left'⟩ :=
        IouringWritable.append_unbuffered none_left newline
      obtain ⟨file', later, eq⟩ := ih ended fun _ => none_left'
      refine ⟨file', ?_, ?_⟩
      · rw [appendVersionDescriptor, buffered, append, Option.bind_some, append', Option.bind_some, later]
      · rw [eq, contents', contents]
        rfl

theorem setCurrentVersionFile_eq (opt : WritableOptions) (name : ByteString) :
    setCurrentVersionFile opt name = some (if opt.needBufferedWrite = true then name else []) := by
  have opened : (openWritable opt []).contents = [] := rfl
  rw [setCurrentVersionFile]
  cases buffered : opt.needBufferedWrite with
  | true =>
    obtain ⟨file, append, contents⟩ := IouringWritable.append_buffered (openWritable opt []) name
    rw [append, Option.map_some, IouringWritable.flushValid_file, contents, opened]
    rfl
  | false =>
    obtain ⟨file, append, contents, _⟩ :=
      IouringWritable.append_unbuffered (show (openWritable opt []).buffered = [] from rfl) name
    rw [append, Option.map_some, IouringWritable.flushValid_file, contents, opened]
    rfl

theorem update_eq {descName : ByteString} {files : List (FileRep Id)}
    (updated : update opt d descName files = some d') :
    d' = (d.write descName (if opt.needBufferedWrite = true then
        descriptorText (files.map FileRep.name) else [])).write currentVersionDescriptorName
      (if opt.needBufferedWrite = true then descName else []) := by
  rw [update, writeVersionDescriptor] at updated
  split at updated
  · rename_i empty
    obtain ⟨file, appended, written⟩ := appendVersionDescriptor_spec opt
      (openWritable opt (d.read descName)) (files.map FileRep.name) fun _ => rfl
    have start : (openWritable opt (d.read descName)).contents = [] := by
      rw [empty]
      rfl
    rw [appended, Option.map_some, Option.bind_some, setCurrentVersionFile_eq, Option.map_some,
      written, start, List.nil_append] at updated
    exact (Option.some.inj updated).symm
  · cases updated

/-- What an update leaves in the two files it writes. -/
theorem read_update {descName : ByteString} {files : List (FileRep Id)}
    (ne : descName ≠ currentVersionDescriptorName)
    (updated : update opt d descName files = some d') :
    d'.read descName = (if opt.needBufferedWrite = true then descriptorText (files.map FileRep.name)
      else []) ∧
    d'.read currentVersionDescriptorName = if opt.needBufferedWrite = true then descName else [] := by
  rw [update_eq updated, read_write_of_ne ne, read_write_self, read_write_self]
  exact ⟨rfl, rfl⟩

theorem read_update_of_ne {descName : ByteString} {files : List (FileRep Id)} (ne : other ≠ descName)
    (ne' : other ≠ currentVersionDescriptorName) (updated : update opt d descName files = some d') :
    d'.read other = d.read other := by
  rw [update_eq updated, read_write_of_ne ne', read_write_of_ne ne]

end Update

section Read

variable {u : UuidText Id} {reps : NameRep Id} {f : FileRep Id} {files : List (FileRep Id)}
  {c : ByteString} {names : List ByteString}

/-- A `file_rep` under the name that was made for it, whose level takes five characters at most. -/
structure Listed (u : UuidText Id) (f : FileRep Id) : Prop where
  low : 0 ≤ f.level
  high : f.level ≤ 99999
  name : f.name = nameASst u f.level f.fileId

theorem Listed.length (listed : Listed u f) : f.name.length = sstNameLength := by
  rw [listed.name, nameASst_length listed.low listed.high]

theorem Listed.retrive (listed : Listed u f) :
    retriveLevelAndIdFromSstName u f.name = some (f.level, f.fileId) := by
  have low := listed.low
  have high := listed.high
  rw [listed.name]
  exact retrive_nameASst u f.fileId (by omega) (by omega)

theorem readVersionDescriptor_nil : readVersionDescriptor [] = [] := by
  rw [readVersionDescriptor, if_pos rfl]

/-- One read takes one line. -/
theorem readVersionDescriptor_line {name : ByteString} (length : name.length = sstNameLength)
    (rest : ByteString) : readVersionDescriptor (name ++ (newline ++ rest)) =
      name :: readVersionDescriptor rest := by
  have line : (name ++ newline).length = sstNameLength + 1 := by
    rw [List.length_append, length]
    rfl
  have some_byte : name ++ (newline ++ rest) ≠ [] := by
    intro empty
    rw [(List.append_eq_nil_iff.mp empty).1] at length
    cases length
  rw [readVersionDescriptor, if_neg some_byte, ← List.append_assoc, List.take_left' line,
    List.drop_left' line]
  simp only [line, List.take_left' length]
  rw [if_neg (by omega)]

theorem readVersionDescriptor_text (lengths : ∀ name ∈ names, name.length = sstNameLength) :
    readVersionDescriptor (descriptorText names) = names := by
  induction names with
  | nil => exact readVersionDescriptor_nil
  | cons name names ih =>
    rw [descriptorText, List.flatMap_cons, List.append_assoc,
      readVersionDescriptor_line (lengths name List.mem_cons_self)]
    exact congrArg (name :: ·) (ih fun other mem => lengths other (List.mem_cons_of_mem _ mem))

/-- A descriptor that was cut off holds the first names. -/
theorem readVersionDescriptor_prefix (lengths : ∀ name ∈ names, name.length = sstNameLength)
    (cut : c <+: descriptorText names) : readVersionDescriptor c <+: names := by
  induction names generalizing c with
  | nil =>
    have nothing : readVersionDescriptor c = [] := by
      rw [List.prefix_nil.mp cut, readVersionDescriptor_nil]
    exact nothing ▸ List.nil_prefix
  | cons name names ih =>
    have length := lengths name List.mem_cons_self
    rw [descriptorText, List.flatMap_cons] at cut
    have line : (name ++ newline).length = sstNameLength + 1 := by
      rw [List.length_append, length]
      rfl
    by_cases whole : sstNameLength + 1 ≤ c.length
    · -- the first line is there
      obtain ⟨c', rfl⟩ : name ++ newline <+: c :=
        List.prefix_of_prefix_length_le (List.prefix_append _ _) cut (by omega)
      rw [List.append_assoc, readVersionDescriptor_line length]
      rw [List.prefix_append_right_inj] at cut
      rw [List.cons_prefix_cons]
      exact ⟨rfl, ih (fun other mem => lengths other (List.mem_cons_of_mem _ mem)) cut⟩
    · have inside : c <+: name ++ newline :=
        List.prefix_of_prefix_length_le cut (List.prefix_append _ _) (by omega)
      have nothing : c.drop (sstNameLength + 1) = [] := List.drop_eq_nil_of_le (by omega)
      rw [readVersionDescriptor]
      split
      · exact List.nil_prefix
      · rw [nothing, readVersionDescriptor_nil, List.take_of_length_le (by omega)]
        dsimp only
        split
        · exact List.nil_prefix
        · rename_i long
          have eq : c.take sstNameLength = name := by
            have front := List.prefix_iff_eq_take.mp inside
            rw [front, List.take_take, Nat.min_eq_left (by omega), List.take_left' length]
          rw [eq]
          exact List.cons_prefix_cons.mpr ⟨rfl, List.nil_prefix⟩

/-- The map leads from names to the reps that were made of them. -/
def Named (u : UuidText Id) (reps : NameRep Id) : Prop :=
  ∀ p ∈ reps, p.2.name = p.1 ∧ retriveLevelAndIdFromSstName u p.1 = some (p.2.level, p.2.fileId)

theorem emplace_spec (named : Named u reps) {name : ByteString} {l : Int} {id : Id}
    (parsed : retriveLevelAndIdFromSstName u name = some (l, id)) :
    ∃ reps', emplace u reps name = some (reps', ⟨l, id, name⟩) ∧ Named u reps' := by
  refine ⟨_, by rw [emplace, parsed]; rfl, ?_⟩
  intro p mem
  cases List.mem_cons.mp mem with
  | inl new =>
    rw [new]
    exact ⟨rfl, parsed⟩
  | inr old => exact named p old

/-- A file comes with the level, the id and the name it had. -/
theorem getFile_spec (named : Named u reps) (listed : Listed u f) :
    ∃ reps', getFile u reps f.name = some (reps', f) ∧ Named u reps' := by
  have table : isSstName f.name = true := by
    rw [listed.name]
    exact isSstName_nameASst u f.level f.fileId
  rw [getFile, if_pos table]
  cases found : reps.lookup f.name with
  | none => exact emplace_spec named listed.retrive
  | some rep =>
    obtain ⟨front, back, split, _⟩ := List.lookup_eq_some_iff.mp found
    obtain ⟨same, parsed⟩ := named (f.name, rep) (split ▸ List.mem_append_right _ List.mem_cons_self)
    obtain ⟨level, fileId⟩ := Prod.mk.inj (Option.some.inj (listed.retrive.symm.trans parsed))
    refine ⟨reps, ?_, named⟩
    rw [show rep = f from FileRep.ext level.symm fileId.symm same]

theorem getFiles_spec (files : List (FileRep Id)) (named : Named u reps) (listed : ∀ f ∈ files, Listed u f) :
    ∃ reps', getFiles u reps (files.map FileRep.name) = some (reps', files) ∧ Named u reps' := by
  induction files generalizing reps with
  | nil => exact ⟨reps, rfl, named⟩
  | cons f files ih =>
    obtain ⟨first, got, named⟩ := getFile_spec named (listed f List.mem_cons_self)
    obtain ⟨reps', others, named⟩ := ih named fun g mem => listed g (List.mem_cons_of_mem _ mem)
    refine ⟨reps', ?_, named⟩
    rw [List.map_cons, getFiles, got, Option.bind_some, others, Option.map_some]

/-- Every file that is not empty has a name that was made for it. -/
def TableNames (u : UuidText Id) (sstables : List (ByteString × Nat)) : Prop :=
  ∀ p ∈ sstables, p.2 ≠ 0 → ∃ (l : Int) (id : Id), -2 ^ 31 ≤ l ∧ l < 2 ^ 31 ∧ p.1 = nameASst u l id

theorem loadFiles_spec {entries : List (ByteString × Nat)} (named : Named u reps)
    (tables : TableNames u entries) :
    ∃ reps', loadFiles u reps entries = some reps' ∧ Named u reps' := by
  induction entries generalizing reps with
  | nil => exact ⟨reps, rfl, named⟩
  | cons entry entries ih =>
    have later : TableNames u entries := fun p mem => tables p (List.mem_cons_of_mem _ mem)
    obtain ⟨name, fileSize⟩ := entry
    rw [loadFiles]
    by_cases empty : fileSize = 0
    · rw [if_pos empty]
      exact ih named later
    · obtain ⟨l, id, low, high, rfl⟩ := tables _ List.mem_cons_self empty
      obtain ⟨added, made, named⟩ := emplace_spec named (retrive_nameASst u id low high)
      rw [if_neg empty, made, Option.bind_some]
      exact ih named later

/-- A descriptor that was written for a version, or the beginning of one. -/
def Descriptor (u : UuidText Id) (contents : ByteString) : Prop :=
  ∃ files : List (FileRep Id), (∀ f ∈ files, Listed u f) ∧
    contents <+: descriptorText (files.map FileRep.name)

theorem lengths_of_listed (listed : ∀ f ∈ files, Listed u f) :
    ∀ name ∈ files.map FileRep.name, name.length = sstNameLength := by
  intro name mem
  obtain ⟨f, inside, rfl⟩ := List.mem_map.mp mem
  exact (listed f inside).length

theorem getVersion_spec {d : Directories} {descName : ByteString} (named : Named u reps)
    (descriptor : Descriptor u (d.read descName)) :
    ∃ reps' got, getVersion u d reps descName = some (reps', got) ∧ Named u reps' := by
  obtain ⟨files, listed, cut⟩ := descriptor
  have first := readVersionDescriptor_prefix (lengths_of_listed listed) cut
  rw [List.prefix_iff_eq_take, ← List.map_take] at first
  obtain ⟨reps', got, named⟩ := getFiles_spec (files.take _) named
    fun f mem => listed f (List.mem_of_mem_take mem)
  exact ⟨reps', _, by rw [getVersion, first]; exact got, named⟩

theorem loadOthers_spec {d : Directories} (named : Named u reps) (names : List ByteString)
    (descriptors : ∀ name ∈ names, Descriptor u (d.read name)) :
    ∃ reps' others, loadOthers u d reps names = some (reps', others) := by
  induction names generalizing reps with
  | nil => exact ⟨reps, [], rfl⟩
  | cons name names ih =>
    obtain ⟨got, files, loaded, named⟩ := getVersion_spec named (descriptors name List.mem_cons_self)
    obtain ⟨reps', others, later⟩ := ih named fun n mem => descriptors n (List.mem_cons_of_mem _ mem)
    exact ⟨_, _, by rw [loadOthers, loaded, Option.bind_some, later, Option.map_some]⟩

end Read

section Reload

variable {u : UuidText Id} {opt : WritableOptions} {d d' r : Directories} {files : List (FileRep Id)}
  {id : Id}

theorem getVersionDescriptorName_ne (u : UuidText Id) (id : Id) :
    getVersionDescriptorName u id ≠ currentVersionDescriptorName := by
  intro same
  have length := congrArg List.length same
  rw [getVersionDescriptorName_length] at length
  exact absurd length (by decide)

/-- A name that is in the current-version file passes the assertion. -/
theorem currentDescriptorName_of_read
    (current : r.read currentVersionDescriptorName = getVersionDescriptorName u id) :
    currentDescriptorName r = some (some (getVersionDescriptorName u id)) := by
  have length := getVersionDescriptorName_length u id
  have some_byte : getVersionDescriptorName u id ≠ [] := by
    intro empty
    rw [empty] at length
    cases length
  rw [currentDescriptorName, current, List.take_of_length_le length.le]
  rw [if_neg some_byte, if_pos length]

theorem currentDescriptorName_of_update
    (updated : update opt d (getVersionDescriptorName u id) files = some d')
    (kept : r.read currentVersionDescriptorName = d'.read currentVersionDescriptorName) :
    currentDescriptorName r =
      some (if opt.needBufferedWrite = true then some (getVersionDescriptorName u id) else none) := by
  rw [(read_update (getVersionDescriptorName_ne u id) updated).2] at kept
  cases buffered : opt.needBufferedWrite with
  | true =>
    rw [buffered] at kept
    exact currentDescriptorName_of_read kept
  | false =>
    rw [currentDescriptorName, kept, buffered]
    rfl

/-- What a restart finds after an update: the files of the version, if the writes were buffered. -/
theorem restart_of_update (fresh : ByteString) (listed : ∀ f ∈ files, Listed u f)
    (updated : update opt d (getVersionDescriptorName u id) files = some d')
    (current : r.read currentVersionDescriptorName = d'.read currentVersionDescriptorName)
    (descriptor : r.read (getVersionDescriptorName u id) = d'.read (getVersionDescriptorName u id))
    (tables : TableNames u r.sstables)
    (descriptors : ∀ p ∈ r.versions, isVersionDescriptorName p.1 = true →
      p.1 ≠ getVersionDescriptorName u id → Descriptor u (r.read p.1)) :
    ∃ reps name others, restart u r fresh =
      some (reps, ⟨name, if opt.needBufferedWrite = true then files else []⟩, others) := by
  have written := (read_update (getVersionDescriptorName_ne u id) updated).1
  rw [← descriptor] at written
  have none_named : Named u ([] : NameRep Id) := List.forall_mem_nil _
  obtain ⟨reps, loaded, named⟩ := loadFiles_spec none_named tables
  have pointer := currentDescriptorName_of_update updated current
  obtain ⟨reps', got, named⟩ : ∃ reps', getCurrentVersion u r reps =
      some (reps', if opt.needBufferedWrite = true then files else []) ∧ Named u reps' := by
    rw [getCurrentVersion, pointer, Option.bind_some]
    cases buffered : opt.needBufferedWrite with
    | true =>
      rw [buffered, if_pos rfl] at written
      have names : getVersion u r reps (getVersionDescriptorName u id) =
          getFiles u reps (files.map FileRep.name) := by
        rw [getVersion, written, readVersionDescriptor_text (lengths_of_listed listed)]
      obtain ⟨reps', got, named⟩ := getFiles_spec files named listed
      exact ⟨reps', names.trans got, named⟩
    | false => exact ⟨reps, rfl, named⟩
  have others : ∀ name ∈ r.versions.map (·.1), isVersionDescriptorName name = true →
      Descriptor u (r.read name) := by
    intro name mem ending
    obtain ⟨p, inside, rfl⟩ := List.mem_map.mp mem
    by_cases own : p.1 = getVersionDescriptorName u id
    · refine ⟨files, listed, ?_⟩
      rw [own, written]
      cases opt.needBufferedWrite with
      | true => exact List.prefix_refl _
      | false => exact List.nil_prefix
    · exact descriptors p inside ending own
  rw [restart, loaded, Option.bind_some, loadCurrentVersion, got, Option.bind_some, pointer,
    Option.bind_some]
  dsimp only
  generalize (if opt.needBufferedWrite = true then some (getVersionDescriptorName u id) else none).getD
    fresh = name
  obtain ⟨reps'', loadedOthers, eq⟩ := loadOthers_spec named
    ((r.versions.map (·.1)).filter fun other => other ≠ name && isVersionDescriptorName other)
    fun other mem => by
      obtain ⟨inside, which⟩ := List.mem_filter.mp mem
      exact others other inside (Bool.and_eq_true_iff.mp which).2
  exact ⟨_, name, _, by rw [eq, Option.map_some]⟩

/-- An update completes under a name that has no descriptor yet. -/
theorem update_of_new (opt : WritableOptions) (sstables : List (ByteString × Nat)) (name : ByteString)
    (files : List (FileRep Id)) : ∃ desc current, update opt ⟨sstables, []⟩ name files =
      some ((Directories.write ⟨sstables, []⟩ name desc).write currentVersionDescriptorName current) := by
  have missing : Directories.read ⟨sstables, []⟩ name = [] := rfl
  obtain ⟨file, appended, _⟩ := appendVersionDescriptor_spec opt (openWritable opt [])
    (files.map FileRep.name) fun _ => rfl
  exact ⟨_, _, by
    rw [update, writeVersionDescriptor, missing, if_pos rfl, appended, Option.map_some,
      Option.bind_some, setCurrentVersionFile_eq, Option.map_some]⟩

/-- A version that was written completely comes back, file by file, exactly when writes are buffered
or it has no files. -/
theorem reload_iff {fresh : ByteString} (listed : ∀ f ∈ files, Listed u f)
    (updated : update opt d (getVersionDescriptorName u id) files = some d')
    (current : r.read currentVersionDescriptorName = d'.read currentVersionDescriptorName)
    (descriptor : r.read (getVersionDescriptorName u id) = d'.read (getVersionDescriptorName u id))
    (tables : TableNames u r.sstables)
    (descriptors : ∀ p ∈ r.versions, isVersionDescriptorName p.1 = true →
      p.1 ≠ getVersionDescriptorName u id → Descriptor u (r.read p.1)) :
    (∃ reps version others, restart u r fresh = some (reps, version, others) ∧
      version.files = files) ↔ opt.needBufferedWrite = true ∨ files = [] := by
  obtain ⟨reps, name, others, eq⟩ :=
    restart_of_update fresh listed updated current descriptor tables descriptors
  have exactly : (∃ reps version others, restart u r fresh = some (reps, version, others) ∧
      version.files = files) ↔ (if opt.needBufferedWrite = true then files else []) = files := by
    rw [eq]
    constructor
    · rintro ⟨reps', version, others', found, same⟩
      obtain ⟨-, rfl, -⟩ : _ ∧ _ ∧ _ := by simpa using found
      exact same
    · intro same
      exact ⟨_, _, _, rfl, same⟩
  rw [exactly]
  cases opt.needBufferedWrite with
  | true => simp
  | false => simp [eq_comm]

/-- Texts of 36 characters that stand for themselves. -/
def plainText : UuidText {s : ByteString // s.length = 36 ∧ hash ∉ s} where
  toText := Subtype.val
  ofText s := if well : s.length = 36 ∧ hash ∉ s then some ⟨s, well⟩ else none
  length id := id.property.1
  no_hash id := id.property.2
  inverse id := dif_pos id.property

/-- A uuid all of whose characters are zeros, and one of ones. -/
def zeros : {s : ByteString // s.length = 36 ∧ hash ∉ s} := ⟨List.replicate 36 (byteOf '0'), by decide⟩
def ones : {s : ByteString // s.length = 36 ∧ hash ∉ s} := ⟨List.replicate 36 (byteOf '1'), by decide⟩

/-- Files of the levels 0 and 3. -/
def levelsZeroAndThree : List (FileRep {s : ByteString // s.length = 36 ∧ hash ∉ s}) :=
  [⟨0, zeros, nameASst plainText 0 zeros⟩, ⟨3, ones, nameASst plainText 3 ones⟩]

theorem levelsZeroAndThree_listed : ∀ f ∈ levelsZeroAndThree, Listed plainText f := by
  intro f mem
  rw [levelsZeroAndThree, List.mem_pair] at mem
  cases mem with
  | inl first =>
    rw [first]
    exact ⟨by decide, by decide, rfl⟩
  | inr second =>
    rw [second]
    exact ⟨by decide, by decide, rfl⟩

/-- Only the descriptor of the update and the current-version file are there. -/
theorem descriptors_of_new {desc current : ByteString} {sstables : List (ByteString × Nat)} :
    ∀ p ∈ (((Directories.mk sstables []).write (getVersionDescriptorName u id) desc).write
        currentVersionDescriptorName current).versions,
      isVersionDescriptorName p.1 = true → p.1 ≠ getVersionDescriptorName u id →
        Descriptor u ((((Directories.mk sstables []).write (getVersionDescriptorName u id) desc).write
          currentVersionDescriptorName current).read p.1) := by
  intro p mem ending other
  cases List.mem_cons.mp mem with
  | inl pointer =>
    have no_descriptor : isVersionDescriptorName currentVersionDescriptorName = false := by decide
    rw [pointer] at ending
    cases no_descriptor.symm.trans ending
  | inr own =>
    have inside := List.mem_of_mem_filter own
    rw [Directories.write, List.filter_nil, List.mem_singleton] at inside
    exact absurd (congrArg Prod.fst inside) other

/-- The two files, with their levels, ids and names, are there again. -/
theorem twoFiles_reload : ∃ after : Directories,
    update ⟨true, 4096⟩ ⟨[(nameASst plainText 0 zeros, 100), (nameASst plainText 3 ones, 250)], []⟩
      (getVersionDescriptorName plainText zeros) levelsZeroAndThree = some after ∧
    ((∃ reps version others, restart plainText after [] = some (reps, version, others) ∧
      version.files = levelsZeroAndThree) ↔ true = true ∨ levelsZeroAndThree = []) := by
  obtain ⟨desc, current, updated⟩ := update_of_new ⟨true, 4096⟩
    [(nameASst plainText 0 zeros, 100), (nameASst plainText 3 ones, 250)]
    (getVersionDescriptorName plainText zeros) levelsZeroAndThree
  have tables : TableNames plainText
      [(nameASst plainText 0 zeros, 100), (nameASst plainText 3 ones, 250)] := by
    intro p mem _
    cases List.mem_pair.mp mem with
    | inl first => exact ⟨0, zeros, by decide, by decide, by rw [first]⟩
    | inr second => exact ⟨3, ones, by decide, by decide, by rw [second]⟩
  exact ⟨_, updated, reload_iff levelsZeroAndThree_listed updated rfl rfl tables descriptors_of_new⟩

/-- Without buffering the files of the version are gone after a restart. -/
theorem unbuffered_not_reloaded : ∃ after : Directories,
    update ⟨false, 4096⟩ ⟨[], []⟩ (getVersionDescriptorName plainText zeros) levelsZeroAndThree =
      some after ∧
    ¬ ∃ reps version others, restart plainText after [] = some (reps, version, others) ∧
      version.files = levelsZeroAndThree := by
  obtain ⟨desc, current, updated⟩ := update_of_new ⟨false, 4096⟩ []
    (getVersionDescriptorName plainText zeros) levelsZeroAndThree
  have tables : TableNames plainText [] := List.forall_mem_nil _
  obtain ⟨reps, name, others, eq⟩ := restart_of_update []
    levelsZeroAndThree_listed updated rfl rfl tables descriptors_of_new
  refine ⟨_, updated, ?_⟩
  rintro ⟨reps', version, others', found, same⟩
  rw [eq] at found
  obtain ⟨-, rfl, -⟩ : _ ∧ _ ∧ _ := by simpa using found
  cases same

end Reload

section Refinement

variable {u : UuidText Id} {nameOf : Nat → Id} {repOf : File → FileRep Id} {d d' : Directories}
  {disk : Disk} {name : Nat} {files : List File}

/-- The bytes of the version directory are those of the descriptors that the disk of
`Db.VersionDescriptor` has. -/
structure Represents (u : UuidText Id) (nameOf : Nat → Id) (repOf : File → FileRep Id)
    (d : Directories) (disk : Disk) : Prop where
  current : d.read currentVersionDescriptorName =
    (disk.current.map fun name => getVersionDescriptorName u (nameOf name)).getD []
  descriptors : ∀ name, d.read (getVersionDescriptorName u (nameOf name)) =
    descriptorText (((disk.getVersion name).map repOf).map FileRep.name)

theorem getVersionDescriptorName_inj {id id' : Id}
    (same : getVersionDescriptorName u id = getVersionDescriptorName u id') : id = id' := by
  rw [getVersionDescriptorName, getVersionDescriptorName, List.append_cancel_left_eq,
    List.cons_inj_right, List.append_left_inj] at same
  have both := congrArg u.ofText same
  rw [u.inverse, u.inverse] at both
  exact Option.some.inj both

/-- A buffered update does to the bytes what the effects of an update do to the disk. -/
theorem Represents.update {opt : WritableOptions} (buffered : opt.needBufferedWrite = true)
    (injective : Function.Injective nameOf) (represents : Represents u nameOf repOf d disk)
    (fresh : disk.FreshName name)
    (updated : update opt d (getVersionDescriptorName u (nameOf name)) (files.map repOf) = some d') :
    Represents u nameOf repOf d'
      ((disk.apply (.writeDescriptor name files)).applyAll (FrenzyKV.setCurrentVersionFile name)) := by
  obtain ⟨desc, current⟩ := read_update (getVersionDescriptorName_ne u (nameOf name)) updated
  rw [if_pos buffered] at desc current
  refine ⟨current, fun other => ?_⟩
  have listed : ((disk.apply (.writeDescriptor name files)).applyAll
      (FrenzyKV.setCurrentVersionFile name)).getVersion other =
        ((disk.descriptors ++ [(name, files)]).lookup other).getD [] := rfl
  rw [listed]
  by_cases own : other = name
  · rw [own, desc, lookup_append_self fresh.2]
    rfl
  · have ne : getVersionDescriptorName u (nameOf other) ≠ getVersionDescriptorName u (nameOf name) :=
      fun same => own (injective (getVersionDescriptorName_inj same))
    rw [read_update_of_ne ne (getVersionDescriptorName_ne u (nameOf other)) updated,
      represents.descriptors, lookup_append_of_ne own]
    rfl

/-- The current version that is read is the one the disk has. -/
theorem Represents.getCurrentVersion {reps : NameRep Id} (named : Named u reps)
    (represents : Represents u nameOf repOf d disk)
    (listed : ∀ f ∈ disk.getCurrentVersion, Listed u (repOf f)) :
    ∃ reps', getCurrentVersion u d reps = some (reps', disk.getCurrentVersion.map repOf) := by
  have current := represents.current
  cases pointer : disk.current with
  | none =>
    rw [pointer] at current
    have version : disk.getCurrentVersion = [] := by rw [Disk.getCurrentVersion, pointer]; rfl
    rw [VersionReload.getCurrentVersion, currentDescriptorName, current, version]
    exact ⟨reps, rfl⟩
  | some name =>
    rw [pointer] at current
    have version : disk.getCurrentVersion = disk.getVersion name := by
      rw [Disk.getCurrentVersion, pointer]
      rfl
    rw [version] at listed ⊢
    have all : ∀ f ∈ (disk.getVersion name).map repOf, Listed u f := by
      intro f mem
      obtain ⟨g, inside, rfl⟩ := List.mem_map.mp mem
      exact listed g inside
    obtain ⟨reps', got, -⟩ := getFiles_spec _ named all
    refine ⟨reps', ?_⟩
    rw [VersionReload.getCurrentVersion, currentDescriptorName_of_read current, Option.bind_some]
    change getVersion u d reps _ = _
    rw [getVersion, represents.descriptors,
      readVersionDescriptor_text (lengths_of_listed all), got]

end Refinement

end VersionReload

end FrenzyKV
