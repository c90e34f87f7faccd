import FrenzyKV.Framework.Cache
import FrenzyKV.Framework.Machine
import FrenzyKV.Io.CopyLoops
import FrenzyKV.Table.TableImage

/-! Tables that are kept open (`table/table_cache.cc`, `table/sstable_getter_from_cache.cc`,
`table/sstable_getter_from_cache_phantom.cc`, `table/sstable_getter_from_file.cc`,
`table/sstable_getter_from_file_and_cache.cc`): whatever is evicted, and however the callers
interleave, a table comes as its file has it. -/

namespace FrenzyKV

open Bytes Framework

/-- What opening tables rests on besides the files: the cache, how the reads of a file deliver its
bytes, and what new memory holds. A cached null pointer is `none`. -/
structure CacheDeps (Name : Type) where
  table : TableDeps
  tables : Cache Name (Option RawSstable)
  delivery : (content : ByteString) → Delivery content
  fresh : InMemBuffers.Fresh

namespace TableCache

variable {Name : Type} (d : CacheDeps Name)

/-- `find_table_impl`. -/
def findTable (s : d.tables.State) (name : Name) : d.tables.State × Option RawSstable :=
  ((d.tables.get s name).1, (d.tables.get s name).2.join)

/-- `find_table_phantom_impl`. -/
def findTablePhantom (s : d.tables.State) (name : Name) : d.tables.State × Option RawSstable :=
  ((d.tables.phantomGet s name).1, (d.tables.phantomGet s name).2.join)

def find (phantom : Bool) (s : d.tables.State) (name : Name) : d.tables.State × Option RawSstable :=
  if phantom then findTablePhantom d s name else findTable d s name

/-- What `finsert` reads into memory. -/
def dump (content : ByteString) : Option ByteString :=
  ((d.delivery content).dumpTo d.fresh (content.length + 1) (InMemBuffers.make d.fresh 4096)).map
    fun dumped => dumped.1.contents

/-- The end of `finsert`: the table of the file in memory, which is kept unless the use does not count. -/
def insert (phantom : Bool) (s : d.tables.State) (name : Name) (memFile : ByteString) :
    d.tables.State × Option RawSstable :=
  let result := RawSstable.make d.table memFile
  (if phantom then s else d.tables.put s name result, result)

/-- `finsert` when nothing else runs; no result means that the file is not read to its end. -/
def finsert (phantom : Bool) (name : Name) (content : ByteString) :
    StateT d.tables.State Option (Option RawSstable) := fun s =>
  match (find d phantom s name).2 with
  | some table => some (some table, (find d phantom s name).1)
  | none => (dump d content).map fun memFile =>
    let inserted := insert d phantom (find d phantom s name).1 name memFile
    (inserted.2, inserted.1)

/-- Which of the four getters is asked. -/
inductive Getter where
  | fromFile
  | fromCache
  | fromCachePhantom
  | fromFileAndCache
deriving DecidableEq, Repr

/-- What a table is made over: its file, or a copy in memory that may be kept. -/
inductive Source where
  | file
  | memory (phantom : Bool)
deriving DecidableEq, Repr

/-- A getter that found nothing in the cache, and what it has read so far. -/
structure Load (Name : Type) where
  name : Name
  source : Source
  content : Option ByteString

structure Answer (Name : Type) where
  name : Name
  table : Option RawSstable

/-- The table files, the cache and the callers on their way. `written` is a ghost: what was written
under each name so far. -/
structure State where
  files : Name → Option ByteString
  tables : d.tables.State
  loads : List (Load Name)
  answers : List (Answer Name)
  written : Name → Option ByteString

inductive Action (Name : Type) where
  | writeFile (name : Name) (bytes : ByteString)
  | unlink (name : Name)
  | get (getter : Getter) (name : Name)
  | openFile (i : Nat)
  | makeTable (i : Nat)

namespace State

variable {d} (s : State d)

def start (d : CacheDeps Name) : State d := ⟨fun _ => none, d.tables.empty, [], [], fun _ => none⟩

def answer (name : Name) (table : Option RawSstable) : State d :=
  { s with answers := s.answers ++ [⟨name, table⟩] }

def load (name : Name) (source : Source) : State d :=
  { s with loads := s.loads ++ [⟨name, source, none⟩] }

/-- A getter up to the point where it opens the file. -/
def get (getter : Getter) (name : Name) : State d :=
  match getter with
  | .fromFile => s.load name .file
  | .fromCache => lookedUp (findTable d s.tables name) (.memory false)
  | .fromCachePhantom => lookedUp (findTablePhantom d s.tables name) (.memory true)
  | .fromFileAndCache => lookedUp (findTablePhantom d s.tables name) .file
where
  lookedUp (found : d.tables.State × Option RawSstable) (source : Source) : State d :=
    match found.2 with
    | some table => { s with tables := found.1 }.answer name (some table)
    | none => { s with tables := found.1 }.load name source

def read (source : Source) (content : ByteString) : Option ByteString :=
  match source with
  | .file => some content
  | .memory _ => dump d content

/-- The rest of a getter once the content is there. -/
def makeTable (l : Load Name) (content : ByteString) : State d :=
  match l.source with
  | .file => s.answer l.name (RawSstable.make d.table content)
  | .memory phantom =>
    let inserted := insert d phantom s.tables l.name content
    { s with tables := inserted.1 }.answer l.name inserted.2

end State

variable {d}

theorem dump_eq (d : CacheDeps Name) (content : ByteString) : dump d content = some content := by
  let file := InMemBuffers.make d.fresh 4096
  have room : 0 < file.blockSize := Nat.succ_pos _
  have copied : ∃ r, (d.delivery content).dumpToLoop d.fresh (content.length + 1) file 0 =
      some (r, content.length) ∧ r.contents = file.contents ++ content ∧ r.blockSize = file.blockSize :=
    (d.delivery content).dumpToLoop_spec (.inl room) (Nat.zero_le _) (Nat.lt_succ_self _)
      (List.append_nil file.contents).symm
  obtain ⟨r, ends, contents, -⟩ := copied
  rw [InMemBuffers.contents_make, List.nil_append] at contents
  rw [dump, Delivery.dumpTo, ends, Option.map_some, contents]

theorem read_eq (source : Source) (content : ByteString) :
    State.read (d := d) source content = some content := by
  cases source with
  | file => rfl
  | memory phantom => exact dump_eq d content

/-- What a lookup finds is cached. -/
theorem find_only {P : Name → Option RawSstable → Prop} {s : d.tables.State} (only : d.tables.Only P s)
    (phantom : Bool) (name : Name) :
    d.tables.Only P (find d phantom s name).1 ∧
      ∀ table, (find d phantom s name).2 = some table → P name (some table) := by
  cases phantom with
  | true =>
    obtain ⟨kept, all⟩ := only.phantomGet name
    exact ⟨kept, fun table found => all _ (Option.join_eq_some_iff.mp found)⟩
  | false =>
    obtain ⟨kept, all⟩ := only.get name
    exact ⟨kept, fun table found => all _ (Option.join_eq_some_iff.mp found)⟩

/-- `finsert` answers with the table of the file, from the cache or not. -/
theorem finsert_agrees {P : Name → Option RawSstable → Prop} (phantom : Bool) {name : Name}
    {content : ByteString} (exactly : ∀ table, P name table ↔ table = RawSstable.make d.table content) :
    d.tables.Agrees P (finsert d phantom name content) (some (RawSstable.make d.table content)) := by
  intro s only
  obtain ⟨kept, all⟩ := find_only only phantom name
  rw [finsert]
  cases found : (find d phantom s name).2 with
  | some table =>
    exact ⟨_, congrArg (fun table => some (table, _)) ((exactly _).mp (all table found)), kept⟩
  | none =>
    refine ⟨(insert d phantom (find d phantom s name).1 name content).1, by rw [dump_eq]; rfl, ?_⟩
    rw [insert]
    split
    · exact kept
    · exact kept.put ((exactly _).mpr rfl)

/-- A table is that of what was written under the name. -/
def TableOf (s : State d) (name : Name) (table : Option RawSstable) : Prop :=
  ∃ bytes, s.written name = some bytes ∧ table = RawSstable.make d.table bytes

/-- What is on disk, cached, read and answered is what was written. -/
structure Right (s : State d) : Prop where
  files : ∀ name bytes, s.files name = some bytes → s.written name = some bytes
  tables : d.tables.Only (TableOf s) s.tables
  loads : ∀ l ∈ s.loads, ∀ content, l.content = some content → s.written l.name = some content
  answers : ∀ a ∈ s.answers, TableOf s a.name a.table

namespace Right

variable {s s' : State d}

theorem start (d : CacheDeps Name) : Right (State.start d) where
  files _ _ there := by cases there
  tables := Cache.only_empty
  loads _ mem := absurd mem List.not_mem_nil
  answers _ mem := absurd mem List.not_mem_nil

theorem answer {tables : d.tables.State} {name : Name} {table : Option RawSstable} (right : Right s)
    (only : d.tables.Only (TableOf s) tables) (of : TableOf s name table) :
    Right ({ s with tables }.answer name table) where
  files := right.files
  tables := only
  loads := right.loads
  answers a mem := by
    cases List.mem_append.mp mem with
    | inl before => exact right.answers a before
    | inr now => exact List.mem_singleton.mp now ▸ of

theorem load {tables : d.tables.State} (right : Right s) (only : d.tables.Only (TableOf s) tables)
    (name : Name) (source : Source) : Right ({ s with tables }.load name source) where
  files := right.files
  tables := only
  loads l mem content there := by
    cases List.mem_append.mp mem with
    | inl before => exact right.loads l before content there
    | inr now => rw [List.mem_singleton.mp now] at there; cases there
  answers := right.answers

theorem lookedUp (right : Right s) (phantom : Bool) (name : Name) (source : Source) :
    Right (State.get.lookedUp s name (TableCache.find d phantom s.tables name) source) := by
  obtain ⟨only, all⟩ := find_only right.tables phantom name
  rw [State.get.lookedUp]
  split
  · rename_i table found
    exact right.answer only (all table found)
  · exact right.load only name source

theorem get (right : Right s) (getter : Getter) (name : Name) : Right (s.get getter name) := by
  cases getter with
  | fromFile => exact right.load right.tables name .file
  | fromCache => exact right.lookedUp false name (.memory false)
  | fromCachePhantom => exact right.lookedUp true name (.memory true)
  | fromFileAndCache => exact right.lookedUp true name .file

theorem makeTable {l : Load Name} {content : ByteString} (right : Right s)
    (written : s.written l.name = some content) : Right (s.makeTable l content) := by
  have of : TableOf s l.name (RawSstable.make d.table content) := ⟨content, written, rfl⟩
  rw [State.makeTable]
  split
  · exact right.answer right.tables of
  · rename_i phantom _
    refine right.answer ?_ of
    rw [insert]
    split
    · exact right.tables
    · exact right.tables.put of

end Right

variable (d) [DecidableEq Name]

/-- Names of tables are drawn once. A file that is not there cannot be opened. -/
def step (s : State d) : Action Name → Option (State d)
  | .writeFile name bytes =>
    if s.written name = none then
      some { s with
        files := Function.update s.files name (some bytes)
        written := Function.update s.written name (some bytes) }
    else none
  | .unlink name => some { s with files := Function.update s.files name none }
  | .get getter name => some (s.get getter name)
  | .openFile i =>
    s.loads[i]?.bind fun l => (s.files l.name).bind fun content =>
      (State.read (d := d) l.source content).map fun content =>
        { s with loads := s.loads.set i { l with content := some content } }
  | .makeTable i =>
    s.loads[i]?.bind fun l => l.content.map fun content =>
      { s with loads := s.loads.eraseIdx i }.makeTable l content

def machine : Machine (State d) (Action Name) where
  init s := s = State.start d
  step := step d

variable {d}

theorem Right.step {s s' : State d} {a : Action Name} (right : Right s) (taken : step d s a = some s') :
    Right s' := by
  cases a with
  | writeFile name bytes =>
    obtain ⟨fresh, eq⟩ := Option.ite_none_right_eq_some.mp taken
    obtain rfl := Option.some.inj eq
    -- a new name is nobody's
    have kept : ∀ other content, s.written other = some content →
        Function.update s.written name (some bytes) other = some content := by
      intro other content there
      have ne : other ≠ name := fun same => by rw [same, fresh] at there; cases there
      rw [Function.update_of_ne ne, there]
    have of : ∀ other table, TableOf s other table →
        ∃ content, Function.update s.written name (some bytes) other = some content ∧
          table = RawSstable.make d.table content :=
      fun other table ⟨content, there, eq⟩ => ⟨content, kept other content there, eq⟩
    refine ⟨fun other content there => ?_, right.tables.mono of,
      fun l mem content there => kept _ _ (right.loads l mem content there),
      fun answer mem => of _ _ (right.answers answer mem)⟩
    change Function.update s.files name (some bytes) other = some content at there
    change Function.update s.written name (some bytes) other = some content
    by_cases same : other = name
    · rw [same, Function.update_self] at there ⊢
      exact there
    · rw [Function.update_of_ne same] at there
      exact kept other content (right.files other content there)
  | unlink name =>
    obtain rfl := Option.some.inj taken
    refine ⟨fun other content there => ?_, right.tables, right.loads, right.answers⟩
    change Function.update s.files name none other = some content at there
    by_cases same : other = name
    · rw [same, Function.update_self] at there
      cases there
    · rw [Function.update_of_ne same] at there
      exact right.files other content there
  | get getter name =>
    obtain rfl := Option.some.inj taken
    exact right.get getter name
  | openFile i =>
    obtain ⟨l, at_, taken⟩ := Option.bind_eq_some_iff.mp taken
    obtain ⟨content, there, taken⟩ := Option.bind_eq_some_iff.mp taken
    rw [read_eq, Option.map_some] at taken
    obtain rfl := Option.some.inj taken
    refine ⟨right.files, right.tables, fun l' mem content' there' => ?_, right.answers⟩
    rcases List.mem_or_eq_of_mem_set mem with before | rfl
    · exact right.loads l' before content' there'
    · obtain rfl := Option.some.inj there'
      exact right.files _ _ there
  | makeTable i =>
    obtain ⟨l, at_, taken⟩ := Option.bind_eq_some_iff.mp taken
    obtain ⟨content, there, rfl⟩ := Option.map_eq_some_iff.mp taken
    have written := right.loads l (List.mem_of_getElem? at_) content there
    have rest : Right { s with loads := s.loads.eraseIdx i } :=
      ⟨right.files, right.tables, fun l' mem => right.loads l' (List.mem_of_mem_eraseIdx mem),
        right.answers⟩
    exact rest.makeTable written

/-- In every interleaving each getter answers with what `sstable::make` makes of the bytes that were
written under the name, whatever the cache has kept. -/
theorem answers_of_reach {s : State d} (reached : Reach (machine d) (fun _ _ => True) s) :
    ∀ a ∈ s.answers, ∃ bytes, s.written a.name = some bytes ∧ a.table = RawSstable.make d.table bytes := by
  have right : Right s := by
    apply reached.invariant
    · rintro s rfl
      exact Right.start d
    · intro s a s' right _ taken
      exact right.step taken
  exact right.answers

/-- The file of a table with three entries. -/
def threeEntriesFile : ByteString :=
  (((RawSstableBuilder.make 4096).bind (·.addAll RawSstable.smallBlocks RawBlock.threeEntries)).bind
    (·.finish RawSstable.smallBlocks)).getD []

/-- Reads that fill the room that they get. -/
def full (content : ByteString) : Delivery content where
  count offset room := min room (content.length - offset)
  within _ _ := le_rfl
  progress offset room some_room inside := by omega

/-- A cache for one table. -/
def oneTable : CacheDeps Nat :=
  ⟨RawSstable.smallBlocks, Cache.latest Nat (Option RawSstable) 1, full, fun _ _ => 0⟩

/-- The second getter overtakes the first, the third finds what the first has kept, and the file goes
before the fourth asks for it. -/
def overtaking : List (Action Nat) :=
  [.writeFile 0 threeEntriesFile, .get .fromCache 0, .get .fromFileAndCache 0, .openFile 1, .makeTable 1,
    .openFile 0, .makeTable 0, .get .fromCachePhantom 0, .unlink 0, .get .fromCache 0]

theorem answers_overtaking :
    ∃ s, (machine oneTable).run (State.start oneTable) overtaking = some s ∧ s.answers.length = 4 ∧
      ∀ a ∈ s.answers, ∃ bytes, s.written a.name = some bytes ∧
        a.table = RawSstable.make oneTable.table bytes := by
  obtain ⟨s, ran, all⟩ : ∃ s ∈ (machine oneTable).run (State.start oneTable) overtaking,
      s.answers.length = 4 := by decide +kernel
  exact ⟨s, ran, all, answers_of_reach (Machine.reach_of_run _ (fun _ _ => trivial) (.init rfl) ran)⟩

end TableCache

end FrenzyKV
