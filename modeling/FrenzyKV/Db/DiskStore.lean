import FrenzyKV.Db.DbLocal
import FrenzyKV.Io.SeqWritable
import FrenzyKV.Table.TableImage

/-! The store as it is on disk: versions of table files, where every table that is read is opened
from its bytes and every table that is written leaves bytes (`db/memtable_flusher.cc`,
`persistent/compaction_policy_oldest.cc`, `persistent/compaction.cc`, `db/db_local.cc`). -/

namespace FrenzyKV

open Bytes SortedDifference SortedGroups

/-- A table file with the data of its `file_rep`. -/
structure DiskFile where
  level : Nat
  fileId : Nat
  lastWriteTime : Nat
  bytes : ByteString
deriving DecidableEq

/-- `file_rep::operator<` compares level and id. -/
def DiskFile.rank (f : DiskFile) : ℕ ×ₗ ℕ := toLex (f.level, f.fileId)

/-- What can be read from a file. -/
def DiskFile.entries (d : TableDeps) (f : DiskFile) : List KvEntry :=
  ((RawSstable.make d f.bytes).bind (·.getEntriesAtOnce false)).getD []

abbrev FileView.onDisk (d : TableDeps) : FileView DiskFile := ⟨DiskFile.level, DiskFile.entries d⟩

/-- The file of a table. -/
def File.onDisk (d : TableDeps) (f : File) : DiskFile :=
  ⟨f.level, f.fileId, f.lastWriteTime, f.table.image d⟩

/-- The dependencies of the store on disk: those of the store, those of table files, and
`std::ranges::sort` by file size. -/
structure DiskDeps extends KvdbDeps where
  table : TableDeps
  options : table.opt.toOptions = opt
  filter : table.filter = toKvdbDeps.filterPolicy
  sortDisk : List DiskFile → List DiskFile
  sortDisk_perm : ∀ files, (sortDisk files).Perm files
  sortDisk_sorted : ∀ files, (sortDisk files).Pairwise (·.bytes.length ≤ ·.bytes.length)
  /-- The sort sees of a file only its size. -/
  sortDisk_onDisk : ∀ files : List File,
    sortDisk (files.map (File.onDisk table)) = (sortByFileSize files).map (File.onDisk table)

theorem DiskDeps.pairwise_insertionSort {α : Type} (size : α → Nat) (files : List α) :
    (files.insertionSort fun f g => size f ≤ size g).Pairwise fun f g => size f ≤ size g := by
  have total : Std.Total fun f g : α => size f ≤ size g := ⟨fun f g => le_total (size f) (size g)⟩
  have trans : IsTrans α fun f g => size f ≤ size g := ⟨fun _ _ _ => le_trans⟩
  exact List.pairwise_insertionSort _ files

/-- The table files of concrete runs, in which every block is compressed. -/
def TableDeps.plain (opt : Options) : TableDeps := { RawSstable.smallBlocks with opt := ⟨opt, true, "zstd"⟩ }

/-- Uuids that count up, and files sorted by their lengths. -/
def DiskDeps.plain (opt : Options) : DiskDeps where
  toKvdbDeps := { KvdbDeps.plain opt with
    hash := fun _ => 69
    fileSize := fun f => (f.table.image (TableDeps.plain opt)).length
    sortByFileSize := List.insertionSort fun f g : File =>
      (f.table.image (TableDeps.plain opt)).length ≤ (g.table.image (TableDeps.plain opt)).length
    sortByFileSize_perm := List.perm_insertionSort _
    sortByFileSize_sorted := pairwise_insertionSort _ }
  table := .plain opt
  options := rfl
  filter := rfl
  sortDisk := List.insertionSort fun f g : DiskFile => f.bytes.length ≤ g.bytes.length
  sortDisk_perm := List.perm_insertionSort _
  sortDisk_sorted := pairwise_insertionSort _
  sortDisk_onDisk := fun files => (List.map_insertionSort _ _ (File.onDisk (TableDeps.plain opt)) files
    fun _ _ _ _ => Iff.rfl).symm

abbrev DiskDeps.small : DiskDeps := .plain .twoFileLevels

/-- Memtables of a few bytes, for concrete runs. -/
abbrev DiskDeps.paged (bytes : Nat) : DiskDeps :=
  .plain { Options.twoFileLevels with memoryPageBytes := bytes }

/-- What lets a database read back the tables that it writes: the files keep what is appended to them,
and every table opens. -/
structure DiskDeps.Readable (d : DiskDeps) (compressor : CompressorPolicy) : Prop
    extends d.table.Readable compressor where
  buffered : d.opt.needBufferedWrite = true

theorem DiskDeps.plain_readable {opt : Options} (wide : 5 ≤ opt.maxBlockSegmentsNumber)
    (buffered : opt.needBufferedWrite = true) :
    (DiskDeps.plain opt).Readable (zstdCompressor .tagging) where
  wide := wide
  named := rfl
  inverts _ := tagging_inverts
  buffered := buffered

theorem DiskDeps.small_readable : DiskDeps.small.Readable (zstdCompressor .tagging) :=
  plain_readable (by decide) rfl

theorem DiskDeps.paged_readable (bytes : Nat) : (DiskDeps.paged bytes).Readable (zstdCompressor .tagging) :=
  plain_readable (show 5 ≤ 1000 by decide) rfl

abbrev DiskStore := Store DiskFile

namespace DiskStore

variable (d : DiskDeps)

/-- The files that are created for the bytes of tables. -/
def createFiles (level clock : Nat) : List ByteString → List DiskFile
  | [] => []
  | file :: files =>
    ⟨level, d.uuid clock, clock, SeqWritable.passed d.opt.toWritableOptions file⟩ ::
      createFiles level (clock + 1) files

def sort (v : Version DiskFile) : Version DiskFile := v.insertionSort (DiskFile.rank · ≤ DiskFile.rank ·)

/-- `version_rep::operator+=`. -/
def apply (v : Version DiskFile) (compacted added : List DiskFile) : Version DiskFile :=
  if compacted.isEmpty && added.isEmpty then v
  else added ++ setDifference DiskFile.rank (sort v) (sort compacted)

def install (s : DiskStore) (level : Nat) (files : List ByteString) (compacted : List DiskFile) :
    DiskStore where
  current := apply s.current compacted (createFiles d level s.created files)
  created := s.created + files.length

def flushFiles (m : Memtable) : Option (List ByteString) :=
  if m.isEmpty then some []
  else RawSstableBuilder.buildFilesFrom d.table (d.opt.allowedLevelFileSize 0) m.storage

/-- `memtable_flusher::flush_to_disk`. -/
def flushToDisk (s : DiskStore) (m : Memtable) : Option DiskStore :=
  (flushFiles d m).map fun files => s.install d 0 files []

def withLevel (v : Version DiskFile) (l : Nat) : List DiskFile := v.filter (·.level = l)

def sortByLastWriteTime (files : List DiskFile) : List DiskFile :=
  files.insertionSort (·.lastWriteTime ≤ ·.lastWriteTime)

/-- The loop of the policy over the files of the next level, each of which it opens. -/
def overlappedFiles (fromLSst : RawSstable) : List DiskFile → Option (List DiskFile)
  | [] => some []
  | f :: files =>
    (RawSstable.make d.table f.bytes).bind fun nextLSst => (fromLSst.overlapped nextLSst).bind fun hit =>
      (overlappedFiles fromLSst files).map fun pulled => if hit then f :: pulled else pulled

def pulledFiles (v : Version DiskFile) (from_ : Nat) (first : DiskFile) : Option (List DiskFile) :=
  (RawSstable.make d.table first.bytes).bind fun fromLSst =>
    overlappedFiles d fromLSst (d.sortDisk (sortByLastWriteTime (withLevel v (from_ + 1))))

/-- `compaction_policy_oldest::compacting_files`; no result where it throws or asserts. -/
def compactingFiles (v : Version DiskFile) (from_ : Nat) : Option (List DiskFile) :=
  let files := sortByLastWriteTime (withLevel v from_)
  if files.isEmpty then none
  else
    match files.dropLast with
    | [] => some []
    | first :: rest =>
      if d.opt.allowedLevelFileNumber from_ < 2 then none
      else if 1 < from_ then (pulledFiles d v from_ first).map fun pulled => first :: rest ++ pulled
      else some (first :: rest)

def compactionInputs (v : Version DiskFile) (from_ : Nat) (threshRatio : ThreshRatio) : Option (List DiskFile) :=
  (compactingFiles d v from_).map fun files =>
    files.take (files.length - threshRatio.dropped files.length)

/-- `devide_and_conquer_merge`; the entries of a table are read from its file. -/
def devideAndConquerMerge : Nat → List RawSstable → Option (List KvEntry)
  | _, [] => none
  | _, [t] => t.getEntriesAtOnce true
  | _, [t, u] =>
    (t.getEntriesAtOnce true).bind fun lhs => (u.getEntriesAtOnce true).bind fun rhs =>
      mergeTwoTables lhs rhs
  | 0, _ => none
  | fuel + 1, tables =>
    (devideAndConquerMerge fuel (tables.take (tables.length / 2))).bind fun left =>
      (devideAndConquerMerge fuel (tables.drop (tables.length / 2))).bind fun right =>
        mergeTwoTables left right

def mergeTables (tables : List RawSstable) : Option (List KvEntry) :=
  if tables.length < 2 then none else devideAndConquerMerge tables.length tables

/-- What `compact` merges from its inputs, each of which it opens. -/
def mergedEntries (files : List DiskFile) : Option (List KvEntry) :=
  (files.mapM fun f => RawSstable.make d.table f.bytes).bind mergeTables

/-- `compactor::merged_list_to_sst`, which opens every table that it has built. -/
def mergedListToSst (merged : List KvEntry) (newLevel : Nat) : Option (List RawSstable) :=
  if merged.isEmpty || !isSorted merged.reverse then none
  else
    (RawSstableBuilder.buildFilesFrom d.table (d.opt.allowedLevelFileSize newLevel) merged.reverse).bind
      (·.mapM (RawSstable.make d.table))

/-- `compactor::compact` once it holds the mutex of the level: the files of the new tables and the
inputs. -/
def compact (v : Version DiskFile) (from_ : Nat) (threshRatio : ThreshRatio) :
    Option (List ByteString × List DiskFile) :=
  if d.opt.maxLevel ≤ from_ then none
  else
    (compactionInputs d v from_ threshRatio).bind fun files =>
      (mergedEntries d files).bind fun merged =>
        (mergedListToSst d merged (from_ + 1)).map fun newtables =>
          (newtables.map RawSstable.file, files)

def needCompaction (v : Version DiskFile) (l : Nat) (threshRatio : ThreshRatio) : Bool :=
  !d.opt.isAppropriateLevelFileNumber l (withLevel v l).length threshRatio

def levelToCompact (v : Version DiskFile) (from_ : Nat) (threshRatio : ThreshRatio) : Option Nat :=
  (List.range' from_ (d.opt.maxLevel + 1 - from_)).find? (needCompaction d v · threshRatio)

/-- `compactor::compact` followed by `fake_file_to_disk`, which skips empty files, and
`update_current_version`. -/
def compactLevel (s : DiskStore) (l : Nat) (threshRatio : ThreshRatio) : Option DiskStore :=
  (compact d s.current l threshRatio).map fun done =>
    if done.1.isEmpty then s
    else s.install d (l + 1) (done.1.filter fun file => !file.isEmpty) done.2

/-- The blocks of what the compaction merges, if there is one, fit. -/
def MergeFits (v : Version DiskFile) (from_ : Nat) (threshRatio : ThreshRatio) : Prop :=
  ∀ l ∈ levelToCompact d v from_ threshRatio, ∀ inputs ∈ compactionInputs d v l threshRatio,
    ∀ merged ∈ mergedEntries d inputs, d.table.BlocksFit merged.reverse

instance (v : Version DiskFile) (from_ : Nat) (threshRatio : ThreshRatio) :
    Decidable (MergeFits d v from_ threshRatio) :=
  inferInstanceAs (Decidable (∀ l ∈ levelToCompact d v from_ threshRatio,
    ∀ inputs ∈ compactionInputs d v l threshRatio,
      ∀ merged ∈ mergedEntries d inputs, d.table.BlocksFit merged.reverse))

/-- `db_local::may_compact` when nothing else runs. -/
def mayCompact (s : DiskStore) (from_ : Nat) (threshRatio : ThreshRatio) : Option DiskStore :=
  match levelToCompact d s.current from_ threshRatio with
  | none => some s
  | some l => s.compactLevel d l threshRatio

/-- `db_local::file_to_async_potiential_ret`. -/
def fileToPotentialRet (k : SequencedKey) (f : DiskFile) :
    Option (Option (SequencedKey × KvUserValue)) :=
  (RawSstable.make d.table f.bytes).bind fun sst => (sst.getKvEntry k).map fun entry =>
    entry.bind fun e => if k.seq < e.seq then none else some (e.key, e.value)

def searchLevel (files : List DiskFile) (k : SequencedKey) : Option (Option KvEntry) :=
  (files.mapM (fileToPotentialRet d k)).map fun potentialResults =>
    ((SkipList.empty.insertRange d.skipListReplaces (potentialResults.filterMap id)).findLastLessEqual
      k).map fun found => ⟨found.1, found.2⟩

/-- The loop of `find_from_ssts` over the levels. -/
def searchLevels (k : SequencedKey) : List (List DiskFile) → Option (Option KvEntry)
  | [] => some none
  | files :: deeper =>
    (searchLevel d files k).bind fun
      | some e => some (some e)
      | none => searchLevels k deeper

/-- `db_local::find_from_ssts`; no result means that a table cannot be read. -/
def findFromSsts (v : Version DiskFile) (k : SequencedKey) : Option (Option KvEntry) :=
  searchLevels d k (groups DiskFile.level (sort v))

end DiskStore

end FrenzyKV
