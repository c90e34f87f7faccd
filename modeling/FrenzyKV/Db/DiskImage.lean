import FrenzyKV.Db.DiskStore

namespace FrenzyKV

open Bytes SortedDifference SortedGroups

def Store.onDisk (d : TableDeps) (s : Store File) : DiskStore :=
  ⟨s.current.map (File.onDisk d), s.created⟩

/-- The tables of the files are well formed and in their files. -/
def Version.Stored (d : TableDeps) (v : Version File) : Prop := ∀ f ∈ v, f.table.Stored d

/-- The tables can be read back from the files. -/
def Version.Legible (d : TableDeps) (v : Version File) : Prop := ∀ f ∈ v, f.table.Legible d

theorem Version.Legible.stored {d : TableDeps} {v : Version File} (legible : v.Legible d) : v.Stored d :=
  fun f mem => (legible f mem).toStored

theorem FilterPolicy.leaves_makeBloomFilter (hash : ByteString → UInt64) (keyBits : Nat) :
    (makeBloomFilter hash keyBits).Leaves := by
  intro key dst empty
  exact absurd (List.append_eq_nil_iff.mp empty).2 (List.cons_ne_nil _ _)

namespace DiskStore

section Files

variable {d : TableDeps}

theorem withLevel_map (v : Version File) (l : Nat) :
    withLevel (v.map (File.onDisk d)) l = (FrenzyKV.withLevel v l).map (File.onDisk d) :=
  List.filter_map

theorem sortByLastWriteTime_map (files : List File) :
    sortByLastWriteTime (files.map (File.onDisk d)) =
      (FrenzyKV.sortByLastWriteTime files).map (File.onDisk d) :=
  (List.map_insertionSort (fun f g : File => f.lastWriteTime ≤ g.lastWriteTime)
    (fun f g : DiskFile => f.lastWriteTime ≤ g.lastWriteTime) (File.onDisk d) files
    fun _ _ _ _ => Iff.rfl).symm

theorem sort_map (v : Version File) : sort (v.map (File.onDisk d)) = v.sort.map (File.onDisk d) :=
  (List.map_insertionSort (File.rank · ≤ File.rank ·) (DiskFile.rank · ≤ DiskFile.rank ·)
    (File.onDisk d) v fun _ _ _ _ => Iff.rfl).symm

theorem apply_map (v : Version File) (delta : VersionDelta) :
    apply (v.map (File.onDisk d)) (delta.compacted.map (File.onDisk d))
        (delta.added.map (File.onDisk d)) =
      (v.apply delta).map (File.onDisk d) := by
  rw [apply, Version.apply, List.isEmpty_map, List.isEmpty_map]
  split
  · rfl
  · rw [sort_map, sort_map, setDifference_map File.rank (File.onDisk d) (fun _ => rfl), List.map_append]

end Files

variable {d : DiskDeps} {compressor : CompressorPolicy} {v : Version File} {s : Store File} {l : Nat} {r : ThreshRatio}

theorem createFiles_image (buffered : d.opt.needBufferedWrite = true) (level clock : Nat) (ts : List Sstable) :
    createFiles d level clock (ts.map (·.image d.table)) =
      (FrenzyKV.createFiles d.toKvdbDeps level clock ts).map (File.onDisk d.table) := by
  induction ts generalizing clock with
  | nil => rfl
  | cons t ts ih =>
    rw [List.map_cons, createFiles, SeqWritable.passed_of_buffered buffered, ih (clock + 1)]
    rfl

theorem install_onDisk (buffered : d.opt.needBufferedWrite = true) (s : Store File) (level : Nat)
    (ts : List Sstable) (compacted : List File) :
    DiskStore.install d (s.onDisk d.table) level (ts.map (·.image d.table))
        (compacted.map (File.onDisk d.table)) =
      (s.install d.toKvdbDeps level ts compacted).onDisk d.table := by
  rw [install, Store.install, Store.onDisk, Store.onDisk, createFiles_image buffered, List.length_map]
  exact congrArg (Store.mk · _) (apply_map s.current ⟨compacted, _⟩)

theorem overlappedFiles_map (readable : d.table.Readable compressor) {first : Sstable}
    (stored : first.Stored d.table) {files : List File} (all : Version.Stored d.table files) :
    overlappedFiles d (first.opened d.table compressor) (files.map (File.onDisk d.table)) =
      some ((files.filter fun f => first.overlapped f.table).map (File.onDisk d.table)) := by
  induction files with
  | nil => rfl
  | cons f files ih =>
    obtain ⟨here, later⟩ := List.forall_mem_cons.mp all
    have opened : RawSstable.make d.table (f.onDisk d.table).bytes =
        some (f.table.opened d.table compressor) := here.make_image readable
    rw [List.map_cons, overlappedFiles, opened, Option.bind_some, stored.overlapped here, Option.bind_some,
      ih later, Option.map_some, List.filter_cons]
    split
    · rfl
    · rfl

theorem pulledFiles_map (readable : d.table.Readable compressor) (all : v.Stored d.table) {first : File}
    (stored : first.table.Stored d.table) :
    pulledFiles d (v.map (File.onDisk d.table)) l (first.onDisk d.table) =
      some ((FrenzyKV.pulledFiles d.toKvdbDeps v l first).map (File.onDisk d.table)) := by
  have opened : RawSstable.make d.table (first.onDisk d.table).bytes =
      some (first.table.opened d.table compressor) := stored.make_image readable
  rw [pulledFiles, opened, Option.bind_some, withLevel_map, sortByLastWriteTime_map, d.sortDisk_onDisk,
    overlappedFiles_map readable stored]
  · rfl
  · intro f mem
    rw [(d.sortByFileSize_perm _).mem_iff, mem_sortByLastWriteTime, mem_withLevel] at mem
    exact all f mem.1

theorem compactingFiles_map (readable : d.table.Readable compressor) (all : v.Stored d.table) :
    compactingFiles d (v.map (File.onDisk d.table)) l =
      (FrenzyKV.compactingFiles d.toKvdbDeps v l).map (List.map (File.onDisk d.table)) := by
  rw [compactingFiles, FrenzyKV.compactingFiles]
  simp only [withLevel_map, sortByLastWriteTime_map, List.isEmpty_map, ← List.map_dropLast]
  split
  · rfl
  · cases dropped : (FrenzyKV.sortByLastWriteTime (FrenzyKV.withLevel v l)).dropLast with
    | nil => rfl
    | cons first rest =>
      have mem : first ∈ v := by
        have inSort := List.dropLast_subset _ (dropped ▸ List.mem_cons_self)
        exact (mem_withLevel.mp (mem_sortByLastWriteTime.mp inSort)).1
      simp only [List.map_cons, pulledFiles_map readable all (all first mem)]
      split_ifs
      · rfl
      · simp
      · rfl

theorem compactionInputs_map (readable : d.table.Readable compressor) (all : v.Stored d.table) :
    compactionInputs d (v.map (File.onDisk d.table)) l r =
      (FrenzyKV.compactionInputs d.toKvdbDeps v l r).map (List.map (File.onDisk d.table)) := by
  rw [compactionInputs, FrenzyKV.compactionInputs, compactingFiles_map readable all, Option.map_map,
    Option.map_map]
  refine congrArg (Option.map · _) (funext fun files => ?_)
  simp [List.map_take]

theorem mapM_make_map (readable : d.table.Readable compressor) {files : List File}
    (all : Version.Stored d.table files) :
    ((files.map (File.onDisk d.table)).mapM fun f => RawSstable.make d.table f.bytes) =
      some ((files.map File.table).map (Sstable.opened d.table compressor)) := by
  induction files with
  | nil => rfl
  | cons f files ih =>
    obtain ⟨here, later⟩ := List.forall_mem_cons.mp all
    have opened : RawSstable.make d.table (f.onDisk d.table).bytes =
        some (f.table.opened d.table compressor) := here.make_image readable
    rw [List.map_cons, List.mapM_cons, opened, ih later]
    rfl

/-- The merge reads from the files what the tables hold, or nothing at all. -/
theorem devideAndConquerMerge_opened {d : TableDeps} (readable : d.Readable compressor) {fuel : Nat}
    {tables : List Sstable} {merged : List KvEntry} (all : ∀ t ∈ tables, t.Stored d) :
    devideAndConquerMerge fuel (tables.map (Sstable.opened d compressor)) = some merged ↔
      (∀ t ∈ tables, ∀ x ∈ t.blocks, d.BlockFits x) ∧
        FrenzyKV.devideAndConquerMerge fuel tables = some merged := by
  have read : ∀ t ∈ tables, ∀ es, (t.opened d compressor).getEntriesAtOnce true = some es ↔
      (∀ x ∈ t.blocks, d.BlockFits x) ∧ es = t.getEntriesAtOnce :=
    fun t mem _ => (all t mem).getEntriesAtOnce_iff readable
  match fuel, tables, all, read with
  | _, [], _, _ =>
    rw [List.map_nil, devideAndConquerMerge, FrenzyKV.devideAndConquerMerge]
    refine iff_of_false (fun run => ?_) fun both => ?_
    · cases run
    · cases both.2
  | _, [t], _, read =>
    rw [List.map_singleton, devideAndConquerMerge, FrenzyKV.devideAndConquerMerge,
      read t List.mem_cons_self, List.forall_mem_singleton, Option.some_inj, eq_comm]
  | _, [t, u], _, read =>
    rw [List.map_cons, List.map_singleton, devideAndConquerMerge, FrenzyKV.devideAndConquerMerge,
      List.forall_mem_cons, List.forall_mem_singleton]
    simp only [Option.bind_eq_some_iff, read t List.mem_cons_self,
      read u (List.mem_cons_of_mem _ List.mem_cons_self)]
    constructor
    · rintro ⟨_, ⟨left, rfl⟩, _, ⟨right, rfl⟩, joined⟩
      exact ⟨⟨left, right⟩, joined⟩
    · rintro ⟨⟨left, right⟩, joined⟩
      exact ⟨_, ⟨left, rfl⟩, _, ⟨right, rfl⟩, joined⟩
  | 0, _ :: _ :: _ :: _, _, _ =>
    refine iff_of_false (fun run => ?_) fun both => ?_
    · cases run
    · cases both.2
  | fuel + 1, t :: u :: w :: rest, all, _ =>
    let tables := t :: u :: w :: rest
    let sstables := tables.map (Sstable.opened d compressor)
    change (devideAndConquerMerge fuel (sstables.take (sstables.length / 2))).bind (fun left =>
      (devideAndConquerMerge fuel (sstables.drop (sstables.length / 2))).bind fun right =>
        mergeTwoTables left right) = some merged ↔ (∀ t ∈ tables, ∀ x ∈ t.blocks, d.BlockFits x) ∧
      (FrenzyKV.devideAndConquerMerge fuel (tables.take (tables.length / 2))).bind (fun left =>
        (FrenzyKV.devideAndConquerMerge fuel (tables.drop (tables.length / 2))).bind fun right =>
          mergeTwoTables left right) = some merged
    rw [List.length_map, ← List.map_take, ← List.map_drop]
    have front : ∀ es, devideAndConquerMerge fuel
          ((tables.take (tables.length / 2)).map (Sstable.opened d compressor)) = some es ↔
        (∀ t ∈ tables.take (tables.length / 2), ∀ x ∈ t.blocks, d.BlockFits x) ∧
          FrenzyKV.devideAndConquerMerge fuel (tables.take (tables.length / 2)) = some es :=
      fun es => devideAndConquerMerge_opened readable fun x mem => all x (List.mem_of_mem_take mem)
    have back : ∀ es, devideAndConquerMerge fuel
          ((tables.drop (tables.length / 2)).map (Sstable.opened d compressor)) = some es ↔
        (∀ t ∈ tables.drop (tables.length / 2), ∀ x ∈ t.blocks, d.BlockFits x) ∧
          FrenzyKV.devideAndConquerMerge fuel (tables.drop (tables.length / 2)) = some es :=
      fun es => devideAndConquerMerge_opened readable fun x mem => all x (List.mem_of_mem_drop mem)
    have halves : (∀ t ∈ tables, ∀ x ∈ t.blocks, d.BlockFits x) ↔
        (∀ t ∈ tables.take (tables.length / 2), ∀ x ∈ t.blocks, d.BlockFits x) ∧
          ∀ t ∈ tables.drop (tables.length / 2), ∀ x ∈ t.blocks, d.BlockFits x := by
      rw [← List.forall_mem_append, List.take_append_drop]
    simp only [Option.bind_eq_some_iff, front, back, halves]
    constructor
    · rintro ⟨left, ⟨fitsLeft, ranLeft⟩, right, ⟨fitsRight, ranRight⟩, joined⟩
      exact ⟨⟨fitsLeft, fitsRight⟩, left, ranLeft, right, ranRight, joined⟩
    · rintro ⟨⟨fitsLeft, fitsRight⟩, left, ranLeft, right, ranRight, joined⟩
      exact ⟨left, ⟨fitsLeft, ranLeft⟩, right, ⟨fitsRight, ranRight⟩, joined⟩

theorem mergeTables_opened {d : TableDeps} (readable : d.Readable compressor) {tables : List Sstable}
    {merged : List KvEntry} (all : ∀ t ∈ tables, t.Stored d) :
    mergeTables (tables.map (Sstable.opened d compressor)) = some merged ↔
      (∀ t ∈ tables, ∀ x ∈ t.blocks, d.BlockFits x) ∧ FrenzyKV.mergeTables tables = some merged := by
  rw [mergeTables, FrenzyKV.mergeTables, List.length_map]
  by_cases few : tables.length < 2
  · rw [if_pos few, if_pos few]
    refine iff_of_false (fun run => ?_) fun both => ?_
    · cases run
    · cases both.2
  · rw [if_neg few, if_neg few]
    exact devideAndConquerMerge_opened readable all

/-- The files of entries that ascend are those of well-formed tables. -/
theorem buildFilesFrom_stored {sizeLimit : Nat} {es : List KvEntry} {files : List ByteString}
    (some_entry : es ≠ []) (ascending : es.Pairwise (·.key < ·.key)) (encodable : ∀ e ∈ es, e.Encodable)
    (filed : RawSstableBuilder.buildFilesFrom d.table sizeLimit es = some files) :
    ∃ ts, buildTablesFrom d.opt d.filterPolicy sizeLimit es = some ts ∧
      files = ts.map (·.image d.table) ∧ ∀ t ∈ ts, t.Stored d.table := by
  have opened : d.table.filter.Open := d.filter ▸ d.filterPolicy_open
  have leaves : d.table.filter.Leaves := d.filter ▸ FilterPolicy.leaves_makeBloomFilter d.hash 64
  have positive : 0 < sizeLimit := by
    by_contra zero
    rw [RawSstableBuilder.buildFilesFrom, RawSstableBuilder.make, if_pos (by omega)] at filed
    cases filed
  obtain ⟨ts, built, -, -, wf⟩ := buildTablesFrom_spec d.table.opt.toOptions opened positive some_entry
    ascending
  obtain ⟨image, done⟩ := RawSstableBuilder.buildFilesFrom_image leaves encodable built filed
  rw [d.options, d.filter] at built
  exact ⟨ts, built, image, fun t mem => ⟨done t mem, wf t mem⟩⟩

theorem mergedListToSst_stored (readable : d.table.Readable compressor) {merged : List KvEntry}
    {newLevel : Nat} {sstables : List RawSstable} (descending : merged.Pairwise (·.key > ·.key))
    (encodable : ∀ e ∈ merged, e.Encodable)
    (made : mergedListToSst d merged newLevel = some sstables) :
    ∃ ts, FrenzyKV.mergedListToSst d.toKvdbDeps merged newLevel = some ts ∧
      sstables.map RawSstable.file = ts.map (·.image d.table) ∧ ∀ t ∈ ts, t.Stored d.table := by
  rw [mergedListToSst] at made
  rw [FrenzyKV.mergedListToSst]
  split at made
  · cases made
  · rename_i checked
    rw [if_neg checked]
    have some_entry : merged ≠ [] := by
      rintro rfl
      exact checked rfl
    obtain ⟨files, filed, opened⟩ := Option.bind_eq_some_iff.mp made
    obtain ⟨ts, built, rfl, stored⟩ := buildFilesFrom_stored (by simpa using some_entry)
      (List.pairwise_reverse.mpr descending) (fun e mem => encodable e (List.mem_reverse.mp mem)) filed
    have same : (ts.map (·.image d.table)).mapM (RawSstable.make d.table) =
        some (ts.map (Sstable.opened d.table compressor)) := by
      clear built filed opened
      induction ts with
      | nil => rfl
      | cons t ts ih =>
        obtain ⟨here, later⟩ := List.forall_mem_cons.mp stored
        rw [List.map_cons, List.mapM_cons, here.make_image readable, ih later]
        rfl
    obtain rfl := Option.some.inj (opened.symm.trans same)
    exact ⟨ts, built, by rw [List.map_map]; rfl, stored⟩

/-- Tables whose entries are cut into blocks that fit. -/
theorem legible_of_fits {d : TableDeps} {sizeLimit : Nat} {es : List KvEntry} {ts : List Sstable}
    (stored : ∀ t ∈ ts, t.Stored d)
    (built : buildTablesFrom d.opt.toOptions d.filter sizeLimit es = some ts) (fits : d.BlocksFit es) :
    ∀ t ∈ ts, t.Legible d := by
  obtain ⟨blocks, cut, fits⟩ := fits
  obtain rfl := Option.some.inj (cut.symm.trans (dataBlocks_of_buildTablesFrom built))
  exact fun t mem => ⟨stored t mem, fun x inside => fits x (List.mem_flatMap.mpr ⟨t, mem, inside⟩)⟩

theorem mergedEntries_map (readable : d.table.Readable compressor) {files : List File}
    {merged : List KvEntry} (all : Version.Stored d.table files) :
    mergedEntries d (files.map (File.onDisk d.table)) = some merged ↔
      (∀ f ∈ files, ∀ x ∈ f.table.blocks, d.table.BlockFits x) ∧
        FrenzyKV.mergeTables (files.map File.table) = some merged := by
  rw [mergedEntries, mapM_make_map readable all, Option.bind_some,
    mergeTables_opened readable (List.forall_mem_map.mpr all), List.forall_mem_map]

/-- Merged entries are stored in their inputs, and descend. -/
theorem merged_of_mergeTables {d : TableDeps} {files : List File} {merged : List KvEntry}
    (all : Version.Stored d files) (merges : FrenzyKV.mergeTables (files.map File.table) = some merged) :
    Merged (fun e => ∃ t ∈ files.map File.table, e ∈ t.entries) merged := by
  have wf : ∀ t ∈ files.map File.table, t.Wf d.filter :=
    List.forall_mem_map.mpr fun f mem => (all f mem).wf
  rw [FrenzyKV.mergeTables] at merges
  split at merges
  · cases merges
  · obtain ⟨es, eq, spec, -⟩ := devideAndConquerMerge_spec wf (List.ne_nil_of_length_pos (by omega)) le_rfl
    obtain rfl := Option.some.inj (merges.symm.trans eq)
    exact spec

theorem encodable_of_mergeTables {d : TableDeps} {files : List File} {merged : List KvEntry}
    (all : Version.Stored d files) (merges : FrenzyKV.mergeTables (files.map File.table) = some merged) :
    ∀ e ∈ merged, e.Encodable := by
  intro e mem
  obtain ⟨t, inside, mem⟩ := (merged_of_mergeTables all merges).sub e mem
  obtain ⟨f, inFiles, rfl⟩ := List.mem_map.mp inside
  exact (all f inFiles).encodable e mem

theorem compactionInputs_of_compact {v : Version DiskFile} {files : List ByteString} {inputs : List DiskFile}
    (done : compact d v l r = some (files, inputs)) : compactionInputs d v l r = some inputs := by
  rw [compact] at done
  obtain ⟨-, done⟩ := Option.ite_none_left_eq_some.mp done
  obtain ⟨inputs', taken, rest⟩ := Option.bind_eq_some_iff.mp done
  obtain ⟨_, -, rest⟩ := Option.bind_eq_some_iff.mp rest
  obtain ⟨_, -, eq⟩ := Option.map_eq_some_iff.mp rest
  obtain ⟨-, rfl⟩ := Prod.mk.inj eq
  exact taken

/-- A compaction on bytes is the compaction of the tables in them. -/
theorem compact_map (readable : d.table.Readable compressor) (all : v.Stored d.table)
    {files : List ByteString} {inputs : List DiskFile}
    (done : compact d (v.map (File.onDisk d.table)) l r = some (files, inputs)) :
    ∃ ts delta merged, FrenzyKV.compact d.toKvdbDeps v l r = some (ts, delta) ∧
      files = ts.map (·.image d.table) ∧ inputs = delta.compacted.map (File.onDisk d.table) ∧
      (∀ t ∈ ts, t.Stored d.table) ∧ mergedEntries d inputs = some merged ∧
      (d.table.BlocksFit merged.reverse → ∀ t ∈ ts, t.Legible d.table) := by
  rw [compact] at done
  rw [FrenzyKV.compact]
  split at done
  · cases done
  · rename_i levelOk
    rw [if_neg levelOk]
    rw [compactionInputs_map readable all] at done
    obtain ⟨_, mapped, done⟩ := Option.bind_eq_some_iff.mp done
    obtain ⟨compacted, chosen, rfl⟩ := Option.map_eq_some_iff.mp mapped
    have inputsStored : Version.Stored d.table compacted := fun f mem =>
      all f (compactionInputs_mem chosen mem).1
    obtain ⟨merged, read, done⟩ := Option.bind_eq_some_iff.mp done
    obtain ⟨sstables, made, eq⟩ := Option.map_eq_some_iff.mp done
    obtain ⟨rfl, rfl⟩ := Prod.mk.inj eq
    have merges := ((mergedEntries_map readable inputsStored).mp read).2
    obtain ⟨ts, built, same, stored⟩ := mergedListToSst_stored readable
      (merged_of_mergeTables inputsStored merges).descending
      (encodable_of_mergeTables inputsStored merges) made
    refine ⟨ts, ⟨compacted, []⟩, merged, ?_, same, rfl, stored, read, fun fits => ?_⟩
    · rw [chosen, Option.bind_some, merges, Option.bind_some, built]
      rfl
    · rw [FrenzyKV.mergedListToSst] at built
      split at built
      · cases built
      · rw [← d.options, ← d.filter] at built
        exact legible_of_fits stored built fits

/-- New files join the old ones that stay. -/
theorem forall_mem_install {P : Sstable → Prop} {deps : KvdbDeps} {level : Nat} {ts : List Sstable}
    {compacted : List File} (old : ∀ f ∈ s.current, P f.table) (new : ∀ t ∈ ts, P t) :
    ∀ f ∈ (s.install deps level ts compacted).current, P f.table := by
  intro f mem
  cases Version.mem_of_mem_apply mem with
  | inl created => exact new _ (mem_createFiles created).2.1
  | inr kept => exact old f kept

theorem flushFiles_stored {m : Memtable} {files : List ByteString}
    (encodable : ∀ e ∈ m.storage, e.Encodable) (flushed : flushFiles d m = some files) :
    ∃ ts, flushTables d.toKvdbDeps m = some ts ∧ files = ts.map (·.image d.table) ∧
      (∀ t ∈ ts, t.Stored d.table) ∧ (d.table.BlocksFit m.storage → ∀ t ∈ ts, t.Legible d.table) := by
  rw [flushFiles] at flushed
  rw [flushTables]
  split at flushed
  · rename_i empty
    rw [if_pos empty]
    obtain rfl := Option.some.inj flushed
    exact ⟨[], rfl, rfl, fun _ mem => absurd mem List.not_mem_nil, fun _ _ mem => absurd mem List.not_mem_nil⟩
  · rename_i some_entry
    rw [if_neg some_entry]
    have nonempty : m.storage ≠ [] := by
      simpa [Memtable.isEmpty, SkipList.isEmpty, Memtable.storage] using some_entry
    obtain ⟨ts, built, same, stored⟩ := buildFilesFrom_stored nonempty m.storage_ascending encodable flushed
    refine ⟨ts, built, same, stored, fun fits => ?_⟩
    rw [← d.options, ← d.filter] at built
    exact legible_of_fits stored built fits

/-- A flush to files that keep what is appended is the flush of tables. -/
theorem flushToDisk_onDisk {m : Memtable} {s' : DiskStore} (buffered : d.opt.needBufferedWrite = true)
    (all : s.current.Stored d.table) (encodable : ∀ e ∈ m.storage, e.Encodable)
    (done : (s.onDisk d.table).flushToDisk d m = some s') :
    ∃ t, FrenzyKV.flushToDisk d.toKvdbDeps s m = some t ∧ s' = t.onDisk d.table ∧
      t.current.Stored d.table ∧
      (s.current.Legible d.table → d.table.BlocksFit m.storage → t.current.Legible d.table) := by
  obtain ⟨files, flushed, rfl⟩ := Option.map_eq_some_iff.mp done
  obtain ⟨ts, eq, rfl, stored, legible⟩ := flushFiles_stored encodable flushed
  refine ⟨s.install d.toKvdbDeps 0 ts [], ?_, install_onDisk buffered s 0 ts [],
    forall_mem_install all stored, fun old fits => forall_mem_install old (legible fits)⟩
  rw [FrenzyKV.flushToDisk, eq, Option.map_some]

theorem needCompaction_map (v : Version File) (l : Nat) (r : ThreshRatio) :
    needCompaction d (v.map (File.onDisk d.table)) l r =
      FrenzyKV.needCompaction d.toKvdbDeps v l r := by
  rw [needCompaction, FrenzyKV.needCompaction, withLevel_map, List.length_map]

theorem levelToCompact_map (v : Version File) (from_ : Nat) (r : ThreshRatio) :
    levelToCompact d (v.map (File.onDisk d.table)) from_ r =
      FrenzyKV.levelToCompact d.toKvdbDeps v from_ r :=
  congrArg (List.find? · _) (funext fun l => needCompaction_map v l r)

/-- `fake_file_to_disk` skips no file of a table. -/
theorem filter_image {d : TableDeps} {ts : List Sstable} (all : ∀ t ∈ ts, t.Stored d) :
    (ts.map (·.image d)).filter (fun file => !file.isEmpty) = ts.map (·.image d) := by
  refine List.filter_eq_self.mpr fun file mem => ?_
  obtain ⟨t, inside, rfl⟩ := List.mem_map.mp mem
  simpa using Sstable.image_ne_nil (all t inside).present

theorem mayCompact_onDisk (readable : d.Readable compressor) (all : s.current.Stored d.table)
    {from_ : Nat} {s' : DiskStore} (done : (s.onDisk d.table).mayCompact d from_ r = some s') :
    ∃ t, FrenzyKV.mayCompact d.toKvdbDeps s from_ r = some t ∧ s' = t.onDisk d.table ∧
      t.current.Stored d.table ∧
      (s.current.Legible d.table → MergeFits d (s.onDisk d.table).current from_ r →
        t.current.Legible d.table) := by
  have same := levelToCompact_map (d := d) s.current from_ r
  change levelToCompact d (s.onDisk d.table).current from_ r = _ at same
  rw [mayCompact] at done
  rw [FrenzyKV.mayCompact]
  cases chosen : FrenzyKV.levelToCompact d.toKvdbDeps s.current from_ r with
  | none =>
    rw [same, chosen] at done
    exact ⟨s, rfl, (Option.some.inj done).symm, all, fun legible _ => legible⟩
  | some l =>
    rw [same, chosen] at done
    obtain ⟨⟨files, inputs⟩, compacted, rfl⟩ := Option.map_eq_some_iff.mp done
    obtain ⟨ts, delta, merged, eq, rfl, rfl, stored, read, legible⟩ :=
      compact_map readable.toReadable all compacted
    dsimp only [FrenzyKV.compactLevel]
    rw [eq, Option.map_some, filter_image stored, List.isEmpty_map]
    split
    · exact ⟨s, rfl, rfl, all, fun legible _ => legible⟩
    · refine ⟨_, rfl, install_onDisk readable.buffered s (l + 1) ts delta.compacted,
        forall_mem_install all stored, fun old fits => forall_mem_install old (legible ?_)⟩
      exact fits l (same.trans chosen) _ (compactionInputs_of_compact compacted) merged read

section Lookup

variable {k : SequencedKey}

theorem fileToPotentialRet_onDisk (readable : d.table.Readable compressor) {f : File}
    (legible : f.table.Legible d.table) (size : k.userKey.size < 2 ^ 16) :
    fileToPotentialRet d k (f.onDisk d.table) =
      some (FrenzyKV.fileToPotentialRet d.filterPolicy k f) := by
  have opened : RawSstable.make d.table (f.onDisk d.table).bytes =
      some (f.table.opened d.table compressor) := legible.make_image readable
  rw [fileToPotentialRet, opened, Option.bind_some, legible.getKvEntry readable legible.fits size,
    Option.map_some, d.filter]
  rfl

theorem searchLevel_map (readable : d.table.Readable compressor) {files : List File}
    (legible : Version.Legible d.table files) (size : k.userKey.size < 2 ^ 16) :
    searchLevel d (files.map (File.onDisk d.table)) k =
      some (FrenzyKV.searchLevel d.filterPolicy d.skipListReplaces files k) := by
  have results : (files.map (File.onDisk d.table)).mapM (fileToPotentialRet d k) =
      some (files.map (FrenzyKV.fileToPotentialRet d.filterPolicy k)) := by
    induction files with
    | nil => rfl
    | cons f files ih =>
      obtain ⟨here, later⟩ := List.forall_mem_cons.mp legible
      rw [List.map_cons, List.mapM_cons, fileToPotentialRet_onDisk readable here size, ih later]
      rfl
  rw [searchLevel, results, Option.map_some, List.filterMap_map, Function.id_comp]
  rfl

/-- The search of the files is the search of the tables in them. -/
theorem findFromSsts_map (readable : d.table.Readable compressor) (legible : v.Legible d.table)
    (size : k.userKey.size < 2 ^ 16) :
    findFromSsts d (v.map (File.onDisk d.table)) k =
      some (FrenzyKV.findFromSsts d.filterPolicy d.skipListReplaces v k) := by
  have level : ∀ levels : List (List File), (∀ files ∈ levels, ∀ f ∈ files, f ∈ v) →
      searchLevels d k (levels.map (List.map (File.onDisk d.table))) =
        some (levels.findSome? fun files =>
          FrenzyKV.searchLevel d.filterPolicy d.skipListReplaces files k) := by
    intro levels inside
    induction levels with
    | nil => rfl
    | cons files deeper ih =>
      obtain ⟨here, later⟩ := List.forall_mem_cons.mp inside
      rw [List.map_cons, searchLevels, searchLevel_map readable (fun f mem => legible f (here f mem)) size, Option.bind_some, List.findSome?_cons]
      cases FrenzyKV.searchLevel d.filterPolicy d.skipListReplaces files k with
      | some e => rfl
      | none => exact ih later
  have byLevel : groups DiskFile.level (v.sort.map (File.onDisk d.table)) =
      (groups File.level v.sort).map (List.map (File.onDisk d.table)) :=
    groups_map (File.onDisk d.table) (fun _ => rfl) v.sort
  rw [findFromSsts, sort_map, byLevel]
  refine level _ fun files mem f inside => Version.mem_sort.mp ?_
  rw [← @flatten_groups _ _ _ File.level v.sort]
  exact List.mem_flatten.mpr ⟨files, mem, inside⟩

end Lookup

end DiskStore

end FrenzyKV
