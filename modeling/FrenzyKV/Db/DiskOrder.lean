import FrenzyKV.Db.DiskImage
import FrenzyKV.Db.LevelOrder

namespace FrenzyKV

namespace DiskStore

variable {compressor : CompressorPolicy} {v : Version File} {l : Nat}

/-- What is read from the file of a table is the table. -/
theorem entries_onDisk {d : TableDeps} (readable : d.Readable compressor) {f : File}
    (legible : f.table.Legible d) :
    (FileView.onDisk d).entries (f.onDisk d) = f.table.entries := by
  change (f.onDisk d).entries d = _
  have opened : RawSstable.make d (f.onDisk d).bytes = some (f.table.opened d compressor) :=
    legible.make_image readable
  rw [DiskFile.entries, opened, Option.bind_some, legible.getEntriesAtOnce readable]
  rfl

theorem flatMap_entries {d : TableDeps} (readable : d.Readable compressor) (legible : v.Legible d) :
    (v.map (File.onDisk d)).flatMap (DiskFile.entries d) = v.flatMap fun f => f.table.entries := by
  rw [List.flatMap_map]
  exact List.flatMap_congr fun f mem => entries_onDisk readable (legible f mem)

theorem newestOfAllFiles_map {d : TableDeps} (readable : d.Readable compressor) (legible : v.Legible d)
    (uk : UserKey) : newestOfAllFiles (.onDisk d) (v.map (File.onDisk d)) uk =
      newestOfAllFiles .tables v uk := by
  rw [newestOfAllFiles, newestOfAllFiles, flatMap_entries readable legible]

theorem levelOrdered_map {d : TableDeps} (readable : d.Readable compressor) (legible : v.Legible d) :
    LevelOrdered (.onDisk d) (v.map (File.onDisk d)) ↔ LevelOrdered .tables v := by
  have read : ∀ f ∈ v, (FileView.onDisk d).entries (f.onDisk d) = f.table.entries :=
    fun f mem => entries_onDisk readable (legible f mem)
  constructor
  · intro ordered f hf g hg lt
    have newer := ordered (f.onDisk d) (List.mem_map_of_mem hf) (g.onDisk d) (List.mem_map_of_mem hg) lt
    rw [read f hf, read g hg] at newer
    exact newer
  · intro ordered
    refine List.forall_mem_map.mpr fun f hf => List.forall_mem_map.mpr fun g hg lt => ?_
    rw [read f hf, read g hg]
    exact ordered f hf g hg lt

section Inputs

variable {d : TableDeps} {inputs : List File}

theorem leavesNewer_map (readable : d.Readable compressor) (legible : v.Legible d)
    (distinct : v.Pairwise (·.lastWriteTime ≠ ·.lastWriteTime)) (sub : ∀ f ∈ inputs, f ∈ v) (x : KvEntry) :
    LeavesNewer (.onDisk d) (v.map (File.onDisk d)) l (inputs.map (File.onDisk d)) x ↔
      LeavesNewer .tables v l inputs x := by
  have same : ∀ f ∈ v, ∀ g ∈ v, f.lastWriteTime = g.lastWriteTime → f = g := by
    intro f hf g hg eq
    by_contra ne
    have symm : Std.Symm fun f g : File => f.lastWriteTime ≠ g.lastWriteTime := ⟨fun _ _ h => h.symm⟩
    exact List.Pairwise.forall distinct hf hg ne eq
  constructor
  · rintro ⟨_, mem, level, out, y, hy, newer⟩
    obtain ⟨g, hg, rfl⟩ := List.mem_map.mp mem
    rw [entries_onDisk readable (legible g hg)] at hy
    exact ⟨g, hg, level, fun inside => out (List.mem_map_of_mem inside), y, hy, newer⟩
  · rintro ⟨g, hg, level, out, y, hy, newer⟩
    refine ⟨g.onDisk d, List.mem_map_of_mem hg, level, fun inside => out ?_, y, ?_, newer⟩
    · obtain ⟨f, hf, eq⟩ := List.mem_map.mp inside
      obtain rfl := same f (sub f hf) g hg (congrArg DiskFile.lastWriteTime eq)
      exact hf
    · rw [entries_onDisk readable (legible g hg)]
      exact hy

theorem pullSafe_map (readable : d.Readable compressor) (legible : v.Legible d)
    (distinct : v.Pairwise (·.lastWriteTime ≠ ·.lastWriteTime)) (sub : ∀ f ∈ inputs, f ∈ v) :
    PullSafe (.onDisk d) (v.map (File.onDisk d)) l (inputs.map (File.onDisk d)) ↔
      PullSafe .tables v l inputs := by
  have read : ∀ f ∈ inputs, ∀ x, x ∈ (FileView.onDisk d).entries (f.onDisk d) ↔ x ∈ f.table.entries := by
    intro f mem x
    rw [entries_onDisk readable (legible f (sub f mem))]
  constructor
  · intro safe p hp level x hx leaves
    have leaves := (leavesNewer_map (l := l) readable legible distinct sub x).mpr leaves
    obtain ⟨_, mem, level', z, hz, same⟩ := safe (p.onDisk d) (List.mem_map_of_mem hp) level x
      ((read p hp x).mpr hx) leaves
    obtain ⟨c, hc, rfl⟩ := List.mem_map.mp mem
    exact ⟨c, hc, level', z, (read c hc z).mp hz, same⟩
  · intro safe
    refine List.forall_mem_map.mpr fun p hp level x hx leaves => ?_
    have leaves := (leavesNewer_map readable legible distinct sub x).mp leaves
    obtain ⟨c, hc, level', z, hz, same⟩ := safe p hp level x ((read p hp x).mp hx) leaves
    exact ⟨c.onDisk d, List.mem_map_of_mem hc, level', z, (read c hc z).mpr hz, same⟩

end Inputs

/-- All entries that can be read from the files of a version. -/
def contents (d : TableDeps) (v : Version DiskFile) : Set KvEntry := {e | ∃ f ∈ v, e ∈ f.entries d}

/-- The inputs of the compaction, if there is one, are safe, and the blocks of its output fit. -/
def SafeCompaction (d : DiskDeps) (v : Version DiskFile) (from_ : Nat) (r : ThreshRatio) : Prop :=
  (∀ l ∈ levelToCompact d v from_ r, ∀ inputs ∈ compactionInputs d v l r,
    PullSafe (.onDisk d.table) v l inputs) ∧ MergeFits d v from_ r

instance (d : DiskDeps) (v : Version DiskFile) (from_ : Nat) (r : ThreshRatio) :
    Decidable (SafeCompaction d v from_ r) :=
  inferInstanceAs (Decidable ((∀ l ∈ levelToCompact d v from_ r, ∀ inputs ∈ compactionInputs d v l r,
    PullSafe (.onDisk d.table) v l inputs) ∧ MergeFits d v from_ r))

/-- The entries of a memtable have encodings, in blocks that fit. -/
def FlushFits (d : DiskDeps) (m : Memtable) : Prop :=
  (∀ e ∈ m.storage, e.Encodable) ∧ d.table.BlocksFit m.storage

instance (d : DiskDeps) (m : Memtable) : Decidable (FlushFits d m) :=
  inferInstanceAs (Decidable ((∀ e ∈ m.storage, e.Encodable) ∧ d.table.BlocksFit m.storage))

/-- A flush, and the compaction behind it. -/
def SafeFlush (d : DiskDeps) (t : DiskStore) (m : Memtable) : Prop :=
  FlushFits d m ∧ ∀ t' ∈ t.flushToDisk d m, SafeCompaction d t'.current 0 1

instance (d : DiskDeps) (t : DiskStore) (m : Memtable) : Decidable (SafeFlush d t m) :=
  inferInstanceAs (Decidable (FlushFits d m ∧ ∀ t' ∈ t.flushToDisk d m, SafeCompaction d t'.current 0 1))

/-- The files of tables that can be read back from them. -/
def Legible (d : TableDeps) (v : Version DiskFile) : Prop :=
  ∃ u : Version File, v = u.map (File.onDisk d) ∧ u.Legible d

/-- The files of tables that are in order and can be read back. -/
def Good (d : DiskDeps) (t : DiskStore) : Prop :=
  ∃ s : Store File, t = s.onDisk d.table ∧ s.Good d.toKvdbDeps ∧ s.current.Legible d.table

section Stores

variable {d : DiskDeps} {t t' : DiskStore} {m : Memtable} {k : SequencedKey} {from_ : Nat} {r : ThreshRatio}

theorem contents_map {d : TableDeps} (readable : d.Readable compressor) (legible : v.Legible d) :
    contents d (v.map (File.onDisk d)) = v.contents := by
  have same := flatMap_entries readable legible
  ext e
  have inside : e ∈ (v.map (File.onDisk d)).flatMap (DiskFile.entries d) ↔ e ∈ v.contents := by
    rw [same, List.mem_flatMap]
    rfl
  rw [← inside, List.mem_flatMap]
  rfl

theorem stored_of_mem {d : TableDeps} {v : Version DiskFile} (readable : d.Readable compressor)
    (legible : Legible d v) {e : KvEntry} (mem : e ∈ contents d v) : e.stored = e := by
  obtain ⟨u, rfl, legible⟩ := legible
  rw [contents_map readable legible] at mem
  obtain ⟨f, -, inFile⟩ := mem
  exact Sstable.stored_of_mem inFile

/-- Everything in the file can be read. -/
theorem Legible.isSome {d : TableDeps} {v : Version DiskFile} (readable : d.Readable compressor)
    (legible : Legible d v) : ∀ f ∈ v,
      ((RawSstable.make d f.bytes).bind (·.getEntriesAtOnce false)).isSome = true := by
  obtain ⟨u, rfl, legible⟩ := legible
  refine List.forall_mem_map.mpr fun f mem => ?_
  have opened : RawSstable.make d (f.onDisk d).bytes = some (f.table.opened d compressor) :=
    (legible f mem).make_image readable
  rw [opened, Option.bind_some, (legible f mem).getEntriesAtOnce readable]
  rfl

/-- What is safe for the files is safe for the tables in them. -/
theorem pulls_of_safe {s : Store File} (readable : d.Readable compressor) (sound : s.Sound d.toKvdbDeps)
    (legible : s.current.Legible d.table) (safe : SafeCompaction d (s.onDisk d.table).current from_ r) :
    ∀ l ∈ FrenzyKV.levelToCompact d.toKvdbDeps s.current from_ r,
      ∀ inputs ∈ FrenzyKV.compactionInputs d.toKvdbDeps s.current l r, PullSafe .tables s.current l inputs := by
  intro l chosen inputs taken
  have sub : ∀ f ∈ inputs, f ∈ s.current := fun f mem => (compactionInputs_mem taken mem).1
  rw [← pullSafe_map readable.toReadable legible sound.distinct sub]
  refine safe.1 l ((levelToCompact_map s.current from_ r).trans chosen) _ ?_
  change compactionInputs d (s.current.map _) l r = _
  rw [compactionInputs_map readable.toReadable legible.stored, taken]
  rfl

theorem good_empty (d : DiskDeps) : Good d Store.empty :=
  ⟨Store.empty, rfl, Store.good_empty _, fun _ mem => absurd mem List.not_mem_nil⟩

namespace Good

theorem legible (good : Good d t) : Legible d.table t.current := by
  obtain ⟨s, rfl, -, legible⟩ := good
  exact ⟨s.current, rfl, legible⟩

theorem levelOrdered (good : Good d t) (readable : d.Readable compressor) :
    LevelOrdered (.onDisk d.table) t.current := by
  obtain ⟨s, rfl, good, legible⟩ := good
  exact (levelOrdered_map readable.toReadable legible).mpr good.levelOrdered

theorem unique (good : Good d t) (readable : d.Readable compressor) :
    ∀ x ∈ contents d.table t.current,
      ∀ y ∈ contents d.table t.current, x.key = y.key → x = y := by
  obtain ⟨s, rfl, good, legible⟩ := good
  have same := contents_map readable.toReadable legible
  change ∀ x ∈ contents d.table (s.current.map _),
    ∀ y ∈ contents d.table (s.current.map _), _
  rw [same]
  exact good.unique

/-- A flush adds the entries of the memtable to the stored ones. -/
theorem flush (good : Good d t) (readable : d.Readable compressor) (fits : FlushFits d m)
    (fresh : Newer m.contents (contents d.table t.current))
    (done : t.flushToDisk d m = some t') :
    Good d t' ∧ ∀ e, e ∈ contents d.table t'.current ↔
      e ∈ contents d.table t.current ∨ e ∈ m.storage.map KvEntry.stored := by
  obtain ⟨s, rfl, good, legible⟩ := good
  obtain ⟨s', flushed, rfl, -, legible'⟩ :=
    flushToDisk_onDisk readable.buffered legible.stored fits.1 done
  have legible' := legible' legible fits.2
  have before := contents_map readable.toReadable legible
  have after := contents_map readable.toReadable legible'
  change Newer m.contents (contents d.table (s.current.map _)) at fresh
  rw [before] at fresh
  refine ⟨⟨s', rfl, good.flush fresh flushed, legible'⟩, fun e => ?_⟩
  change e ∈ contents d.table (s'.current.map _) ↔
    e ∈ contents d.table (s.current.map _) ∨ _
  rw [before, after]
  exact contents_flushToDisk flushed e

/-- A safe compaction keeps a version of each key that is at least as new as all others. -/
theorem mayCompact (good : Good d t) (readable : d.Readable compressor)
    (safe : SafeCompaction d t.current from_ r) (done : t.mayCompact d from_ r = some t') :
    Good d t' ∧ contents d.table t'.current ⊆ contents d.table t.current ∧
      Covers (contents d.table t'.current)
        (contents d.table t.current) := by
  obtain ⟨s, rfl, good, legible⟩ := good
  obtain ⟨s', compacted, rfl, -, legible'⟩ := mayCompact_onDisk readable legible.stored done
  have legible' := legible' legible safe.2
  have before := contents_map readable.toReadable legible
  have after := contents_map readable.toReadable legible'
  refine ⟨⟨s', rfl, good.mayCompact (pulls_of_safe readable good.toSound legible safe) compacted, legible'⟩, ?_⟩
  change contents d.table (s'.current.map _) ⊆
    contents d.table (s.current.map _) ∧
      Covers (contents d.table (s'.current.map _))
        (contents d.table (s.current.map _))
  rw [before, after]
  exact good.mayCompact_contents compacted

/-- In files in order the level search answers like a search of all files. -/
theorem findFromSsts_eq (good : Good d t) (readable : d.Readable compressor)
    (size : k.userKey.size < 2 ^ 16)
    (top : ∀ x ∈ contents d.table t.current, x.userKey = k.userKey → x.seq ≤ k.seq) :
    findFromSsts d t.current k = some (newestOfAllFiles (.onDisk d.table) t.current k.userKey) := by
  obtain ⟨s, rfl, good, legible⟩ := good
  change ∀ x ∈ contents d.table (s.current.map _), _ at top
  rw [contents_map readable.toReadable legible] at top
  have found := findFromSsts_map readable.toReadable legible size
  rw [good.findFromSsts_eq d.skipListReplaces top,
    ← newestOfAllFiles_map readable.toReadable legible] at found
  exact found

end Good

/-- What the level search answers in legible files whose levels are in order. -/
theorem findFromSsts_spec {v : Version DiskFile} (readable : d.Readable compressor)
    (legible : Legible d.table v) (ordered : LevelOrdered (.onDisk d.table) v)
    (size : k.userKey.size < 2 ^ 16)
    (top : ∀ x ∈ contents d.table v, x.userKey = k.userKey → x.seq ≤ k.seq) :
    ∃ result, findFromSsts d v k = some result ∧
      (∀ e, result = some e → IsNewest (contents d.table v) k.userKey e) ∧
      (result = none → ∀ x ∈ contents d.table v, x.userKey ≠ k.userKey) := by
  obtain ⟨u, rfl, legible⟩ := legible
  rw [contents_map readable.toReadable legible] at top ⊢
  have wf : ∀ f ∈ u, f.table.Wf d.filterPolicy := fun f mem => d.filter ▸ (legible f mem).wf
  refine ⟨_, findFromSsts_map readable.toReadable legible size, ?_⟩
  exact FrenzyKV.findFromSsts_spec wf ((levelOrdered_map readable.toReadable legible).mp ordered) top

end Stores

end DiskStore

end FrenzyKV
