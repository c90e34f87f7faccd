import FrenzyKV.Db.DiskOrder

namespace FrenzyKV

open Bytes SortedDifference

namespace DiskStore

section Versions

variable {v : Version DiskFile} {compacted added : List DiskFile} {f : DiskFile}

@[simp] theorem mem_sort : f ∈ sort v ↔ f ∈ v := List.mem_insertionSort _

theorem sort_ascending (v : Version DiskFile) : (sort v).Pairwise (DiskFile.rank · ≤ DiskFile.rank ·) := by
  have total : Std.Total fun f g : DiskFile => f.rank ≤ g.rank := ⟨fun f g => le_total f.rank g.rank⟩
  have trans : IsTrans DiskFile fun f g => f.rank ≤ g.rank := ⟨fun _ _ _ => le_trans⟩
  exact List.pairwise_insertionSort _ v

theorem apply_nil_perm (v : Version DiskFile) (added : List DiskFile) :
    (apply v [] added).Perm (added ++ v) := by
  rw [apply]
  split
  · rename_i empty
    simp only [Bool.and_eq_true, List.isEmpty_iff] at empty
    rw [empty.2, List.nil_append]
  · have none_taken : setDifference DiskFile.rank (sort v) (sort []) = sort v := by
      rw [show sort [] = [] from rfl, setDifference]
    rw [none_taken]
    exact (List.perm_insertionSort _ v).append_left added

/-- Where a rank names one file, a delta takes out exactly its files. -/
theorem mem_apply_iff (distinct : v.Pairwise (DiskFile.rank · ≠ DiskFile.rank ·))
    (named : ∀ c ∈ compacted, ∀ g ∈ v, c.rank = g.rank → c = g) :
    f ∈ apply v compacted added ↔ f ∈ added ∨ f ∈ v ∧ f ∉ compacted := by
  rw [apply]
  split
  · rename_i empty
    simp only [Bool.and_eq_true, List.isEmpty_iff] at empty
    simp [empty.1, empty.2]
  · rw [List.mem_append]
    refine or_congr Iff.rfl ⟨fun kept => ?_, fun kept => ?_⟩
    · have distinct' : (sort v).Pairwise (DiskFile.rank · ≠ DiskFile.rank ·) :=
        (List.perm_insertionSort _ v).symm.pairwise distinct fun ne => ne.symm
      have ascending : (sort v).Pairwise (DiskFile.rank · < DiskFile.rank ·) :=
        (sort_ascending v).imp₂ (fun _ _ le ne => lt_of_le_of_ne le ne) distinct'
      refine ⟨mem_sort.mp ((setDifference_sublist _ _ _).subset kept), fun taken => ?_⟩
      exact not_ranked_of_mem_setDifference _ ascending (sort_ascending _) kept f (mem_sort.mpr taken) rfl
    · refine mem_setDifference_of_not_ranked _ (mem_sort.mpr kept.1) fun c hc same => ?_
      have taken := mem_sort.mp hc
      exact kept.2 (named c taken f kept.1 same.symm ▸ taken)

theorem eq_of_rank (distinct : v.Pairwise (DiskFile.rank · ≠ DiskFile.rank ·)) {g : DiskFile}
    (hf : f ∈ v) (hg : g ∈ v) (same : f.rank = g.rank) : f = g := by
  by_contra ne
  have symm : Std.Symm fun f g : DiskFile => f.rank ≠ g.rank := ⟨fun _ _ h => h.symm⟩
  exact List.Pairwise.forall distinct hf hg ne same

variable {d : DiskDeps} {files inputs : List DiskFile} {l : Nat} {r : ThreshRatio}

theorem mem_sortByLastWriteTime : f ∈ sortByLastWriteTime files ↔ f ∈ files := List.mem_insertionSort _

theorem mem_withLevel : f ∈ withLevel v l ↔ f ∈ v ∧ f.level = l := by
  rw [withLevel, List.mem_filter, decide_eq_true_eq]

theorem overlappedFiles_subset {fromLSst : RawSstable} {pulled : List DiskFile}
    (ran : overlappedFiles d fromLSst files = some pulled) : pulled ⊆ files := by
  induction files generalizing pulled with
  | nil =>
    obtain rfl := Option.some.inj ran
    exact List.Subset.refl _
  | cons g files ih =>
    obtain ⟨sst, -, ran⟩ := Option.bind_eq_some_iff.mp ran
    obtain ⟨hit, -, ran⟩ := Option.bind_eq_some_iff.mp ran
    obtain ⟨rest, later, rfl⟩ := Option.map_eq_some_iff.mp ran
    cases hit with
    | true => exact List.cons_subset_cons g (ih later)
    | false => exact List.subset_cons_of_subset g (ih later)

theorem compactingFiles_subset (chosen : compactingFiles d v l = some inputs) : inputs ⊆ v := by
  have level : ∀ f ∈ (sortByLastWriteTime (withLevel v l)).dropLast, f ∈ v := fun f mem =>
    (mem_withLevel.mp (mem_sortByLastWriteTime.mp (List.dropLast_subset _ mem))).1
  rw [compactingFiles] at chosen
  split at chosen
  · cases chosen
  · cases dropped : (sortByLastWriteTime (withLevel v l)).dropLast with
    | nil =>
      rw [dropped] at chosen
      obtain rfl := Option.some.inj chosen
      exact List.nil_subset _
    | cons first rest =>
      simp only [dropped] at chosen level
      split at chosen
      · cases chosen
      · split at chosen
        · obtain ⟨pulled, ran, rfl⟩ := Option.map_eq_some_iff.mp chosen
          obtain ⟨sst, -, ran⟩ := Option.bind_eq_some_iff.mp ran
          refine List.append_subset.mpr ⟨level, fun f mem => ?_⟩
          have inside := (d.sortDisk_perm _).mem_iff.mp (overlappedFiles_subset ran mem)
          exact (mem_withLevel.mp (mem_sortByLastWriteTime.mp inside)).1
        · obtain rfl := Option.some.inj chosen
          exact level

theorem compactionInputs_subset (chosen : compactionInputs d v l r = some inputs) : inputs ⊆ v := by
  obtain ⟨files, ran, rfl⟩ := Option.map_eq_some_iff.mp chosen
  exact fun f mem => compactingFiles_subset ran (List.mem_of_mem_take mem)

/-- A compaction that ends has built a table. -/
theorem ne_nil_of_mergedListToSst {merged : List KvEntry} {tables : List RawSstable}
    (made : mergedListToSst d merged l = some tables) : tables.map RawSstable.file ≠ [] := by
  rw [mergedListToSst] at made
  obtain ⟨-, made⟩ := Option.ite_none_left_eq_some.mp made
  obtain ⟨files, built, opened⟩ := Option.bind_eq_some_iff.mp made
  have some_file := RawSstableBuilder.ne_nil_of_buildFilesFrom built
  cases files with
  | nil => exact absurd rfl some_file
  | cons file files =>
    rw [List.mapM_cons] at opened
    obtain ⟨table, -, rest⟩ := Option.bind_eq_some_iff.mp opened
    obtain ⟨later, -, eq⟩ := Option.bind_eq_some_iff.mp rest
    obtain rfl := Option.some.inj eq
    exact List.cons_ne_nil table.file (later.map RawSstable.file)

end Versions

section Held

/-- The entries of the tables whose bytes are in the files of a version. -/
def held (d : TableDeps) (v : Version DiskFile) : Set KvEntry :=
  {e | ∃ f ∈ v, ∃ t : Sstable, t.Stored d ∧ f.bytes = t.image d ∧ e ∈ t.entries}

variable {d : TableDeps} {compressor : CompressorPolicy} {v w : Version DiskFile}

theorem mem_held_map {u : Version File} (stored : u.Stored d) {e : KvEntry} (mem : e ∈ u.contents) :
    e ∈ held d (u.map (File.onDisk d)) := by
  obtain ⟨f, hf, he⟩ := mem
  exact ⟨f.onDisk d, List.mem_map_of_mem hf, f.table, stored f hf, rfl, he⟩

/-- What is read from the bytes of a table is what the table has. -/
theorem eq_of_read {t : Sstable} {es : List KvEntry} (readable : d.Readable compressor)
    (stored : t.Stored d)
    (read : (RawSstable.make d (t.image d)).bind (·.getEntriesAtOnce true) = some es) :
    es = t.entries.reverse := by
  rw [stored.make_image readable] at read
  exact ((stored.getEntriesAtOnce_iff readable).mp read).2

/-- A table that can be read back is determined by its bytes. -/
theorem entries_of_image {t u : Sstable} (readable : d.Readable compressor) (legible : t.Legible d)
    (stored : u.Stored d) (same : t.image d = u.image d) : u.entries = t.entries := by
  have read : (RawSstable.make d (t.image d)).bind (·.getEntriesAtOnce true) =
      some t.entries.reverse := by
    rw [legible.make_image readable]
    exact legible.getEntriesAtOnce readable true
  rw [same] at read
  exact (List.reverse_injective (eq_of_read readable stored read)).symm

/-- Nothing is in an empty file. -/
theorem not_held_of_nil (empty : ∀ f ∈ v, f.bytes = []) (e : KvEntry) : e ∉ held d v := by
  rintro ⟨f, hf, t, stored, same, -⟩
  exact Sstable.image_ne_nil stored.present (same.symm.trans (empty f hf))

end Held

section Unbuffered

variable {d : DiskDeps} {t t' : DiskStore} {m : Memtable} {from_ : Nat} {r : ThreshRatio}

/-- Bytes that are not buffered are lost. -/
theorem createFiles_unbuffered (off : d.opt.needBufferedWrite = false) {level clock : Nat}
    {files : List ByteString} : ∀ f ∈ createFiles d level clock files, f.bytes = [] := by
  induction files generalizing clock with
  | nil => exact fun f mem => absurd mem List.not_mem_nil
  | cons file files ih =>
    refine List.forall_mem_cons.mpr ⟨?_, ih⟩
    exact if_neg (by rw [off]; exact Bool.false_ne_true)

/-- The files that the compaction, if there is one, takes out. -/
def consumed (d : DiskDeps) (v : Version DiskFile) (from_ : Nat) (r : ThreshRatio) : List DiskFile :=
  ((levelToCompact d v from_ r).bind fun l => compactionInputs d v l r).getD []

/-- What new files hold, and what the old ones do that stay. -/
theorem mem_held_apply {v : Version DiskFile} {compacted added : List DiskFile}
    (files : ∀ f, f ∈ apply v compacted added ↔ f ∈ added ∨ f ∈ v ∧ f ∉ compacted) (e : KvEntry) :
    e ∈ held d.table (apply v compacted added) ↔
      e ∈ held d.table added ∨ e ∈ held d.table (v.filter (· ∉ compacted)) := by
  constructor
  · rintro ⟨f, hf, rest⟩
    cases (files f).mp hf with
    | inl new => exact .inl ⟨f, new, rest⟩
    | inr old => exact .inr ⟨f, List.mem_filter.mpr ⟨old.1, decide_eq_true old.2⟩, rest⟩
  · rintro (⟨f, hf, rest⟩ | ⟨f, hf, rest⟩)
    · exact ⟨f, (files f).mpr (.inl hf), rest⟩
    · obtain ⟨old, kept⟩ := List.mem_filter.mp hf
      exact ⟨f, (files f).mpr (.inr ⟨old, of_decide_eq_true kept⟩), rest⟩

/-- A flush adds what its files hold. -/
theorem mem_held_flush (done : t.flushToDisk d m = some t') : ∃ files, flushFiles d m = some files ∧
    ∀ e, e ∈ held d.table t'.current ↔
      e ∈ held d.table (createFiles d 0 t.created files) ∨ e ∈ held d.table t.current := by
  obtain ⟨files, flushed, rfl⟩ := Option.map_eq_some_iff.mp done
  have kept : t.current.filter (· ∉ ([] : List DiskFile)) = t.current :=
    List.filter_eq_self.mpr fun f _ => decide_eq_true List.not_mem_nil
  refine ⟨files, flushed, fun e => ?_⟩
  have all : ∀ f, f ∈ apply t.current [] (createFiles d 0 t.created files) ↔
      f ∈ createFiles d 0 t.created files ∨ f ∈ t.current ∧ f ∉ ([] : List DiskFile) := fun f => by
    rw [(apply_nil_perm _ _).mem_iff, List.mem_append, and_iff_left List.not_mem_nil]
  rw [install, mem_held_apply all, kept]

theorem held_install_unbuffered (off : d.opt.needBufferedWrite = false)
    (distinct : t.current.Pairwise (DiskFile.rank · ≠ DiskFile.rank ·)) {level : Nat}
    {files : List ByteString} {compacted : List DiskFile} (inside : ∀ c ∈ compacted, c ∈ t.current) :
    held d.table (t.install d level files compacted).current =
      held d.table (t.current.filter (· ∉ compacted)) := by
  ext e
  rw [install, mem_held_apply fun f => mem_apply_iff distinct fun c hc g hg same =>
    eq_of_rank distinct (inside c hc) hg same]
  exact or_iff_right (not_held_of_nil (createFiles_unbuffered off) e)

/-- A flush without buffers adds nothing. -/
theorem held_flush_unbuffered (off : d.opt.needBufferedWrite = false)
    (done : t.flushToDisk d m = some t') : held d.table t'.current = held d.table t.current := by
  obtain ⟨files, -, all⟩ := mem_held_flush done
  ext e
  rw [all]
  exact or_iff_right (not_held_of_nil (createFiles_unbuffered off) e)

/-- Of the files behind such a flush, those that are kept hold what they held before. -/
theorem held_filter_unbuffered (off : d.opt.needBufferedWrite = false)
    (done : t.flushToDisk d m = some t') (taken : List DiskFile) :
    held d.table (t'.current.filter (· ∉ taken)) = held d.table (t.current.filter (· ∉ taken)) := by
  obtain ⟨files, -, rfl⟩ := Option.map_eq_some_iff.mp done
  have all : ∀ f, f ∈ (install d t 0 files []).current ↔ f ∈ createFiles d 0 t.created files ++ t.current :=
    fun f => (apply_nil_perm t.current _).mem_iff
  ext e
  constructor
  · rintro ⟨f, hf, rest⟩
    obtain ⟨mem, kept⟩ := List.mem_filter.mp hf
    cases List.mem_append.mp ((all f).mp mem) with
    | inl new => exact absurd ⟨f, new, rest⟩ (not_held_of_nil (createFiles_unbuffered off) e)
    | inr old => exact ⟨f, List.mem_filter.mpr ⟨old, kept⟩, rest⟩
  · rintro ⟨f, hf, rest⟩
    obtain ⟨mem, kept⟩ := List.mem_filter.mp hf
    exact ⟨f, List.mem_filter.mpr ⟨(all f).mpr (List.mem_append_right _ mem), kept⟩, rest⟩

/-- A compaction without buffers takes its inputs out and leaves nothing in their place. -/
theorem held_mayCompact_unbuffered (off : d.opt.needBufferedWrite = false)
    (distinct : t.current.Pairwise (DiskFile.rank · ≠ DiskFile.rank ·))
    (done : t.mayCompact d from_ r = some t') : held d.table t'.current =
      held d.table (t.current.filter (· ∉ consumed d t.current from_ r)) := by
  rw [mayCompact] at done
  cases chosen : levelToCompact d t.current from_ r with
  | none =>
    rw [chosen] at done
    obtain rfl := Option.some.inj done
    have nothing : consumed d t.current from_ r = [] := by
      rw [consumed, chosen]
      rfl
    rw [nothing, List.filter_eq_self.mpr fun f _ => decide_eq_true List.not_mem_nil]
  | some l =>
    rw [chosen] at done
    obtain ⟨⟨files, inputs⟩, compacted, rfl⟩ := Option.map_eq_some_iff.mp done
    rw [compact] at compacted
    obtain ⟨-, compacted⟩ := Option.ite_none_left_eq_some.mp compacted
    obtain ⟨inputs', taken, rest⟩ := Option.bind_eq_some_iff.mp compacted
    obtain ⟨merged, -, rest⟩ := Option.bind_eq_some_iff.mp rest
    obtain ⟨tables, made, eq⟩ := Option.map_eq_some_iff.mp rest
    obtain ⟨rfl, rfl⟩ := Prod.mk.inj eq
    have names : consumed d t.current from_ r = inputs' := by
      rw [consumed, chosen, Option.bind_some, taken]
      rfl
    rw [names, if_neg (mt List.isEmpty_iff.mp (ne_nil_of_mergedListToSst made))]
    exact held_install_unbuffered off distinct (compactionInputs_subset taken)

end Unbuffered

section Buffered

variable {d : DiskDeps} {compressor : CompressorPolicy} {t t' : DiskStore} {m : Memtable}

theorem held_createFiles (buffered : d.opt.needBufferedWrite = true) {ts : List Sstable}
    (stored : ∀ t ∈ ts, t.Stored d.table) {level clock : Nat} {e : KvEntry}
    (mem : e ∈ ts.flatMap Sstable.entries) :
    e ∈ held d.table (createFiles d level clock (ts.map (·.image d.table))) := by
  have files : Version.Stored d.table (FrenzyKV.createFiles d.toKvdbDeps level clock ts) :=
    fun f inside => stored _ (mem_createFiles inside).2.1
  rw [createFiles_image buffered]
  refine mem_held_map files ?_
  rw [contents_createFiles]
  obtain ⟨t, inside, he⟩ := List.mem_flatMap.mp mem
  exact ⟨t, inside, he⟩

/-- What is flushed through a buffer is in the files. -/
theorem held_flush (buffered : d.opt.needBufferedWrite = true)
    (encodable : ∀ e ∈ m.storage, e.Encodable) (done : t.flushToDisk d m = some t') :
    ∀ e ∈ m.storage, e.stored ∈ held d.table t'.current := by
  obtain ⟨files, flushed, all⟩ := mem_held_flush done
  obtain ⟨ts, tables, rfl, stored, -⟩ := flushFiles_stored encodable flushed
  refine fun e mem => (all e.stored).mpr (.inl (held_createFiles buffered stored ?_))
  rw [(flushTables_spec tables).2]
  exact List.mem_map_of_mem mem

theorem held_map {d : TableDeps} (readable : d.Readable compressor) {u : Version File}
    (legible : u.Legible d) : held d (u.map (File.onDisk d)) = u.contents := by
  ext e
  constructor
  · rintro ⟨_, mem, t, stored, same, he⟩
    obtain ⟨f, hf, rfl⟩ := List.mem_map.mp mem
    rw [entries_of_image readable (legible f hf) stored same] at he
    exact ⟨f, hf, he⟩
  · exact mem_held_map legible.stored

end Buffered

section Named

/-- Every file has the uuid of its write time, which no other file has. -/
structure Named (d : DiskDeps) (t : DiskStore) : Prop where
  named : ∀ f ∈ t.current, f.fileId = d.uuid f.lastWriteTime ∧ f.lastWriteTime < t.created
  distinct : t.current.Pairwise (·.lastWriteTime ≠ ·.lastWriteTime)

variable {d : DiskDeps} {t t' : DiskStore} {m : Memtable} {f : DiskFile}

theorem mem_createFiles {level clock : Nat} {files : List ByteString}
    (mem : f ∈ createFiles d level clock files) : f.fileId = d.uuid f.lastWriteTime ∧
      clock ≤ f.lastWriteTime ∧ f.lastWriteTime < clock + files.length := by
  induction files generalizing clock with
  | nil => cases mem
  | cons file files ih =>
    rw [List.length_cons]
    rcases List.mem_cons.mp mem with rfl | mem
    · exact ⟨rfl, le_rfl, Nat.lt_add_of_pos_right (Nat.succ_pos _)⟩
    · obtain ⟨named, low, high⟩ := ih mem
      exact ⟨named, by omega, by omega⟩

theorem createFiles_times {level clock : Nat} {files : List ByteString} :
    (createFiles d level clock files).Pairwise (·.lastWriteTime ≠ ·.lastWriteTime) := by
  induction files generalizing clock with
  | nil => exact List.Pairwise.nil
  | cons file files ih =>
    refine List.pairwise_cons.mpr ⟨fun f mem => ?_, ih⟩
    exact (Nat.lt_of_succ_le (mem_createFiles mem).2.1).ne

theorem named_empty (d : DiskDeps) : Named d Store.empty :=
  ⟨fun _ mem => absurd mem List.not_mem_nil, List.Pairwise.nil⟩

theorem Named.ranks (named : Named d t) : t.current.Pairwise (DiskFile.rank · ≠ DiskFile.rank ·) := by
  refine named.distinct.imp_of_mem fun {f g} hf hg ne same => ne ?_
  have ids := congrArg (fun rank => (ofLex rank).2) same
  change f.fileId = g.fileId at ids
  rw [(named.named f hf).1, (named.named g hg).1] at ids
  exact d.uuid_injective ids

theorem Named.flush (named : Named d t) (done : t.flushToDisk d m = some t') : Named d t' := by
  obtain ⟨files, -, rfl⟩ := Option.map_eq_some_iff.mp done
  have files_perm := apply_nil_perm t.current (createFiles d 0 t.created files)
  constructor
  · intro f mem
    change f.fileId = d.uuid f.lastWriteTime ∧ f.lastWriteTime < t.created + files.length
    cases List.mem_append.mp (files_perm.mem_iff.mp mem) with
    | inl new =>
      obtain ⟨id, -, high⟩ := mem_createFiles new
      exact ⟨id, high⟩
    | inr old =>
      obtain ⟨id, high⟩ := named.named f old
      exact ⟨id, by omega⟩
  · refine files_perm.symm.pairwise ?_ fun ne => ne.symm
    refine List.pairwise_append.mpr ⟨createFiles_times, named.distinct, fun f new g old => ?_⟩
    have low := (mem_createFiles new).2.1
    have high := (named.named g old).2
    omega

end Named

end DiskStore

end FrenzyKV
