import FrenzyKV.Store.DiskRuns

namespace FrenzyKV

open SortedGroups

namespace Sstable

/-- The entry is in the last block that holds its key. -/
def Shows (t : Sstable) (x : KvEntry) : Prop :=
  ∃ front b back, t.blocks = front ++ b :: back ∧ x ∈ b.entries ∧
    ∀ e ∈ back.flatMap Block.entries, e.userKey ≠ x.userKey

variable {filter : FilterPolicy} {t : Sstable}

theorem Shows.mem {x : KvEntry} (shown : t.Shows x) : x ∈ t.entries := by
  obtain ⟨front, b, back, eq, inside, -⟩ := shown
  exact List.mem_flatMap.mpr ⟨b, eq ▸ List.mem_append_right front List.mem_cons_self, inside⟩

/-- There is only one last block that holds a key. -/
theorem Shows.mem_block {x y : KvEntry} {front back : List Block} {b : Block} (shown : t.Shows x)
    (eq : t.blocks = front ++ b :: back) (inside : y ∈ b.entries)
    (last : ∀ e ∈ back.flatMap Block.entries, e.userKey ≠ y.userKey) (same : x.userKey = y.userKey) :
    x ∈ b.entries := by
  obtain ⟨front', b', back', eq', inside', last'⟩ := shown
  have behind : ∀ {between rest : List Block} {c : Block} {z : KvEntry}, z ∈ c.entries →
      z ∈ (between ++ c :: rest).flatMap Block.entries := fun inBlock =>
    List.mem_flatMap.mpr ⟨_, List.mem_append_right _ List.mem_cons_self, inBlock⟩
  rcases List.append_eq_append_iff.mp (eq.symm.trans eq') with ⟨between, -, rest⟩ | ⟨between, -, rest⟩
  · cases between with
    | nil =>
      obtain ⟨rfl, -⟩ := List.cons.inj rest
      exact inside'
    | cons c between =>
      obtain ⟨-, rfl⟩ := List.cons.inj rest
      exact absurd same (last x (behind inside'))
  · cases between with
    | nil =>
      obtain ⟨rfl, -⟩ := List.cons.inj rest
      exact inside'
    | cons c between =>
      obtain ⟨-, rfl⟩ := List.cons.inj rest
      exact absurd same.symm (last' y (behind inside))

/-- A lookup answers among the versions that are shown, at every number. -/
theorem answers_getKvEntry (wf : t.Wf filter) (k : SequencedKey) :
    Answers {x | t.Shows x} k.userKey k.seq (t.getKvEntry filter k) := by
  have sorted := wf.ascending.imp le_of_lt
  rw [getKvEntry, getSegment]
  split
  · cases found : searchBlocks k.userKey t.blocks with
    | none => exact fun x shown same => absurd same (searchBlocks_eq_none wf.blocks sorted found x shown.mem)
    | some seg =>
      obtain ⟨key, front, b, back, eq, segMem, absent⟩ := searchBlocks_eq_some wf.blocks sorted found
      have hb : b ∈ t.blocks := eq ▸ List.mem_append_right front List.mem_cons_self
      have inBlock : ∀ x ∈ seg.entries, x ∈ b.entries := fun x mem =>
        List.mem_flatMap.mpr ⟨seg, segMem, mem⟩
      have shows : ∀ x ∈ seg.entries, t.Shows x := fun x mem =>
        ⟨front, b, back, eq, inBlock x mem, fun e he same =>
          absent e he (same.trans ((BlockSegment.userKey_of_mem mem).trans key))⟩
      have answers := answers_segment (sorted_segment sorted hb segMem) k.seq
      rw [Option.bind_some, ← key]
      refine answers.extend shows fun x shown same => ⟨x, ?_, same, rfl⟩
      obtain ⟨y, mem, yKey⟩ := (wf.blocks b hb).exists_entry segMem
      obtain ⟨-, -, -, -, inside, last⟩ := shows y mem
      have inside := shown.mem_block eq (inBlock y mem)
        (fun e he eKey => absent e he (eKey.trans (yKey.trans key))) (same.trans yKey.symm)
      exact (wf.blocks b hb).mem_segment segMem inside same
  · rename_i blocked
    intro x shown same
    refine absurd (wf.passes x shown.mem) ?_
    simp only [SequencedKey.serializeUserKey] at blocked ⊢
    rw [show x.key.userKey = k.userKey from same]
    exact blocked

end Sstable

/-- The versions that some file shows. -/
def Version.shown (v : Version File) : Set KvEntry := {x | ∃ f ∈ v, f.table.Shows x}

theorem Version.shown_subset (v : Version File) : v.shown ⊆ v.contents :=
  fun _ ⟨f, hf, shown⟩ => ⟨f, hf, shown.mem⟩

section Search

variable {filter : FilterPolicy} {replace : Bool} {files : List File} {v : Version File} {k : SequencedKey}

theorem answers_searchLevel (wf : ∀ f ∈ files, f.table.Wf filter) :
    Answers (Version.shown files) k.userKey k.seq (searchLevel filter replace files k) := by
  have table : ∀ f ∈ files, Answers {x | f.table.Shows x} k.userKey k.seq (f.table.getKvEntry filter k) :=
    fun f hf => Sstable.answers_getKvEntry (wf f hf) k
  -- each answer of a file is among the candidates of the level
  have candidate : ∀ f ∈ files, ∀ y, f.table.getKvEntry filter k = some y → y.seq ≤ k.seq →
      ∃ w, (y.key, w) ∈ (SkipList.empty.insertRange replace
        (files.filterMap (fileToPotentialRet filter k))).items := by
    intro f hf y got bounded
    have found : (y.key, y.value) ∈ files.filterMap (fileToPotentialRet filter k) :=
      List.mem_filterMap.mpr ⟨f, hf, fileToPotentialRet_of_le got bounded⟩
    exact SkipList.key_mem_insertRange replace (m := SkipList.empty) (Or.inl found)
  have reaches : ∀ f ∈ files, ∀ x, f.table.Shows x → x.userKey = k.userKey → x.seq ≤ k.seq →
      ∃ y, f.table.getKvEntry filter k = some y ∧ y.userKey = k.userKey ∧ y.seq ≤ k.seq ∧ x.seq ≤ y.seq := by
    intro f hf x shown same bounded
    have answers := table f hf
    cases got : f.table.getKvEntry filter k with
    | none =>
      rw [got] at answers
      exact absurd (answers x shown same) (not_lt.mpr bounded)
    | some y =>
      rw [got] at answers
      obtain ⟨⟨-, low⟩, yKey, top⟩ := answers
      exact ⟨y, rfl, yKey, low, top x ⟨shown, bounded⟩ same⟩
  cases searched : searchLevel filter replace files k with
  | none =>
    have noItem := SkipList.findLastLessEqual_eq_none.mp (Option.map_eq_none_iff.mp searched)
    rintro x ⟨f, hf, shown⟩ same
    by_contra bounded
    obtain ⟨y, got, yKey, low, -⟩ := reaches f hf x shown same (not_lt.mp bounded)
    obtain ⟨w, inMap⟩ := candidate f hf y got low
    exact noItem _ inMap (SequencedKey.le_iff.mpr (Or.inr ⟨yKey, low⟩))
  | some e =>
    obtain ⟨p, last, rfl⟩ := Option.map_eq_some_iff.mp searched
    obtain ⟨mem, -, largest⟩ := SkipList.findLastLessEqual_eq_some.mp last
    have inRange := (SkipList.mem_insertRange mem).resolve_right (by simp [SkipList.empty])
    obtain ⟨f, hf, eq⟩ := List.mem_filterMap.mp inRange
    have answers := table f hf
    rw [fileToPotentialRet_eq_some eq] at answers
    obtain ⟨⟨shown, low⟩, key, -⟩ := answers
    refine ⟨⟨⟨f, hf, shown⟩, low⟩, key, ?_⟩
    rintro x ⟨⟨g, hg, shownX⟩, bounded⟩ same
    obtain ⟨y, got, yKey, yLow, newer⟩ := reaches g hg x shownX same bounded
    obtain ⟨w, inMap⟩ := candidate g hg y got yLow
    rcases SequencedKey.le_iff.mp (largest _ inMap (SequencedKey.le_iff.mpr (Or.inr ⟨yKey, yLow⟩))) with
      lt | ⟨-, le⟩
    · exact absurd (yKey.trans key.symm) lt.ne
    · exact newer.trans le

/-- The first level with an answer has the newest of the versions that are shown. -/
theorem answers_findFromSsts (wf : ∀ f ∈ v, f.table.Wf filter) (ordered : LevelOrdered .tables v) :
    Answers v.shown k.userKey k.seq (findFromSsts filter replace v k) := by
  have sorted : v.sort.Pairwise (File.level · ≤ File.level ·) :=
    (Version.sort_ascending v).imp fun {f g} le => by
      rcases Prod.Lex.toLex_le_toLex.mp le with lt | ⟨eq, -⟩
      · exact lt.le
      · exact eq.le
  have flat : (groups File.level v.sort).flatten = v.sort := flatten_groups _
  have inVersion : ∀ group ∈ groups File.level v.sort, ∀ f ∈ group, f ∈ v := by
    intro group hg f hf
    rw [← Version.mem_sort, ← flat]
    exact List.mem_flatten.mpr ⟨group, hg, hf⟩
  have level : ∀ group ∈ groups File.level v.sort,
      Answers (Version.shown group) k.userKey k.seq (searchLevel filter replace group k) :=
    fun group hg => answers_searchLevel fun f hf => wf f (inVersion group hg f hf)
  have missed : ∀ group ∈ groups File.level v.sort, searchLevel filter replace group k = none →
      ∀ g ∈ group, ∀ x, g.table.Shows x → x.userKey = k.userKey → k.seq < x.seq := by
    intro group mem none_found g hg x shown same
    have answers := level group mem
    rw [none_found] at answers
    exact answers x ⟨g, hg, shown⟩ same
  cases found : findFromSsts filter replace v k with
  | none =>
    rintro x ⟨f, hf, shown⟩ same
    have all := List.findSome?_eq_none_iff.mp found
    have hf' : f ∈ (groups File.level v.sort).flatten := by
      rw [flat]
      exact Version.mem_sort.mpr hf
    obtain ⟨group, mem, hfg⟩ := List.mem_flatten.mp hf'
    exact missed group mem (all group mem) f hfg x shown same
  | some e =>
    obtain ⟨before, group, after, eq, hit, none_before⟩ := List.findSome?_eq_some_iff.mp found
    have mem : group ∈ groups File.level v.sort := by simp [eq]
    have answers := level group mem
    rw [hit] at answers
    obtain ⟨⟨⟨f, hf, shown⟩, low⟩, key, newest⟩ := answers
    refine ⟨⟨⟨f, inVersion group mem f hf, shown⟩, low⟩, key, ?_⟩
    rintro x ⟨⟨g, hg, shownX⟩, bounded⟩ same
    have hg' : g ∈ (before ++ group :: after).flatten := by
      rw [← eq, flat]
      exact Version.mem_sort.mpr hg
    rw [List.flatten_append, List.flatten_cons] at hg'
    rcases List.mem_append.mp hg' with early | late
    · obtain ⟨earlier, he, hge⟩ := List.mem_flatten.mp early
      have memE : earlier ∈ groups File.level v.sort := by simp [eq, he]
      have above := missed earlier memE (none_before _ he) g hge x shownX same
      exact absurd above (not_lt.mpr bounded)
    · rcases List.mem_append.mp late with here | deeper
      · exact newest x ⟨⟨g, here, shownX⟩, bounded⟩ same
      · -- a deeper level holds only older versions of the key
        have lt := rank_lt_of_groups_eq sorted eq hf deeper
        exact (ordered f (inVersion group mem f hf) g hg lt e shown.mem x shownX.mem
          (key.trans same.symm)).le

end Search

namespace DiskStore

section Shown

variable {d : TableDeps} {compressor : CompressorPolicy}

/-- The entries of the blocks of a file, as the reader finds them. -/
def blockEntries (d : TableDeps) (f : DiskFile) : Option (List (List KvEntry)) :=
  (RawSstable.make d f.bytes).bind fun sst =>
    sst.blockOffsets.mapM fun p => (sst.getBlock p).bind RawBlock.entries

/-- The entry stands in the last block of the file that holds its key. -/
def Shows (d : TableDeps) (f : DiskFile) (x : KvEntry) : Prop :=
  ∃ front es back, blockEntries d f = some (front ++ es :: back) ∧ x ∈ es ∧
    ∀ e ∈ back.flatten, e.userKey ≠ x.userKey

/-- The versions that some file shows. -/
def shown (d : TableDeps) (v : Version DiskFile) : Set KvEntry := {x | ∃ f ∈ v, Shows d f x}

theorem shows_onDisk (readable : d.Readable compressor) {f : File} (legible : f.table.Legible d)
    (x : KvEntry) : Shows d (f.onDisk d) x ↔ f.table.Shows x := by
  have read : blockEntries d (f.onDisk d) = some (f.table.blocks.map Block.entries) := by
    have opened : RawSstable.make d (f.onDisk d).bytes = some (f.table.opened d compressor) :=
      legible.make_image readable
    rw [blockEntries, opened]
    exact (RawSstable.mapM_entries_iff (Sstable.stands_opened d compressor f.table) legible.written
      readable.inverts).mpr ⟨legible.fits, rfl⟩
  rw [Shows, read]
  constructor
  · rintro ⟨front, es, back, eq, inside, last⟩
    obtain ⟨blocks, rest, split, -, behind⟩ := List.map_eq_append_iff.mp (Option.some.inj eq)
    obtain ⟨b, later, rfl, rfl, rfl⟩ := List.map_eq_cons_iff.mp behind
    exact ⟨blocks, b, later, split, inside, List.flatMap_def ▸ last⟩
  · rintro ⟨front, b, back, eq, inside, last⟩
    refine ⟨front.map Block.entries, b.entries, back.map Block.entries, ?_, inside, List.flatMap_def ▸ last⟩
    rw [eq, List.map_append, List.map_cons]

theorem shown_map (readable : d.Readable compressor) {v : Version File} (legible : v.Legible d) :
    shown d (v.map (File.onDisk d)) = v.shown := by
  ext x
  constructor
  · rintro ⟨_, mem, shows⟩
    obtain ⟨f, hf, rfl⟩ := List.mem_map.mp mem
    exact ⟨f, hf, (shows_onDisk readable (legible f hf) x).mp shows⟩
  · rintro ⟨f, hf, shows⟩
    exact ⟨f.onDisk d, List.mem_map_of_mem hf, (shows_onDisk readable (legible f hf) x).mpr shows⟩

end Shown

variable {d : DiskDeps} {compressor : CompressorPolicy} {v : Version DiskFile} {k : SequencedKey}

theorem shown_subset (readable : d.table.Readable compressor) (legible : Legible d.table v) :
    shown d.table v ⊆ contents d.table v := by
  obtain ⟨u, rfl, legible⟩ := legible
  rw [shown_map readable legible, contents_map readable legible]
  exact u.shown_subset

/-- A search of legible files answers among the versions that they show. -/
theorem answers_findFromSsts (readable : d.table.Readable compressor) (legible : Legible d.table v)
    (ordered : LevelOrdered (.onDisk d.table) v) (size : k.userKey.size < 2 ^ 16) :
    ∃ result, findFromSsts d v k = some result ∧ Answers (shown d.table v) k.userKey k.seq result := by
  obtain ⟨u, rfl, legible⟩ := legible
  have wf : ∀ f ∈ u, f.table.Wf d.filterPolicy := fun f mem => d.filter ▸ (legible f mem).wf
  rw [shown_map readable legible]
  exact ⟨_, findFromSsts_map readable legible size,
    FrenzyKV.answers_findFromSsts wf ((levelOrdered_map readable legible).mp ordered)⟩

end DiskStore

namespace DiskRuns

open Framework SequentialRuns

variable {d : DiskDeps} {compressor : CompressorPolicy} {t : DiskStore}

/-- Key 4 has a version in each of two files. -/
def twoVersions : List Action := [flushKeys 1 [4, 9], flushKeys 3 [4]]

end DiskRuns

end FrenzyKV
