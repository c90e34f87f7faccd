import FrenzyKV.Db.CompactionTrigger
import FrenzyKV.Db.HeldEntries
import FrenzyKV.Table.TableRoom

/-! When a compaction that `may_compact` starts comes to its end (`db/db_local.cc`,
`persistent/compaction_policy_oldest.cc`, `persistent/compaction.cc`). -/

namespace FrenzyKV

open Bytes

/-- There is a mutex for the level and a size limit for the tables of the next level. -/
def Options.Admissible (opt : Options) (l : Nat) : Prop :=
  l < opt.maxLevel ∧ opt.allowedLevelFileSize (l + 1) ≠ 0

/-- What `merge_two_tables` asserts of a list. -/
structure Descends (es : List KvEntry) : Prop where
  nonempty : es ≠ []
  descending : es.Pairwise (·.key ≥ ·.key)

/-- The entries of the table come back as the merge wants them. -/
def RawSstable.Ordered (t : RawSstable) : Prop := ∃ es, t.getEntriesAtOnce true = some es ∧ Descends es

namespace DiskFile

variable (d : TableDeps) (f g : DiskFile)

/-- The file opens, and its table can be merged. -/
def Ordered : Prop := ∃ t, RawSstable.make d f.bytes = some t ∧ t.Ordered

/-- `sstable::overlapped` on two files. -/
def overlapped : Option Bool :=
  (RawSstable.make d f.bytes).bind fun t => (RawSstable.make d g.bytes).bind fun u => t.overlapped u

end DiskFile

theorem Descends.newest {es : List KvEntry} (descends : Descends es) : Newest {e | e ∈ es} es where
  nonempty := descends.nonempty
  descending := descends.descending
  sub _ mem := mem
  cover e mem := ⟨e, mem, rfl, le_rfl⟩

/-- Lists that are merged descend, and so does the result. -/
theorem descends_of_mergeTwoTables {lhs rhs es : List KvEntry} (merged : mergeTwoTables lhs rhs = some es) :
    Descends lhs ∧ Descends rhs ∧ Descends es := by
  have asserted := (Option.ite_none_left_eq_some.mp merged).1
  simp only [Bool.or_eq_true, not_or, Bool.not_eq_true, List.isEmpty_eq_false_iff, Bool.not_eq_false',
    isSorted_iff, List.pairwise_reverse] at asserted
  have left : Descends lhs := ⟨asserted.1.1.1, asserted.1.2⟩
  have right : Descends rhs := ⟨asserted.1.1.2, asserted.2⟩
  obtain ⟨es', eq, newest, -⟩ := mergeTwoTables_newest left.newest right.newest
  obtain rfl := Option.some.inj (merged.symm.trans eq)
  exact ⟨left, right, newest.nonempty, newest.descending⟩

namespace DiskStore

variable {d : DiskDeps} {v : Version DiskFile} {l : Nat} {r : ThreshRatio} {files : List DiskFile}

section Merge

/-- What can be read from some tables. -/
def readable (tables : List RawSstable) : Set KvEntry :=
  {e | ∃ t ∈ tables, ∃ es, t.getEntriesAtOnce true = some es ∧ e ∈ es}

/-- A merge has checked every table. -/
theorem ordered_of_devideAndConquerMerge {fuel : Nat} {tables : List RawSstable} {es : List KvEntry}
    (ran : devideAndConquerMerge fuel tables = some es) (descends : Descends es) :
    ∀ t ∈ tables, t.Ordered := by
  match fuel, tables, ran with
  | _, [], _ => exact List.forall_mem_nil _
  | _, [t], ran =>
    rw [devideAndConquerMerge] at ran
    exact List.forall_mem_singleton.mpr ⟨es, ran, descends⟩
  | _, [t, u], ran =>
    rw [devideAndConquerMerge] at ran
    obtain ⟨lhs, left, ran⟩ := Option.bind_eq_some_iff.mp ran
    obtain ⟨rhs, right, ran⟩ := Option.bind_eq_some_iff.mp ran
    obtain ⟨leftDescends, rightDescends, -⟩ := descends_of_mergeTwoTables ran
    exact List.forall_mem_cons.mpr ⟨⟨lhs, left, leftDescends⟩,
      List.forall_mem_singleton.mpr ⟨rhs, right, rightDescends⟩⟩
  | 0, _ :: _ :: _ :: _, ran => cases ran
  | fuel + 1, t :: u :: w :: rest, ran =>
    let tables := t :: u :: w :: rest
    obtain ⟨lhs, left, ran⟩ := Option.bind_eq_some_iff.mp ran
    obtain ⟨rhs, right, ran⟩ := Option.bind_eq_some_iff.mp ran
    obtain ⟨leftDescends, rightDescends, -⟩ := descends_of_mergeTwoTables ran
    have front := ordered_of_devideAndConquerMerge left leftDescends
    have back := ordered_of_devideAndConquerMerge right rightDescends
    change ∀ x ∈ tables, x.Ordered
    rw [← List.take_append_drop (tables.length / 2) tables]
    exact List.forall_mem_append.mpr ⟨front, back⟩

theorem descends_of_devideAndConquerMerge {fuel : Nat} {tables : List RawSstable} {es : List KvEntry}
    (two : 2 ≤ tables.length) (ran : devideAndConquerMerge fuel tables = some es) : Descends es := by
  match fuel, tables, two, ran with
  | _, [t, u], _, ran =>
    rw [devideAndConquerMerge] at ran
    obtain ⟨lhs, -, ran⟩ := Option.bind_eq_some_iff.mp ran
    obtain ⟨rhs, -, ran⟩ := Option.bind_eq_some_iff.mp ran
    exact (descends_of_mergeTwoTables ran).2.2
  | 0, _ :: _ :: _ :: _, _, ran => cases ran
  | fuel + 1, _ :: _ :: _ :: _, _, ran =>
    obtain ⟨lhs, -, ran⟩ := Option.bind_eq_some_iff.mp ran
    obtain ⟨rhs, -, ran⟩ := Option.bind_eq_some_iff.mp ran
    exact (descends_of_mergeTwoTables ran).2.2

theorem readable_append (front back : List RawSstable) :
    readable (front ++ back) = readable front ∪ readable back := by
  ext e
  simp only [readable, Set.mem_ofPred_eq, Set.mem_union, List.mem_append, or_and_right, exists_or]

theorem newest_of_read {t : RawSstable} {es : List KvEntry} (read : t.getEntriesAtOnce true = some es)
    (descends : Descends es) : Newest (readable [t]) es where
  nonempty := descends.nonempty
  descending := descends.descending
  sub e mem := ⟨t, List.mem_singleton_self t, es, read, mem⟩
  cover e := by
    rintro ⟨u, mem, es', read', inside⟩
    obtain rfl := List.mem_singleton.mp mem
    obtain rfl := Option.some.inj (read.symm.trans read')
    exact ⟨e, inside, rfl, le_rfl⟩

/-- Tables that can be merged are merged to their newest entries. -/
theorem devideAndConquerMerge_newest {fuel : Nat} {tables : List RawSstable} (some_table : tables ≠ [])
    (ordered : ∀ t ∈ tables, t.Ordered) (enough : tables.length ≤ fuel) :
    ∃ es, devideAndConquerMerge fuel tables = some es ∧ Newest (readable tables) es ∧
      (2 ≤ tables.length → es.Pairwise (·.userKey > ·.userKey)) := by
  match fuel, tables, some_table, ordered, enough with
  | 0, _ :: _, _, _, enough => exact absurd enough (Nat.not_succ_le_zero _)
  | fuel + 1, [t], _, ordered, _ =>
    obtain ⟨es, read, descends⟩ := ordered t List.mem_cons_self
    refine ⟨es, by rw [devideAndConquerMerge, read], newest_of_read read descends, ?_⟩
    intro two
    rw [List.length_singleton] at two
    omega
  | fuel + 1, [t, u], _, ordered, _ =>
    obtain ⟨lhs, left, leftDescends⟩ := ordered t List.mem_cons_self
    obtain ⟨rhs, right, rightDescends⟩ := ordered u (List.mem_cons_of_mem t List.mem_cons_self)
    obtain ⟨es, eq, newest, strict⟩ := mergeTwoTables_newest (newest_of_read left leftDescends)
      (newest_of_read right rightDescends)
    rw [← readable_append] at newest
    exact ⟨es, by rw [devideAndConquerMerge, left, right, Option.bind_some, Option.bind_some, eq], newest,
      fun _ => strict⟩
  | fuel + 1, t :: u :: w :: rest, _, ordered, enough =>
    let tables := t :: u :: w :: rest
    let half := tables.length / 2
    change tables.length ≤ fuel + 1 at enough
    have length : tables.length = rest.length + 3 := rfl
    have middle : 1 ≤ half ∧ half < tables.length := by omega
    have front : (tables.take half).length = half := List.length_take_of_le middle.2.le
    have back : (tables.drop half).length = tables.length - half := List.length_drop
    obtain ⟨lhs, left, leftNewest, -⟩ := @devideAndConquerMerge_newest fuel _
      (List.length_pos_iff.mp (by omega : 0 < (tables.take half).length))
      (fun x mem => ordered x (List.mem_of_mem_take mem)) (by omega)
    obtain ⟨rhs, right, rightNewest, -⟩ := @devideAndConquerMerge_newest fuel _
      (List.length_pos_iff.mp (by omega : 0 < (tables.drop half).length))
      (fun x mem => ordered x (List.mem_of_mem_drop mem)) (by omega)
    obtain ⟨es, eq, newest, strict⟩ := mergeTwoTables_newest leftNewest rightNewest
    rw [← readable_append, List.take_append_drop] at newest
    refine ⟨es, ?_, newest, fun _ => strict⟩
    change (devideAndConquerMerge fuel (tables.take half)).bind _ = _
    rw [left, Option.bind_some, right, Option.bind_some, eq]

theorem encodable_of_getEntriesAtOnce {t : RawSstable} {es : List KvEntry}
    (read : t.getEntriesAtOnce true = some es) : ∀ e ∈ es, e.Encodable := by
  obtain ⟨blocks, -, read⟩ := Option.bind_eq_some_iff.mp read
  obtain ⟨ess, all, rfl⟩ := Option.map_eq_some_iff.mp read
  intro e mem
  obtain ⟨es, inside, mem⟩ := List.mem_flatten.mp (List.mem_reverse.mp mem)
  obtain ⟨blk, -, entries⟩ := PartialMap.mem_of_mapM all inside
  exact ⟨(RawBlock.bounds_of_entries entries e mem).1, RawBlock.numbers_of_entries entries e mem⟩

/-- Where the tables of some files can be merged, they are those of the files. -/
theorem forall_ordered_iff {tables : List RawSstable}
    (opened : List.Forall₂ (fun f t => RawSstable.make d.table f.bytes = some t) files tables) :
    (∀ t ∈ tables, t.Ordered) ↔ ∀ f ∈ files, f.Ordered d.table := by
  induction opened with
  | nil => exact iff_of_true (List.forall_mem_nil _) (List.forall_mem_nil _)
  | @cons f t files tables first _ ih =>
    have here : t.Ordered ↔ f.Ordered d.table := by
      rw [DiskFile.Ordered, first]
      exact ⟨fun ordered => ⟨t, rfl, ordered⟩, fun ⟨u, eq, ordered⟩ => Option.some.inj eq ▸ ordered⟩
    rw [List.forall_mem_cons, List.forall_mem_cons, ih, here]

/-- What a compaction merges: entries that can be written again, in descending order. -/
structure Mergeable (es : List KvEntry) : Prop where
  nonempty : es ≠ []
  descending : es.Pairwise (·.key > ·.key)
  encodable : ∀ e ∈ es, e.Encodable

theorem mergeable_of_newest {tables : List RawSstable} {es : List KvEntry}
    (newest : Newest (readable tables) es) (strict : es.Pairwise (·.userKey > ·.userKey)) : Mergeable es where
  nonempty := newest.nonempty
  descending := key_gt_of_userKey_gt strict
  encodable e mem := by
    obtain ⟨t, -, es', read, inside⟩ := newest.sub e mem
    exact encodable_of_getEntriesAtOnce read e inside

/-- The inputs of a compaction are merged if and only if there are two, and each of them opens and
comes back in order. -/
theorem mergedEntries_iff : (∃ merged, mergedEntries d files = some merged) ↔
    2 ≤ files.length ∧ ∀ f ∈ files, f.Ordered d.table := by
  constructor
  · rintro ⟨merged, ran⟩
    obtain ⟨tables, opened, merges⟩ := Option.bind_eq_some_iff.mp ran
    have opened := PartialMap.mapM_eq_some_iff.mp opened
    obtain ⟨two, merges⟩ := Option.ite_none_left_eq_some.mp merges
    have two : 2 ≤ tables.length := by omega
    exact ⟨opened.length_eq ▸ two, (forall_ordered_iff opened).mp
      (ordered_of_devideAndConquerMerge merges (descends_of_devideAndConquerMerge two merges))⟩
  · rintro ⟨two, ordered⟩
    obtain ⟨tables, opens⟩ := PartialMap.exists_mapM fun f mem => (ordered f mem).imp fun _ both => both.1
    have opened := PartialMap.mapM_eq_some_iff.mp opens
    rw [opened.length_eq] at two
    obtain ⟨es, eq, -⟩ := devideAndConquerMerge_newest (List.length_pos_iff.mp (by omega))
      ((forall_ordered_iff opened).mpr ordered) le_rfl
    exact ⟨es, by rw [mergedEntries, opens, Option.bind_some, mergeTables, if_neg (by omega), eq]⟩

theorem mergeable_of_mergedEntries {merged : List KvEntry} (ran : mergedEntries d files = some merged) :
    Mergeable merged := by
  obtain ⟨tables, -, merges⟩ := Option.bind_eq_some_iff.mp ran
  obtain ⟨two, merges⟩ := Option.ite_none_left_eq_some.mp merges
  have two : 2 ≤ tables.length := by omega
  have ordered := ordered_of_devideAndConquerMerge merges (descends_of_devideAndConquerMerge two merges)
  obtain ⟨es, eq, newest, strict⟩ := devideAndConquerMerge_newest (List.length_pos_iff.mp (by omega)) ordered le_rfl
  obtain rfl := Option.some.inj (merges.symm.trans eq)
  exact mergeable_of_newest newest (strict two)

end Merge

section Outputs

/-- The merged entries are written, and the tables opened, if and only if the entries have room in
table files and an interval of blocks has at least five segments. -/
theorem mergedListToSst_iff {merged : List KvEntry} {newLevel : Nat} {compressor : CompressorPolicy}
    (named : getCompressor d.table.zstd d.table.opt d.table.opt.compressorName = some compressor)
    (mergeable : Mergeable merged) : (mergedListToSst d merged newLevel).isSome = true ↔
      5 ≤ d.opt.maxBlockSegmentsNumber ∧
        d.table.Room (d.opt.allowedLevelFileSize newLevel) merged.reverse := by
  have ascending : merged.reverse.Pairwise (·.key < ·.key) := List.pairwise_reverse.mpr mergeable.descending
  have sorted : isSorted merged.reverse = true := isSorted_iff.mpr (ascending.imp fun lt => lt.le)
  have checked : ¬ (merged.isEmpty || !isSorted merged.reverse) = true := by
    simp [sorted, mergeable.nonempty]
  have some_entry := List.reverse_ne_nil_iff.mpr mergeable.nonempty
  have encodable : ∀ e ∈ merged.reverse, e.Encodable :=
    fun e mem => mergeable.encodable e (List.mem_reverse.mp mem)
  have written := @RawSstableBuilder.buildFilesFrom_isSome_iff d.table (d.table.opt.allowedLevelFileSize newLevel)
    merged.reverse (d.filter ▸ FilterPolicy.leaves_makeBloomFilter d.hash 64) some_entry
    (ascending.imp fun lt => lt.le) encodable
  rw [mergedListToSst, if_neg checked, ← d.options]
  cases built : RawSstableBuilder.buildFilesFrom d.table (d.table.opt.allowedLevelFileSize newLevel)
      merged.reverse with
  | none =>
    rw [built] at written
    exact iff_of_false Bool.false_ne_true fun both =>
      Bool.false_ne_true (written.mpr ⟨Nat.le_of_lt (by omega), both.2⟩)
  | some files =>
    obtain ⟨ts, -, rfl, stored⟩ := buildFilesFrom_stored some_entry ascending encodable built
    have some_table := RawSstableBuilder.ne_nil_of_buildFilesFrom built
    rw [built] at written
    rw [Option.bind_some, and_iff_left (written.mp rfl).2]
    by_cases wide : 5 ≤ d.table.opt.maxBlockSegmentsNumber
    · refine iff_of_true ?_ wide
      obtain ⟨tables, opened⟩ : ∃ tables, (ts.map (·.image d.table)).mapM (RawSstable.make d.table) =
          some tables := by
        refine PartialMap.exists_mapM (List.forall_mem_map.mpr fun t mem => ?_)
        exact ⟨_, (stored t mem).toFiled.make_image wide named⟩
      rw [opened]
      rfl
    · refine iff_of_false (fun opened => ?_) wide
      cases ts with
      | nil => exact some_table rfl
      | cons t ts =>
        rw [List.map_cons, List.mapM_cons, (stored t List.mem_cons_self).make_narrow
          (by omega)] at opened
        cases opened

end Outputs

section Policy

/-- The file that the policy compares with the next level. -/
def oldest (v : Version DiskFile) (l : Nat) : Option DiskFile := (sortByLastWriteTime (withLevel v l)).head?

/-- The oldest file of the level opens, and its overlap with each file of the next level can be told. -/
def RangesRead (d : DiskDeps) (v : Version DiskFile) (l : Nat) : Prop :=
  ∀ first ∈ oldest v l, (∃ t, RawSstable.make d.table first.bytes = some t) ∧
    ∀ g ∈ withLevel v (l + 1), ∃ hit, first.overlapped d.table g = some hit

/-- The next-level files that overlap the oldest file of the level. -/
def overlappingNext (d : DiskDeps) (v : Version DiskFile) (l : Nat) : List DiskFile :=
  (withLevel v (l + 1)).filter fun g => (oldest v l).any fun first => first.overlapped d.table g = some true

/-- All files of the level but one, and from level 2 on the next-level files that the oldest one
overlaps. -/
def policyInputs (d : DiskDeps) (v : Version DiskFile) (l : Nat) : Nat :=
  (withLevel v l).length - 1 + if 1 < l then (overlappingNext d v l).length else 0

theorem overlappedFiles_iff {first : DiskFile} {t : RawSstable} {pulled : List DiskFile}
    (opened : RawSstable.make d.table first.bytes = some t) : overlappedFiles d t files = some pulled ↔
      (∀ g ∈ files, ∃ hit, first.overlapped d.table g = some hit) ∧
        pulled = files.filter fun g => first.overlapped d.table g = some true := by
  have same : ∀ g, first.overlapped d.table g =
      (RawSstable.make d.table g.bytes).bind fun u => t.overlapped u := by
    intro g
    rw [DiskFile.overlapped, opened, Option.bind_some]
  induction files generalizing pulled with
  | nil =>
    rw [overlappedFiles, Option.some_inj, eq_comm]
    exact (and_iff_right (List.forall_mem_nil _)).symm
  | cons g files ih =>
    rw [List.forall_mem_cons, List.filter_cons, and_assoc]
    cases told : first.overlapped d.table g with
    | none =>
      refine iff_of_false (fun ran => ?_) fun both => ?_
      · obtain ⟨u, made, ran⟩ := Option.bind_eq_some_iff.mp ran
        obtain ⟨hit, overlaps, -⟩ := Option.bind_eq_some_iff.mp ran
        rw [same, made, Option.bind_some, overlaps] at told
        cases told
      · obtain ⟨hit, eq⟩ := both.1
        cases eq
    | some hit =>
      rw [same] at told
      obtain ⟨u, made, overlaps⟩ := Option.bind_eq_some_iff.mp told
      rw [overlappedFiles, made, Option.bind_some, overlaps, Option.bind_some, Option.map_eq_some_iff,
        and_iff_right (⟨hit, rfl⟩ : ∃ told, some hit = some told)]
      constructor
      · rintro ⟨later, ran, rfl⟩
        obtain ⟨rest, rfl⟩ := ih.mp ran
        refine ⟨rest, ?_⟩
        cases hit with
        | true => rfl
        | false => rfl
      · rintro ⟨rest, rfl⟩
        refine ⟨_, ih.mpr ⟨rest, rfl⟩, ?_⟩
        cases hit with
        | true => rfl
        | false => rfl

theorem pulledFiles_iff {first : DiskFile} (head : oldest v l = some first) :
    (∃ pulled, pulledFiles d v l first = some pulled) ↔ RangesRead d v l := by
  have all : ∀ {P : DiskFile → Prop}, (∀ g ∈ d.sortDisk (sortByLastWriteTime (withLevel v (l + 1))), P g) ↔
      ∀ g ∈ withLevel v (l + 1), P g := by
    intro P
    simp only [(d.sortDisk_perm _).mem_iff, mem_sortByLastWriteTime]
  have ranges : RangesRead d v l ↔ (∃ t, RawSstable.make d.table first.bytes = some t) ∧
      ∀ g ∈ withLevel v (l + 1), ∃ hit, first.overlapped d.table g = some hit := by
    simp only [RangesRead, head, Option.mem_def, Option.some.injEq, forall_eq']
  rw [ranges]
  constructor
  · rintro ⟨pulled, ran⟩
    obtain ⟨t, opened, ran⟩ := Option.bind_eq_some_iff.mp ran
    exact ⟨⟨t, opened⟩, all.mp ((overlappedFiles_iff opened).mp ran).1⟩
  · rintro ⟨⟨t, opened⟩, told⟩
    exact ⟨_, by rw [pulledFiles, opened, Option.bind_some, (overlappedFiles_iff opened).mpr ⟨all.mpr told, rfl⟩]⟩

theorem length_pulledFiles {first : DiskFile} (head : oldest v l = some first) {pulled : List DiskFile}
    (ran : pulledFiles d v l first = some pulled) : pulled.length = (overlappingNext d v l).length := by
  obtain ⟨t, opened, ran⟩ := Option.bind_eq_some_iff.mp ran
  have perm : (d.sortDisk (sortByLastWriteTime (withLevel v (l + 1)))).Perm (withLevel v (l + 1)) :=
    (d.sortDisk_perm _).trans (List.perm_insertionSort _ _)
  rw [((overlappedFiles_iff opened).mp ran).2, overlappingNext, head]
  exact (perm.filter _).length_eq

theorem compactingFiles_of_two (two : 2 ≤ (withLevel v l).length) :
    ∃ first later, oldest v l = some first ∧ (first :: later).length = (withLevel v l).length - 1 ∧
      compactingFiles d v l =
        if d.opt.allowedLevelFileNumber l < 2 then none
        else if 1 < l then (pulledFiles d v l first).map fun pulled => first :: later ++ pulled
        else some (first :: later) := by
  have count : (sortByLastWriteTime (withLevel v l)).length = (withLevel v l).length :=
    List.length_insertionSort _ _
  rw [oldest, compactingFiles]
  cases sorted : sortByLastWriteTime (withLevel v l) with
  | nil =>
    rw [sorted, List.length_nil] at count
    omega
  | cons first later =>
    cases later with
    | nil =>
      rw [sorted, List.length_singleton] at count
      omega
    | cons second rest =>
      refine ⟨first, (second :: rest).dropLast, rfl, ?_, rfl⟩
      rw [← count, sorted]
      simp

/-- With two files at the level the policy chooses if and only if it may, and can tell what overlaps. -/
theorem compactingFiles_iff (two : 2 ≤ (withLevel v l).length) :
    (∃ files, compactingFiles d v l = some files) ↔
      2 ≤ d.opt.allowedLevelFileNumber l ∧ (1 < l → RangesRead d v l) := by
  obtain ⟨first, later, head, -, eq⟩ := compactingFiles_of_two (d := d) two
  rw [eq, ← pulledFiles_iff head]
  by_cases few : d.opt.allowedLevelFileNumber l < 2
  · rw [if_pos few]
    refine iff_of_false (fun ran => ?_) fun both => absurd few (not_lt.mpr both.1)
    obtain ⟨files, ran⟩ := ran
    cases ran
  · rw [if_neg few, and_iff_right (not_lt.mp few)]
    by_cases deep : 1 < l
    · rw [if_pos deep]
      simp [deep]
    · rw [if_neg deep]
      exact iff_of_true ⟨_, rfl⟩ fun below => absurd below deep

theorem length_compactingFiles (two : 2 ≤ (withLevel v l).length) (ran : compactingFiles d v l = some files) :
    files.length = policyInputs d v l := by
  obtain ⟨first, later, head, length, eq⟩ := compactingFiles_of_two (d := d) two
  rw [policyInputs, ← length]
  rw [eq] at ran
  obtain ⟨-, ran⟩ := Option.ite_none_left_eq_some.mp ran
  by_cases deep : 1 < l
  · rw [if_pos deep] at ran ⊢
    obtain ⟨pulled, took, rfl⟩ := Option.map_eq_some_iff.mp ran
    rw [List.length_append, length_pulledFiles head took]
  · rw [if_neg deep] at ran ⊢
    exact congrArg List.length (Option.some.inj ran).symm

end Policy

theorem needCompaction_iff : needCompaction d v l r = true ↔
    0 < d.opt.fileNumberLimit l r ∧ d.opt.fileNumberLimit l r < (withLevel v l).length := by
  rw [needCompaction, Options.isAppropriateLevelFileNumber, Bool.not_eq_true', Bool.or_eq_false_iff,
    decide_eq_false_iff_not, not_le, beq_eq_false_iff_ne, Nat.pos_iff_ne_zero, and_comm]
  rfl

theorem levelToCompact_eq_some {from_ : Nat} (chosen : levelToCompact d v from_ r = some l) :
    from_ ≤ l ∧ l ≤ d.opt.maxLevel ∧ needCompaction d v l r = true := by
  have mem := List.mem_range'_1.mp (List.mem_of_find?_eq_some chosen)
  have need := List.find?_some chosen
  exact ⟨mem.1, by omega, need⟩

/-- What a compaction of a level needs to come to its end: a mutex and a size limit for the next
level, two inputs that open and come back in order, and room for what they are merged to. -/
structure Compactable (d : DiskDeps) (v : Version DiskFile) (l : Nat) (r : ThreshRatio) : Prop where
  admissible : d.opt.Admissible l
  policy : 2 ≤ d.opt.allowedLevelFileNumber l
  ranges : 1 < l → RangesRead d v l
  two : 2 ≤ policyInputs d v l - r.dropped (policyInputs d v l)
  ordered : ∀ inputs ∈ compactionInputs d v l r, ∀ f ∈ inputs, f.Ordered d.table
  segments : 5 ≤ d.opt.maxBlockSegmentsNumber
  room : ∀ inputs ∈ compactionInputs d v l r, ∀ merged ∈ mergedEntries d inputs,
    d.table.Room (d.opt.allowedLevelFileSize (l + 1)) merged.reverse

/-- Whenever `may_compact` chooses a level, its compaction is admissible and reaches no assertion if
and only if these conditions hold. -/
theorem compaction_admissible_iff {from_ : Nat}
    (chosen : levelToCompact d v from_ r = some l) :
    d.opt.Admissible l ∧ (compact d v l r).isSome = true ↔ Compactable d v l r := by
  have need := needCompaction_iff.mp (levelToCompact_eq_some chosen).2.2
  have count : 2 ≤ (withLevel v l).length := by omega
  have cut : ∀ {inputs}, compactionInputs d v l r = some inputs →
      inputs.length = policyInputs d v l - r.dropped (policyInputs d v l) := by
    intro inputs took
    obtain ⟨files, ran, rfl⟩ := Option.map_eq_some_iff.mp took
    rw [List.length_take, length_compactingFiles count ran]
    omega
  have opens : ∀ {inputs : List DiskFile}, 2 ≤ inputs.length → (∀ f ∈ inputs, f.Ordered d.table) →
      ∃ compressor, getCompressor d.table.zstd d.table.opt d.table.opt.compressorName = some compressor := by
    intro inputs two ordered
    obtain ⟨t, made, -⟩ := ordered _ (List.getElem_mem (by omega : 0 < inputs.length))
    obtain ⟨-, -, -, -, -, -, named⟩ := RawSstable.shape_of_make made
    exact ⟨_, named⟩
  constructor
  · rintro ⟨admissible, done⟩
    obtain ⟨out, ran⟩ := Option.isSome_iff_exists.mp done
    rw [compact, if_neg (not_le.mpr admissible.1)] at ran
    obtain ⟨inputs, took, ran⟩ := Option.bind_eq_some_iff.mp ran
    obtain ⟨merged, merges, ran⟩ := Option.bind_eq_some_iff.mp ran
    obtain ⟨tables, made, -⟩ := Option.map_eq_some_iff.mp ran
    obtain ⟨files, chose, -⟩ := Option.map_eq_some_iff.mp took
    obtain ⟨policy, ranges⟩ := (compactingFiles_iff count).mp ⟨files, chose⟩
    obtain ⟨two, ordered⟩ := mergedEntries_iff.mp ⟨merged, merges⟩
    obtain ⟨compressor, named⟩ := opens two ordered
    obtain ⟨wide, room⟩ := (mergedListToSst_iff named (mergeable_of_mergedEntries merges)).mp
      (Option.isSome_of_eq_some made)
    refine ⟨admissible, policy, ranges, cut took ▸ two, ?_, wide, ?_⟩
    · intro inputs' took'
      obtain rfl := Option.some.inj (took.symm.trans took')
      exact ordered
    · intro inputs' took' merged' merges'
      obtain rfl := Option.some.inj (took.symm.trans took')
      obtain rfl := Option.some.inj (merges.symm.trans merges')
      exact room
  · intro compactable
    obtain ⟨files, chose⟩ := (compactingFiles_iff count).mpr ⟨compactable.policy, compactable.ranges⟩
    obtain ⟨inputs, took⟩ : ∃ inputs, compactionInputs d v l r = some inputs := by
      rw [compactionInputs, chose]
      exact ⟨_, rfl⟩
    have two : 2 ≤ inputs.length := cut took ▸ compactable.two
    have ordered := compactable.ordered inputs took
    obtain ⟨merged, merges⟩ := mergedEntries_iff.mpr ⟨two, ordered⟩
    obtain ⟨compressor, named⟩ := opens two ordered
    have made := (mergedListToSst_iff named
      (mergeable_of_mergedEntries merges)).mpr
      ⟨compactable.segments, compactable.room inputs took merged merges⟩
    refine ⟨compactable.admissible, ?_⟩
    rw [compact, if_neg (not_le.mpr compactable.admissible.1), took, Option.bind_some, merges,
      Option.bind_some, Option.isSome_map]
    exact made

/-- Three tables that were flushed where two are allowed. -/
theorem compaction_admissible_three : ∃ s t u : DiskStore,
    flushToDisk .small Store.empty (Memtable.ofEntries .twoFileLevels [KvEntry.brief 4 1 0]) = some s ∧
    flushToDisk .small s (Memtable.ofEntries .twoFileLevels [KvEntry.brief 4 2 1]) = some t ∧
    flushToDisk .small t (Memtable.ofEntries .twoFileLevels [KvEntry.brief 9 3 0]) = some u ∧
    Compactable .small u.current 0 1 := by
  obtain ⟨s, flushed, later⟩ : ∃ s ∈ flushToDisk .small Store.empty
      (Memtable.ofEntries .twoFileLevels [KvEntry.brief 4 1 0]),
      ((flushToDisk .small s (Memtable.ofEntries .twoFileLevels [KvEntry.brief 4 2 1])).any fun t =>
        (flushToDisk .small t (Memtable.ofEntries .twoFileLevels [KvEntry.brief 9 3 0])).any fun u =>
          levelToCompact .small u.current 0 1 = some 0 && (compact .small u.current 0 1).isSome) = true := by
    decide +kernel
  obtain ⟨t, flushed', later⟩ := (Option.any_eq_true _ _).mp later
  obtain ⟨u, flushed'', ends⟩ := (Option.any_eq_true _ _).mp later
  obtain ⟨chosen, ends⟩ := (Bool.and_eq_true _ _).mp ends
  exact ⟨s, t, u, flushed, flushed', flushed'', (compaction_admissible_iff
    (of_decide_eq_true chosen)).mp ⟨⟨by decide, by decide⟩, ends⟩⟩

/-- Files of one level that all hold the same table. -/
def filesOfLevel (l n : Nat) (file : ByteString) : Version DiskFile :=
  (List.range n).map fun i => ⟨l, i, i, file⟩

/-- Seventeen files at level 4 with the default options: level 5 has no size limit. -/
theorem default_not_admissible :
    let d := DiskDeps.plain Options.default
    ∃ file, RawSstableBuilder.buildFilesFrom d.table (d.opt.allowedLevelFileSize 4) [.brief 1 7 1] = some [file] ∧
      levelToCompact d (filesOfLevel 4 17 file) 0 1 = some 4 ∧
        ¬ (d.opt.Admissible 4 ∧ (compact d (filesOfLevel 4 17 file) 4 1).isSome = true) := by
  intro d
  obtain ⟨files, built, run⟩ : ∃ files ∈ RawSstableBuilder.buildFilesFrom d.table
      (d.opt.allowedLevelFileSize 4) [.brief 1 7 1], (files.length = 1 ∧
        levelToCompact d (filesOfLevel 4 17 (files.headD [])) 0 1 = some 4) := by
    decide +kernel
  obtain ⟨file, rfl⟩ := List.length_eq_one_iff.mp run.1
  exact ⟨file, built, run.2, fun both => both.1.2 rfl⟩

end DiskStore

end FrenzyKV
