import FrenzyKV.Math.SortedDifference
import FrenzyKV.Math.SortedGroups
import FrenzyKV.Math.SkipList
import FrenzyKV.Table.SstableBuilder
import Mathlib.Data.List.MinMax

/-! Files, versions and deltas (`util/file_rep.h`, `db/version.cc`), and the two questions
the database asks a version (`db/db_local.cc`). -/

namespace FrenzyKV

open Bytes SortedDifference SortedGroups

/-- A table file with the data of its `file_rep`. -/
structure File where
  level : Nat
  fileId : Nat
  lastWriteTime : Nat
  table : Sstable
deriving DecidableEq, Repr, Inhabited

namespace File

/-- `file_rep::operator<` compares level and id. -/
def rank (f : File) : ℕ ×ₗ ℕ := toLex (f.level, f.fileId)

def contents (f : File) : Set KvEntry := f.table.contents

end File

/-- What the order of the files of a version is about: their levels, and the entries in them. -/
structure FileView (φ : Type) where
  level : φ → Nat
  entries : φ → List KvEntry

abbrev FileView.tables : FileView File := ⟨File.level, fun f => f.table.entries⟩

/-- The files of a version: tables with the data of their files, or the files themselves. -/
abbrev Version (φ : Type) := List φ

namespace Version

/-- All entries that some file of the version holds. -/
def contents (v : Version File) : Set KvEntry := {e | ∃ f ∈ v, e ∈ f.table.entries}

theorem contents_mono {v w : Version File} (sub : ∀ f ∈ v, f ∈ w) : contents v ⊆ contents w :=
  fun _ ⟨f, hf, he⟩ => ⟨f, sub f hf, he⟩

theorem file_contents_subset {v : Version File} {f : File} (mem : f ∈ v) : f.contents ⊆ contents v :=
  fun _ he => ⟨f, mem, he⟩

def sort (v : Version File) : Version File := v.insertionSort (File.rank · ≤ File.rank ·)

@[simp] theorem mem_sort {v : Version File} {f : File} : f ∈ v.sort ↔ f ∈ v :=
  List.mem_insertionSort _

theorem sort_ascending (v : Version File) : v.sort.Pairwise (File.rank · ≤ File.rank ·) := by
  have total : Std.Total fun f g : File => f.rank ≤ g.rank := ⟨fun f g => le_total f.rank g.rank⟩
  have trans : IsTrans File fun f g => f.rank ≤ g.rank := ⟨fun _ _ _ => le_trans⟩
  exact List.pairwise_insertionSort _ v

end Version

structure VersionDelta where
  compacted : List File
  added : List File

/-- `version_rep::operator+=`. -/
def Version.apply (v : Version File) (delta : VersionDelta) : Version File :=
  if delta.compacted.isEmpty && delta.added.isEmpty then v
  else delta.added ++ setDifference File.rank v.sort (Version.sort delta.compacted)

namespace Version

variable {v : Version File} {delta : VersionDelta} {f : File}

/-- Files with equal ranks are one file. -/
def Identified (v : Version File) : Prop := ∀ f ∈ v, ∀ g ∈ v, f.rank = g.rank → f = g

theorem mem_of_mem_apply (mem : f ∈ v.apply delta) : f ∈ delta.added ∨ f ∈ v := by
  rw [apply] at mem
  split at mem
  · exact Or.inr mem
  · rcases List.mem_append.mp mem with added | kept
    · exact Or.inl added
    · exact Or.inr (mem_sort.mp ((setDifference_sublist _ _ _).subset kept))

theorem added_mem_apply (mem : f ∈ delta.added) : f ∈ v.apply delta := by
  rw [apply]
  split
  · rename_i empty
    simp only [Bool.and_eq_true, List.isEmpty_iff] at empty
    simp [empty.2] at mem
  · exact List.mem_append_left _ mem

/-- A file that is not compacted stays. -/
theorem kept_mem_apply (mem : f ∈ v) (free : ∀ g ∈ delta.compacted, f.rank ≠ g.rank) :
    f ∈ v.apply delta := by
  rw [apply]
  split
  · exact mem
  · exact List.mem_append_right _ (mem_setDifference_of_not_ranked _ (mem_sort.mpr mem)
      fun g hg => free g (mem_sort.mp hg))

/-- What survives from the old version was not compacted. -/
theorem not_compacted_of_mem_apply (distinct : v.Pairwise (File.rank · ≠ File.rank ·))
    (mem : f ∈ v.apply delta) :
    f ∈ delta.added ∨ f ∈ v ∧ ∀ g ∈ delta.compacted, f.rank ≠ g.rank := by
  rw [apply] at mem
  split at mem
  · rename_i empty
    simp only [Bool.and_eq_true, List.isEmpty_iff] at empty
    exact Or.inr ⟨mem, by simp [empty.1]⟩
  · rcases List.mem_append.mp mem with added | kept
    · exact Or.inl added
    · have perm : v.sort.Perm v := List.perm_insertionSort _ v
      have distinct' : v.sort.Pairwise (File.rank · ≠ File.rank ·) :=
        perm.symm.pairwise distinct fun ne => ne.symm
      have ascending : v.sort.Pairwise (File.rank · < File.rank ·) :=
        (sort_ascending v).imp₂ (fun _ _ le ne => lt_of_le_of_ne le ne) distinct'
      refine Or.inr ⟨mem_sort.mp ((setDifference_sublist _ _ _).subset kept), fun g hg => ?_⟩
      exact not_ranked_of_mem_setDifference _ ascending (sort_ascending _) kept g (mem_sort.mpr hg)

end Version

/-- `db_local::file_to_async_potiential_ret` on a table that is open already; the check of an invalid
snapshot is void, since the lookup itself stops at the number of the key. -/
def fileToPotentialRet (filter : FilterPolicy) (k : SequencedKey) (f : File) :
    Option (SequencedKey × KvUserValue) :=
  (f.table.getKvEntry filter k).bind fun e =>
    if k.seq < e.seq then none else some (e.key, e.value)

/-- The lookup in all files of one level. The results share the user key of the query, so
the last of them that is not above it is the newest. -/
def searchLevel (filter : FilterPolicy) (replace : Bool) (files : List File) (k : SequencedKey) :
    Option KvEntry :=
  let potentialResults := files.filterMap (fileToPotentialRet filter k)
  ((SkipList.empty.insertRange replace potentialResults).findLastLessEqual k).map
    fun found => ⟨found.1, found.2⟩

/-- `db_local::find_from_ssts` on open tables: the first level that has the key answers. -/
def findFromSsts (filter : FilterPolicy) (replace : Bool) (v : Version File) (k : SequencedKey) :
    Option KvEntry :=
  (groups File.level v.sort).findSome? fun files => searchLevel filter replace files k

/-- The newest entry of a user key over all files of all levels. -/
def newestOfAllFiles {φ : Type} (view : FileView φ) (v : Version φ) (uk : UserKey) : Option KvEntry :=
  ((v.flatMap view.entries).filter (·.userKey = uk)).argmax KvEntry.seq

theorem newestOfAllFiles_eq_some {v : Version File} {uk : UserKey} {e : KvEntry}
    (found : newestOfAllFiles .tables v uk = some e) : IsNewest v.contents uk e := by
  have spec := List.mem_argmax_iff.mp (Option.mem_def.mpr found)
  obtain ⟨mem, top, -⟩ := spec
  simp only [List.mem_filter, List.mem_flatMap, decide_eq_true_eq] at mem top
  exact ⟨mem.1, mem.2, fun x hx key => top x ⟨hx, key⟩⟩

theorem newestOfAllFiles_eq_none {v : Version File} {uk : UserKey}
    (missed : newestOfAllFiles .tables v uk = none) : ∀ x ∈ v.contents, x.userKey ≠ uk := by
  have empty := List.argmax_eq_none.mp missed
  rw [List.filter_eq_nil_iff] at empty
  rintro x ⟨f, hf, hx⟩ key
  exact empty x (List.mem_flatMap.mpr ⟨f, hf, hx⟩) (by simpa using key)

section Search

variable {filter : FilterPolicy} {replace : Bool} {files : List File} {k : SequencedKey}
  {e : KvEntry}

theorem fileToPotentialRet_eq_some {f : File} {p : SequencedKey × KvUserValue}
    (eq : fileToPotentialRet filter k f = some p) : f.table.getKvEntry filter k = some ⟨p.1, p.2⟩ := by
  obtain ⟨e, found, eq⟩ := Option.bind_eq_some_iff.mp eq
  split at eq
  · simp at eq
  · obtain rfl := Option.some.inj eq
    exact found

theorem fileToPotentialRet_of_le {f : File} {y : KvEntry} (got : f.table.getKvEntry filter k = some y)
    (bounded : y.seq ≤ k.seq) : fileToPotentialRet filter k f = some (y.key, y.value) := by
  simp [fileToPotentialRet, got, not_lt.mpr bounded]

theorem isNewest_of_searchLevel (wf : ∀ f ∈ files, f.table.Wf filter)
    (top : ∀ x ∈ Version.contents files, x.userKey = k.userKey → x.seq ≤ k.seq)
    (found : searchLevel filter replace files k = some e) :
    IsNewest (Version.contents files) k.userKey e := by
  obtain ⟨p, last, rfl⟩ := Option.map_eq_some_iff.mp found
  obtain ⟨mem, -, largest⟩ := SkipList.findLastLessEqual_eq_some.mp last
  have inRange := (SkipList.mem_insertRange mem).resolve_right (by simp [SkipList.empty])
  obtain ⟨f, hf, eq⟩ := List.mem_filterMap.mp inRange
  have got := fileToPotentialRet_eq_some eq
  have topIn : ∀ g ∈ files, ∀ x ∈ g.table.entries, x.userKey = k.userKey → x.seq ≤ k.seq :=
    fun g hg x hx => top x ⟨g, hg, hx⟩
  obtain ⟨inFile, key, -⟩ := Sstable.isNewest_of_getKvEntry (wf f hf) (topIn f hf) got
  refine ⟨⟨f, hf, inFile⟩, key, ?_⟩
  rintro x ⟨g, hg, hx⟩ xKey
  cases gotG : g.table.getKvEntry filter k with
  | none => exact absurd xKey (Sstable.absent_of_getKvEntry (wf g hg) (topIn g hg) gotG x hx)
  | some y =>
    obtain ⟨yMem, yKey, yTop⟩ := Sstable.isNewest_of_getKvEntry (wf g hg) (topIn g hg) gotG
    have bounded := topIn g hg y yMem yKey
    have yIn : (y.key, y.value) ∈ files.filterMap (fileToPotentialRet filter k) :=
      List.mem_filterMap.mpr ⟨g, hg, fileToPotentialRet_of_le gotG bounded⟩
    obtain ⟨w, inMap⟩ := SkipList.key_mem_insertRange replace
      (m := SkipList.empty) (Or.inl yIn)
    have yLe : y.key ≤ k := SequencedKey.le_iff.mpr (Or.inr ⟨yKey, bounded⟩)
    rcases SequencedKey.le_iff.mp (largest _ inMap yLe) with lt | ⟨-, le⟩
    · exact absurd (yKey.trans key.symm) lt.ne
    · exact (yTop x hx xKey).trans le

theorem absent_of_searchLevel (wf : ∀ f ∈ files, f.table.Wf filter)
    (top : ∀ x ∈ Version.contents files, x.userKey = k.userKey → x.seq ≤ k.seq)
    (missed : searchLevel filter replace files k = none) :
    ∀ x ∈ Version.contents files, x.userKey ≠ k.userKey := by
  have noItem := SkipList.findLastLessEqual_eq_none.mp (Option.map_eq_none_iff.mp missed)
  rintro x ⟨f, hf, hx⟩
  have topIn : ∀ x ∈ f.table.entries, x.userKey = k.userKey → x.seq ≤ k.seq :=
    fun x hx => top x ⟨f, hf, hx⟩
  cases got : f.table.getKvEntry filter k with
  | none => exact Sstable.absent_of_getKvEntry (wf f hf) topIn got x hx
  | some y =>
    obtain ⟨yMem, yKey, -⟩ := Sstable.isNewest_of_getKvEntry (wf f hf) topIn got
    have bounded := topIn y yMem yKey
    have yIn : (y.key, y.value) ∈ files.filterMap (fileToPotentialRet filter k) :=
      List.mem_filterMap.mpr ⟨f, hf, fileToPotentialRet_of_le got bounded⟩
    obtain ⟨w, inMap⟩ := SkipList.key_mem_insertRange replace
      (m := SkipList.empty) (Or.inl yIn)
    exact absurd (SequencedKey.le_iff.mpr (Or.inr ⟨yKey, bounded⟩)) (noItem _ inMap)

/-- The files a version keeps at shallower levels hold the newer versions of a key. -/
def LevelOrdered {φ : Type} (view : FileView φ) (v : Version φ) : Prop :=
  ∀ f ∈ v, ∀ g ∈ v, view.level f < view.level g →
    Newer {x | x ∈ view.entries f} {y | y ∈ view.entries g}

variable {v : Version File}

theorem findFromSsts_spec (wf : ∀ f ∈ v, f.table.Wf filter) (ordered : LevelOrdered .tables v)
    (top : ∀ x ∈ v.contents, x.userKey = k.userKey → x.seq ≤ k.seq) :
    (∀ e, findFromSsts filter replace v k = some e → IsNewest v.contents k.userKey e) ∧
      (findFromSsts filter replace v k = none → ∀ x ∈ v.contents, x.userKey ≠ k.userKey) := by
  have sorted : v.sort.Pairwise (File.level · ≤ File.level ·) :=
    (Version.sort_ascending v).imp fun {f g} le => by
      rcases Prod.Lex.toLex_le_toLex.mp le with lt | ⟨eq, -⟩
      · exact lt.le
      · exact eq.le
  have flat : (groups File.level v.sort).flatten = v.sort := flatten_groups _
  have inVersion : ∀ group ∈ groups File.level v.sort, ∀ f ∈ group, f ∈ v := by
    intro group hg f hf
    rw [← Version.mem_sort, ← flat]
    exact List.mem_flatten.mpr ⟨group, hg, hf⟩
  have wfGroup : ∀ group ∈ groups File.level v.sort, ∀ f ∈ group, f.table.Wf filter :=
    fun group hg f hf => wf f (inVersion group hg f hf)
  have topGroup : ∀ group ∈ groups File.level v.sort, ∀ x ∈ Version.contents group,
      x.userKey = k.userKey → x.seq ≤ k.seq :=
    fun group hg x ⟨f, hf, hx⟩ => top x ⟨f, inVersion group hg f hf, hx⟩
  constructor
  · intro e found
    obtain ⟨before, group, after, eq, hit, missed⟩ := List.findSome?_eq_some_iff.mp found
    have mem : group ∈ groups File.level v.sort := by simp [eq]
    obtain ⟨⟨f, hf, inFile⟩, key, newest⟩ :=
      isNewest_of_searchLevel (wfGroup group mem) (topGroup group mem) hit
    refine ⟨⟨f, inVersion group mem f hf, inFile⟩, key, ?_⟩
    rintro x ⟨g, hg, hx⟩ xKey
    have hg' : g ∈ (before ++ group :: after).flatten := by
      rw [← eq, flat]
      exact Version.mem_sort.mpr hg
    rw [List.flatten_append, List.flatten_cons] at hg'
    rcases List.mem_append.mp hg' with early | late
    · obtain ⟨earlier, he, hge⟩ := List.mem_flatten.mp early
      have memE : earlier ∈ groups File.level v.sort := by simp [eq, he]
      exact absurd xKey
        (absent_of_searchLevel (wfGroup _ memE) (topGroup _ memE) (missed _ he) x ⟨g, hge, hx⟩)
    · rcases List.mem_append.mp late with same | deeper
      · exact newest x ⟨g, same, hx⟩ xKey
      · -- a deeper level holds only older versions of the key
        have lt := rank_lt_of_groups_eq sorted eq hf deeper
        exact (ordered f (inVersion group mem f hf) g hg lt e inFile x hx (key.trans xKey.symm)).le
  · intro missed x
    rintro ⟨f, hf, hx⟩
    have all := List.findSome?_eq_none_iff.mp missed
    have hf' : f ∈ (groups File.level v.sort).flatten := by rw [flat]; exact Version.mem_sort.mpr hf
    obtain ⟨group, mem, hfg⟩ := List.mem_flatten.mp hf'
    exact absent_of_searchLevel (wfGroup group mem) (topGroup group mem) (all group mem) x
      ⟨f, hfg, hx⟩

end Search

end FrenzyKV
