import FrenzyKV.Db.KvdbDeps
import FrenzyKV.Math.Merge

/-! The choice of the inputs of a compaction and the merge of their entries
(`persistent/compaction_policy_oldest.cc`, `persistent/compaction.cc`). -/

namespace FrenzyKV

open Merge

def withLevel (v : Version File) (l : Nat) : List File := v.filter (·.level = l)

def sortByLastWriteTime (files : List File) : List File :=
  files.insertionSort (·.lastWriteTime ≤ ·.lastWriteTime)

/-- The next-level files that the policy pulls in. Only the first, oldest input decides. -/
def pulledFiles (deps : KvdbDeps) (v : Version File) (from_ : Nat) (first : File) : List File :=
  (deps.sortByFileSize (sortByLastWriteTime (withLevel v (from_ + 1)))).filter
    fun f => first.table.overlapped f.table

/-- `compaction_policy_oldest::compacting_files` on open tables; no result where it throws or asserts. -/
def compactingFiles (deps : KvdbDeps) (v : Version File) (from_ : Nat) : Option (List File) :=
  let files := sortByLastWriteTime (withLevel v from_)
  if files.isEmpty then none
  else
    match files.dropLast with
    | [] => some []
    | first :: rest =>
      if deps.opt.allowedLevelFileNumber from_ < 2 then none
      else if 1 < from_ then some (first :: rest ++ pulledFiles deps v from_ first)
      else some (first :: rest)

/-- The inputs that are left after `compact` cut the list by the threshold ratio. -/
def compactionInputs (deps : KvdbDeps) (v : Version File) (from_ : Nat) (threshRatio : ThreshRatio) :
    Option (List File) :=
  (compactingFiles deps v from_).map fun files =>
    files.take (files.length - threshRatio.dropped files.length)

def isSorted (es : List KvEntry) : Bool := decide (es.IsChain (·.key ≤ ·.key))

/-- `compactor::merge_two_tables` on descending lists, with its assertions. -/
def mergeTwoTables (lhs rhs : List KvEntry) : Option (List KvEntry) :=
  if lhs.isEmpty || rhs.isEmpty || !isSorted lhs.reverse || !isSorted rhs.reverse then none
  else
    let result := unique KvEntry.userKey (stdMerge KvEntry.key lhs.reverse rhs.reverse).reverse
    if isSorted result.reverse then some result else none

/-- `devide_and_conquer_merge`, whose recursion halves the list of tables. -/
def devideAndConquerMerge : Nat → List Sstable → Option (List KvEntry)
  | _, [] => none
  | _, [t] => some t.getEntriesAtOnce
  | _, [t, u] => mergeTwoTables t.getEntriesAtOnce u.getEntriesAtOnce
  | 0, _ => none
  | fuel + 1, tables =>
    (devideAndConquerMerge fuel (tables.take (tables.length / 2))).bind fun left =>
      (devideAndConquerMerge fuel (tables.drop (tables.length / 2))).bind fun right =>
        mergeTwoTables left right

def mergeTables (tables : List Sstable) : Option (List KvEntry) :=
  if tables.length < 2 then none else devideAndConquerMerge tables.length tables

def mergedListToSst (deps : KvdbDeps) (merged : List KvEntry) (newLevel : Nat) :
    Option (List Sstable) :=
  if merged.isEmpty || !isSorted merged.reverse then none
  else
    buildTablesFrom deps.opt deps.filterPolicy (deps.opt.allowedLevelFileSize newLevel)
      merged.reverse

/-- `compactor::compact` once it holds the mutex of the level, on open tables: the new tables and the
delta that lists the inputs. -/
def compact (deps : KvdbDeps) (v : Version File) (from_ : Nat) (threshRatio : ThreshRatio) :
    Option (List Sstable × VersionDelta) :=
  if deps.opt.maxLevel ≤ from_ then none
  else
    (compactionInputs deps v from_ threshRatio).bind fun files =>
      (mergeTables (files.map File.table)).bind fun merged =>
        (mergedListToSst deps merged (from_ + 1)).map fun newtables => (newtables, ⟨files, []⟩)

theorem mem_withLevel {v : Version File} {l : Nat} {f : File} :
    f ∈ withLevel v l ↔ f ∈ v ∧ f.level = l := by
  simp [withLevel]

theorem mem_sortByLastWriteTime {files : List File} {f : File} :
    f ∈ sortByLastWriteTime files ↔ f ∈ files :=
  List.mem_insertionSort _

theorem sortByLastWriteTime_sorted (files : List File) :
    (sortByLastWriteTime files).Pairwise (·.lastWriteTime ≤ ·.lastWriteTime) := by
  have total : Std.Total fun f g : File => f.lastWriteTime ≤ g.lastWriteTime :=
    ⟨fun f g => le_total f.lastWriteTime g.lastWriteTime⟩
  have trans : IsTrans File fun f g => f.lastWriteTime ≤ g.lastWriteTime :=
    ⟨fun _ _ _ => le_trans⟩
  exact List.pairwise_insertionSort _ files

theorem mem_pulledFiles {deps : KvdbDeps} {v : Version File} {l : Nat} {first f : File} :
    f ∈ pulledFiles deps v l first ↔
      f ∈ v ∧ f.level = l + 1 ∧ first.table.overlapped f.table = true := by
  rw [pulledFiles, List.mem_filter, (deps.sortByFileSize_perm _).mem_iff,
    mem_sortByLastWriteTime, mem_withLevel, and_assoc]

theorem isSorted_iff {es : List KvEntry} :
    isSorted es = true ↔ es.Pairwise (·.key ≤ ·.key) := by
  have trans : IsTrans KvEntry fun a b => a.key ≤ b.key := ⟨fun _ _ _ => le_trans⟩
  rw [isSorted, decide_eq_true_iff, List.isChain_iff_pairwise]

/-- The inputs of a compaction at level `l` are the oldest files of the level, some number
of them, and next-level files only when `l` is at least 2. -/
theorem compactionInputs_split {deps : KvdbDeps} {v : Version File} {l : Nat} {r : ThreshRatio}
    {files : List File} (chosen : compactionInputs deps v l r = some files) :
    ∃ upper later pulled, sortByLastWriteTime (withLevel v l) = upper ++ later ∧
      files = upper ++ pulled ∧ ∀ f ∈ pulled, f ∈ v ∧ 1 < l ∧ f.level = l + 1 := by
  obtain ⟨all, eq, rfl⟩ := Option.map_eq_some_iff.mp chosen
  generalize all.length - r.dropped all.length = n
  have cut : ∀ front pulled : List File, front <+: sortByLastWriteTime (withLevel v l) →
      (∀ f ∈ pulled, f ∈ v ∧ 1 < l ∧ f.level = l + 1) → all = front ++ pulled →
      ∃ upper later pulled, sortByLastWriteTime (withLevel v l) = upper ++ later ∧
        all.take n = upper ++ pulled ∧ ∀ f ∈ pulled, f ∈ v ∧ 1 < l ∧ f.level = l + 1 := by
    rintro front pulled ⟨later, split⟩ next rfl
    refine ⟨front.take n, front.drop n ++ later, pulled.take (n - front.length), ?_, ?_, ?_⟩
    · rw [← List.append_assoc, List.take_append_drop, split]
    · exact List.take_append
    · exact fun f hf => next f (List.mem_of_mem_take hf)
  have front := List.dropLast_prefix (sortByLastWriteTime (withLevel v l))
  simp only [compactingFiles] at eq
  split at eq
  · simp at eq
  · split at eq
    · exact cut [] [] (List.nil_prefix) (by simp) (by simpa using eq.symm)
    · rename_i first rest dropped
      rw [dropped] at front
      split_ifs at eq with few deep
      · refine cut _ _ front (fun f hf => ?_) (Option.some.inj eq).symm
        obtain ⟨inV, level, -⟩ := mem_pulledFiles.mp hf
        exact ⟨inV, deep, level⟩
      · exact cut _ [] front (by simp) (by simpa using eq.symm)

theorem compactionInputs_mem {deps : KvdbDeps} {v : Version File} {l : Nat} {r : ThreshRatio}
    {files : List File} (chosen : compactionInputs deps v l r = some files) {f : File}
    (mem : f ∈ files) : f ∈ v ∧ (f.level = l ∨ f.level = l + 1) := by
  obtain ⟨upper, later, pulled, split, rfl, next⟩ := compactionInputs_split chosen
  rcases List.mem_append.mp mem with mem | mem
  · have inSort : f ∈ sortByLastWriteTime (withLevel v l) := by simp [split, mem]
    obtain ⟨inV, level⟩ := mem_withLevel.mp (mem_sortByLastWriteTime.mp inSort)
    exact ⟨inV, Or.inl level⟩
  · exact ⟨(next f mem).1, Or.inr (next f mem).2.2⟩

/-- Files of the level that a compaction leaves behind are not older than those it takes. -/
theorem compactionInputs_oldest {deps : KvdbDeps} {v : Version File} {l : Nat} {r : ThreshRatio}
    {files : List File} (chosen : compactionInputs deps v l r = some files) {f g : File}
    (mem : f ∈ files) (level : f.level = l) (mem' : g ∈ v) (level' : g.level = l)
    (left : g ∉ files) : f.lastWriteTime ≤ g.lastWriteTime := by
  obtain ⟨upper, later, pulled, split, rfl, next⟩ := compactionInputs_split chosen
  have sorted := sortByLastWriteTime_sorted (withLevel v l)
  rw [split, List.pairwise_append] at sorted
  have inSort : g ∈ upper ++ later := by
    rw [← split]
    exact mem_sortByLastWriteTime.mpr (mem_withLevel.mpr ⟨mem', level'⟩)
  have hg : g ∈ later := (List.mem_append.mp inSort).resolve_left
    fun inUpper => left (List.mem_append_left _ inUpper)
  have hf : f ∈ upper := (List.mem_append.mp mem).resolve_right
    fun inPulled => by have := (next f inPulled).2.2; omega
  exact sorted.2.2 f hf g hg

end FrenzyKV
