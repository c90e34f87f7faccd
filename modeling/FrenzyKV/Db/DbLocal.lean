import FrenzyKV.Persistent.CompactionProof
import FrenzyKV.Table.Memtable

/-! The file side of the database: flushing a memtable to level 0 and compacting a level
(`db/memtable_flusher.cc`, `db/db_local.cc`). -/

namespace FrenzyKV

/-- The current version and the number of files created so far. The n-th file gets the n-th
uuid and the write time n. -/
structure Store (φ : Type) where
  current : Version φ
  created : Nat

namespace Store

def empty {φ : Type} : Store φ := ⟨[], 0⟩

end Store

/-- The files that are created for tables, in order. -/
def createFiles (deps : KvdbDeps) (level clock : Nat) : List Sstable → List File
  | [] => []
  | t :: ts => ⟨level, deps.uuid clock, clock, t⟩ :: createFiles deps level (clock + 1) ts

/-- The tables of `flush_to_disk`, which returns at once on an empty memtable. -/
def flushTables (deps : KvdbDeps) (m : Memtable) : Option (List Sstable) :=
  if m.isEmpty then some []
  else buildTablesFrom deps.opt deps.filterPolicy (deps.opt.allowedLevelFileSize 0) m.storage

/-- Add the new files of a delta to the current version and take out the compacted ones. -/
def Store.install (deps : KvdbDeps) (s : Store File) (level : Nat) (ts : List Sstable)
    (compacted : List File) : Store File where
  current := s.current.apply ⟨compacted, createFiles deps level s.created ts⟩
  created := s.created + ts.length

/-- `memtable_flusher::flush_to_disk` on tables, whose files are another layer. -/
def flushToDisk (deps : KvdbDeps) (s : Store File) (m : Memtable) : Option (Store File) :=
  (flushTables deps m).map fun ts => s.install deps 0 ts []

def needCompaction (deps : KvdbDeps) (v : Version File) (l : Nat) (threshRatio : ThreshRatio) : Bool :=
  !deps.opt.isAppropriateLevelFileNumber l (withLevel v l).length threshRatio

/-- The level that `may_compact` works on: the first one from `from_` on that needs it. -/
def levelToCompact (deps : KvdbDeps) (v : Version File) (from_ : Nat) (threshRatio : ThreshRatio) : Option Nat :=
  (List.range' from_ (deps.opt.maxLevel + 1 - from_)).find? (needCompaction deps v · threshRatio)

/-- On tables, `compactor::compact` followed by `fake_file_to_disk` and `update_current_version`. -/
def compactLevel (deps : KvdbDeps) (s : Store File) (l : Nat) (threshRatio : ThreshRatio) : Option (Store File) :=
  (compact deps s.current l threshRatio).map fun done =>
    if done.1.isEmpty then s else s.install deps (l + 1) done.1 done.2.compacted

/-- `db_local::may_compact` when nothing else runs. -/
def mayCompact (deps : KvdbDeps) (s : Store File) (from_ : Nat) (threshRatio : ThreshRatio) : Option (Store File) :=
  match levelToCompact deps s.current from_ threshRatio with
  | none => some s
  | some l => compactLevel deps s l threshRatio

section CreateFiles

variable {deps : KvdbDeps} {level clock : Nat} {ts : List Sstable} {f : File}

theorem mem_createFiles (mem : f ∈ createFiles deps level clock ts) :
    f.level = level ∧ f.table ∈ ts ∧ f.fileId = deps.uuid f.lastWriteTime ∧
      clock ≤ f.lastWriteTime ∧ f.lastWriteTime < clock + ts.length := by
  induction ts generalizing clock with
  | nil => simp [createFiles] at mem
  | cons t ts ih =>
    rcases List.mem_cons.mp mem with rfl | mem
    · simp
    · obtain ⟨level, table, named, low, high⟩ := ih mem
      refine ⟨level, List.mem_cons_of_mem _ table, named, by omega, ?_⟩
      rw [List.length_cons]
      omega

theorem createFiles_times :
    (createFiles deps level clock ts).Pairwise (·.lastWriteTime < ·.lastWriteTime) := by
  induction ts generalizing clock with
  | nil => simp [createFiles]
  | cons t ts ih =>
    refine List.pairwise_cons.mpr ⟨fun f mem => ?_, ih⟩
    exact Nat.lt_of_succ_le (mem_createFiles mem).2.2.2.1

theorem createFiles_map_table : (createFiles deps level clock ts).map File.table = ts := by
  induction ts generalizing clock with
  | nil => rfl
  | cons t ts ih => rw [createFiles, List.map_cons, ih]

theorem contents_createFiles :
    Version.contents (createFiles deps level clock ts) = tablesContents ts := by
  induction ts generalizing clock with
  | nil => simp [createFiles, Version.contents, tablesContents]
  | cons t ts ih =>
    have tail := Set.ext_iff.mp (@ih (clock + 1))
    ext e
    simp only [Version.contents, tablesContents, createFiles, Set.mem_ofPred_eq, List.mem_cons,
      exists_eq_or_imp] at tail ⊢
    exact or_congr Iff.rfl (tail e)

/-- Files made of consecutive tables keep the order of their entries. -/
theorem createFiles_pairwise {R : Sstable → Sstable → Prop} (pairs : ts.Pairwise R) :
    (createFiles deps level clock ts).Pairwise fun f g => R f.table g.table := by
  induction ts generalizing clock with
  | nil => simp [createFiles]
  | cons t ts ih =>
    obtain ⟨first, rest⟩ := List.pairwise_cons.mp pairs
    exact List.pairwise_cons.mpr ⟨fun f mem => first _ (mem_createFiles mem).2.1, ih rest⟩

end CreateFiles

/-- The tables of a flush are well formed and hold the memtable. -/
theorem flushTables_spec {deps : KvdbDeps} {m : Memtable} {ts : List Sstable}
    (flushed : flushTables deps m = some ts) :
    (∀ t ∈ ts, t.Wf deps.filterPolicy) ∧
      ts.flatMap Sstable.entries = m.storage.map KvEntry.stored := by
  rw [flushTables] at flushed
  split at flushed
  · rename_i empty
    obtain rfl := Option.some.inj flushed
    have : m.storage = [] := by
      simpa [Memtable.isEmpty, SkipList.isEmpty, Memtable.storage] using empty
    simp [this]
  · rename_i some_entry
    have nonempty : m.storage ≠ [] := by
      simpa [Memtable.isEmpty, SkipList.isEmpty, Memtable.storage] using some_entry
    have positive : 0 < deps.opt.allowedLevelFileSize 0 := by
      by_contra zero
      have zero : deps.opt.allowedLevelFileSize 0 = 0 := by omega
      simp [buildTablesFrom, SstableBuilder.make, zero] at flushed
    obtain ⟨ts', eq, all, -, wf⟩ := buildTablesFrom_spec deps.opt deps.filterPolicy_open
      positive nonempty m.storage_ascending
    obtain rfl : ts = ts' := Option.some.inj (flushed.symm.trans eq)
    exact ⟨wf, all⟩

theorem mem_tablesContents_iff {ts : List Sstable} {e : KvEntry} :
    e ∈ tablesContents ts ↔ e ∈ ts.flatMap Sstable.entries := by
  rw [List.mem_flatMap]
  rfl

theorem Store.install_contents_subset {deps : KvdbDeps} {s : Store File} {level : Nat}
    {ts : List Sstable} {compacted : List File} :
    (s.install deps level ts compacted).current.contents ⊆
      tablesContents ts ∪ s.current.contents := by
  intro e he
  obtain ⟨f, hf, he⟩ := he
  cases Version.mem_of_mem_apply hf with
  | inl created => exact Or.inl ⟨f.table, (mem_createFiles created).2.1, he⟩
  | inr old => exact Or.inr ⟨f, old, he⟩

theorem Store.created_subset_install {deps : KvdbDeps} {s : Store File} {level : Nat}
    {ts : List Sstable} {compacted : List File} :
    tablesContents ts ⊆ (s.install deps level ts compacted).current.contents := by
  rw [← @contents_createFiles deps level s.created ts]
  exact Version.contents_mono fun f hf => Version.added_mem_apply hf

/-- A flush adds the entries of the memtable to the stored ones. -/
theorem contents_flushToDisk {deps : KvdbDeps} {s s' : Store File} {m : Memtable}
    (done : flushToDisk deps s m = some s') (e : KvEntry) :
    e ∈ s'.current.contents ↔ e ∈ s.current.contents ∨ e ∈ m.storage.map KvEntry.stored := by
  obtain ⟨ts, flushed, rfl⟩ := Option.map_eq_some_iff.mp done
  rw [← (flushTables_spec flushed).2, ← mem_tablesContents_iff]
  constructor
  · intro he
    exact (Store.install_contents_subset he).symm
  · intro he
    cases he with
    | inl old =>
      obtain ⟨f, hf, he⟩ := old
      exact ⟨f, Version.kept_mem_apply hf (by simp), he⟩
    | inr new => exact Store.created_subset_install new

theorem mayCompact_cases {deps : KvdbDeps} {s s' : Store File} {from_ : Nat} {r : ThreshRatio}
    (done : mayCompact deps s from_ r = some s') :
    s' = s ∨ ∃ l ts delta, levelToCompact deps s.current from_ r = some l ∧
      compact deps s.current l r = some (ts, delta) ∧
      s' = s.install deps (l + 1) ts delta.compacted := by
  rw [mayCompact] at done
  split at done
  · exact Or.inl (Option.some.inj done).symm
  · rename_i l chosen
    obtain ⟨⟨ts, delta⟩, compacted, eq⟩ := Option.map_eq_some_iff.mp done
    split at eq
    · exact Or.inl eq.symm
    · exact Or.inr ⟨l, ts, delta, chosen, compacted, eq.symm⟩

/-- Well-formed tables in distinct files, which were named and dated when they were created. -/
structure Store.Sound (deps : KvdbDeps) (s : Store File) : Prop where
  wf : ∀ f ∈ s.current, f.table.Wf deps.filterPolicy
  named : ∀ f ∈ s.current, f.fileId = deps.uuid f.lastWriteTime ∧ f.lastWriteTime < s.created
  distinct : s.current.Pairwise (·.lastWriteTime ≠ ·.lastWriteTime)

namespace Store

variable {deps : KvdbDeps} {s s' : Store File} {level : Nat} {ts : List Sstable}
  {compacted : List File}

theorem sound_empty (deps : KvdbDeps) : Sound deps Store.empty where
  wf f hf := by simp [Store.empty] at hf
  named f hf := by simp [Store.empty] at hf
  distinct := List.Pairwise.nil

namespace Sound

theorem eq_of_time (sound : Sound deps s) {f g : File} (hf : f ∈ s.current) (hg : g ∈ s.current)
    (same : f.lastWriteTime = g.lastWriteTime) : f = g := by
  by_contra ne
  have symm : Std.Symm fun f g : File => f.lastWriteTime ≠ g.lastWriteTime :=
    ⟨fun _ _ h => h.symm⟩
  exact List.Pairwise.forall sound.distinct hf hg ne same

theorem time_eq_of_rank (sound : Sound deps s) {f g : File} (hf : f ∈ s.current)
    (hg : g ∈ s.current) (same : f.rank = g.rank) : f.lastWriteTime = g.lastWriteTime := by
  have ids : f.fileId = g.fileId := (Prod.mk.inj (toLex.injective same)).2
  rw [(sound.named f hf).1, (sound.named g hg).1] at ids
  exact deps.uuid_injective ids

theorem ranks_distinct (sound : Sound deps s) :
    s.current.Pairwise (File.rank · ≠ File.rank ·) := by
  refine List.Pairwise.imp_of_mem ?_ sound.distinct
  intro f g hf hg ne same
  exact ne (sound.time_eq_of_rank hf hg same)

/-- The files of the new version: the created ones, and the old ones that no compacted
file ranks with. -/
theorem mem_install (sound : Sound deps s) {f : File}
    (mem : f ∈ (s.install deps level ts compacted).current) :
    f ∈ createFiles deps level s.created ts ∨
      f ∈ s.current ∧ ∀ c ∈ compacted, f.rank ≠ c.rank :=
  Version.not_compacted_of_mem_apply sound.ranks_distinct mem

theorem install_distinct (sound : Sound deps s) :
    (s.install deps level ts compacted).current.Pairwise (·.lastWriteTime ≠ ·.lastWriteTime) := by
  rw [Store.install, Version.apply]
  split
  · exact sound.distinct
  · refine List.pairwise_append.mpr ⟨createFiles_times.imp fun lt => lt.ne, ?_, ?_⟩
    · have sorted : s.current.sort.Pairwise (·.lastWriteTime ≠ ·.lastWriteTime) :=
        (List.perm_insertionSort _ s.current).symm.pairwise sound.distinct fun ne => ne.symm
      exact sorted.sublist (SortedDifference.setDifference_sublist _ _ _)
    · intro f hf g hg
      have old := Version.mem_sort.mp ((SortedDifference.setDifference_sublist _ _ _).subset hg)
      have low := (mem_createFiles hf).2.2.2.1
      have high := (sound.named g old).2
      omega

theorem install (sound : Sound deps s) (wf : ∀ t ∈ ts, t.Wf deps.filterPolicy) :
    Sound deps (s.install deps level ts compacted) := by
  refine ⟨?_, ?_, sound.install_distinct⟩
  · intro f hf
    cases sound.mem_install hf with
    | inl created => exact wf _ (mem_createFiles created).2.1
    | inr kept => exact sound.wf f kept.1
  · intro f hf
    change _ ∧ _ < s.created + ts.length
    cases sound.mem_install hf with
    | inl created => exact (mem_createFiles created).2.2.imp_right And.right
    | inr kept =>
      obtain ⟨name, time⟩ := sound.named f kept.1
      exact ⟨name, by omega⟩

theorem flush {m : Memtable} (sound : Sound deps s) (done : flushToDisk deps s m = some s') :
    Sound deps s' := by
  obtain ⟨ts, flushed, rfl⟩ := Option.map_eq_some_iff.mp done
  exact sound.install (flushTables_spec flushed).1

theorem mayCompact {from_ : Nat} {r : ThreshRatio} (sound : Sound deps s)
    (done : FrenzyKV.mayCompact deps s from_ r = some s') : Sound deps s' := by
  rcases mayCompact_cases done with rfl | ⟨l, ts, delta, -, compacted, rfl⟩
  · exact sound
  · exact sound.install (compact_spec sound.wf compacted).2.2.2.wf

/-- A compaction keeps a version of each key that is at least as new as all others. -/
theorem mayCompact_contents {from_ : Nat} {r : ThreshRatio} (sound : Sound deps s)
    (done : FrenzyKV.mayCompact deps s from_ r = some s') :
    s'.current.contents ⊆ s.current.contents ∧ Covers s'.current.contents s.current.contents := by
  rcases mayCompact_cases done with rfl | ⟨l, ts, delta, -, compacted, rfl⟩
  · exact ⟨subset_rfl, Versioned.Covers.refl _⟩
  · obtain ⟨-, -, chosen, out⟩ := compact_spec sound.wf compacted
    have inputs : ∀ c ∈ delta.compacted, c ∈ s.current :=
      fun c hc => (compactionInputs_mem chosen hc).1
    constructor
    · intro e he
      cases Store.install_contents_subset he with
      | inl new => exact Version.contents_mono inputs (out.sub new)
      | inr old => exact old
    · have kept : s.current.contents \ Version.contents delta.compacted ⊆
          (s.install deps (l + 1) ts delta.compacted).current.contents := by
        rintro e ⟨⟨f, hf, he⟩, notInput⟩
        refine ⟨f, Version.kept_mem_apply hf fun c hc same => ?_, he⟩
        obtain rfl := sound.eq_of_time hf (inputs c hc) (sound.time_eq_of_rank hf (inputs c hc) same)
        exact notInput ⟨f, hc, he⟩
      exact ((Versioned.Covers.refl _).replace out.cover kept).mono
        (Set.union_subset Store.created_subset_install subset_rfl)

end Sound

end Store

end FrenzyKV
