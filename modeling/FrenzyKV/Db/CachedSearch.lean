import FrenzyKV.Db.DiskStore
import FrenzyKV.Table.TableCache

/-! The search of a version through the table cache, as `db_local` makes it (`db/db_local.cc`,
`table/table_cache.cc`). -/

namespace FrenzyKV.DiskStore

open Bytes Framework SortedGroups TableCache

variable (d : DiskDeps) (c : CacheDeps (ℕ ×ₗ ℕ))

/-- `db_local::file_to_async_potiential_ret`, which takes the table from the cache. -/
def fileToPotentialRetCached (k : SequencedKey) (f : DiskFile) :
    StateT c.tables.State Option (Option (SequencedKey × KvUserValue)) :=
  finsert c false f.rank f.bytes >>= fun sst =>
    StateT.lift (sst.bind fun sst => (sst.getKvEntry k).map fun entry =>
      entry.bind fun e => if k.seq < e.seq then none else some (e.key, e.value))

def searchLevelCached (files : List DiskFile) (k : SequencedKey) :
    StateT c.tables.State Option (Option KvEntry) :=
  files.mapM (fileToPotentialRetCached c k) >>= fun potentialResults =>
    pure (((SkipList.empty.insertRange d.skipListReplaces
      (potentialResults.filterMap id)).findLastLessEqual k).map fun found => ⟨found.1, found.2⟩)

def searchLevelsCached (k : SequencedKey) :
    List (List DiskFile) → StateT c.tables.State Option (Option KvEntry)
  | [] => pure none
  | files :: deeper =>
    searchLevelCached d c files k >>= fun
      | some e => pure (some e)
      | none => searchLevelsCached k deeper

/-- `db_local::find_from_ssts` over the cache, with the files of a level one after another. -/
def findFromSstsCached (v : List DiskFile) (k : SequencedKey) :
    StateT c.tables.State Option (Option KvEntry) :=
  searchLevelsCached d c k (groups DiskFile.level (sort v))

variable {d c} {P : ℕ ×ₗ ℕ → Option RawSstable → Prop} {k : SequencedKey}

/-- The entries of the cache that are right for the files. -/
def Exactly (c : CacheDeps (ℕ ×ₗ ℕ)) (P : ℕ ×ₗ ℕ → Option RawSstable → Prop) (files : List DiskFile) :
    Prop :=
  ∀ f ∈ files, ∀ table, P f.rank table ↔ table = RawSstable.make c.table f.bytes

theorem fileToPotentialRetCached_agrees (same : c.table = d.table) {f : DiskFile}
    (exactly : ∀ table, P f.rank table ↔ table = RawSstable.make c.table f.bytes) :
    c.tables.Agrees P (fileToPotentialRetCached c k f) (fileToPotentialRet d k f) := by
  have cached := (finsert_agrees (d := c) false exactly).bind fun sst _ => Cache.Agrees.lift
    (sst.bind fun sst => (sst.getKvEntry k).map fun entry =>
      entry.bind fun e => if k.seq < e.seq then none else some (e.key, e.value))
  rw [Option.bind_some, same] at cached
  exact cached

theorem searchLevelCached_agrees (same : c.table = d.table) {files : List DiskFile}
    (exactly : Exactly c P files) :
    c.tables.Agrees P (searchLevelCached d c files k) (searchLevel d files k) := by
  have results := Cache.Agrees.mapM fun f mem =>
    fileToPotentialRetCached_agrees (k := k) same (exactly f mem)
  have found := results.bind fun potentialResults _ => Cache.Agrees.pure
    (((SkipList.empty.insertRange d.skipListReplaces (potentialResults.filterMap id)).findLastLessEqual
      k).map fun found => (⟨found.1, found.2⟩ : KvEntry))
  rw [searchLevel, Option.map_eq_bind]
  exact found

/-- One search, from any cache that holds right tables. -/
theorem findFromSstsCached_agrees (same : c.table = d.table) {v : List DiskFile} (exactly : Exactly c P v) :
    c.tables.Agrees P (findFromSstsCached d c v k) (findFromSsts d v k) := by
  have levels : ∀ levels : List (List DiskFile), (∀ files ∈ levels, Exactly c P files) →
      c.tables.Agrees P (searchLevelsCached d c k levels) (searchLevels d k levels) := by
    intro levels
    induction levels with
    | nil => exact fun _ => Cache.Agrees.pure none
    | cons files deeper ih =>
      intro all
      obtain ⟨here, later⟩ := List.forall_mem_cons.mp all
      refine (searchLevelCached_agrees same here).bind fun found _ => ?_
      cases found with
      | some e => exact Cache.Agrees.pure (some e)
      | none => exact ih later
  refine levels _ fun files mem f inside => exactly f ?_
  have inGroups : f ∈ (groups DiskFile.level (sort v)).flatten := List.mem_flatten.mpr ⟨files, mem, inside⟩
  rw [flatten_groups] at inGroups
  exact (List.mem_insertionSort _).mp inGroups

/-- Searches one after another through the cache answer like searches of the files, whatever stays in
the cache and whatever versions they search, as long as a name stands for one file. -/
theorem searches_cached (same : c.table = d.table) (queries : List (List DiskFile × SequencedKey))
    (names : ∀ q ∈ queries, ∀ q' ∈ queries, ∀ f ∈ q.1, ∀ g ∈ q'.1, f.rank = g.rank → f.bytes = g.bytes) :
    (queries.mapM (fun q => findFromSstsCached d c q.1 q.2) c.tables.empty).map Prod.fst =
      queries.mapM fun q => findFromSsts d q.1 q.2 := by
  -- what the cache may hold: the table of the file that some query has under the name
  let P : ℕ ×ₗ ℕ → Option RawSstable → Prop := fun name table =>
    ∃ q ∈ queries, ∃ f ∈ q.1, f.rank = name ∧ table = RawSstable.make c.table f.bytes
  have each : ∀ q ∈ queries, c.tables.Agrees P (findFromSstsCached d c q.1 q.2)
      (findFromSsts d q.1 q.2) := by
    intro q mem
    refine findFromSstsCached_agrees same fun f hf table => ⟨?_, fun eq => ⟨q, mem, f, hf, rfl, eq⟩⟩
    rintro ⟨q', mem', g, hg, rank, rfl⟩
    rw [names q' mem' q mem g hg f hf rank]
  have all := Cache.Agrees.mapM each c.tables.empty Cache.only_empty
  cases direct : queries.mapM fun q => findFromSsts d q.1 q.2 with
  | none =>
    rw [direct] at all
    rw [all]
    rfl
  | some answers =>
    rw [direct] at all
    obtain ⟨s, ran, -⟩ := all
    rw [ran]
    rfl

/-- A cache for one table. -/
def oneTableCached : CacheDeps (ℕ ×ₗ ℕ) :=
  ⟨.plain .twoFileLevels, Cache.latest (ℕ ×ₗ ℕ) (Option RawSstable) 1, full, fun _ _ => 0⟩

/-- Searches of two versions, whose tables take turns in the cache. -/
def turns (older newer : List DiskFile) : List (List DiskFile × SequencedKey) :=
  [(newer, ⟨2, ⟨[4]⟩⟩), (older, ⟨2, ⟨[4]⟩⟩), (newer, ⟨2, ⟨[9]⟩⟩)]

theorem searches_cached_turns :
    ∃ s t, flushToDisk .small Store.empty (Memtable.ofEntries .twoFileLevels [KvEntry.brief 4 1 0]) = some s ∧
      s.flushToDisk .small (Memtable.ofEntries .twoFileLevels [KvEntry.brief 9 2 0]) = some t ∧
      ((turns s.current t.current).mapM (fun q => findFromSstsCached .small oneTableCached q.1 q.2)
        oneTableCached.tables.empty).map Prod.fst =
          (turns s.current t.current).mapM fun q => findFromSsts .small q.1 q.2 := by
  obtain ⟨s, flushed, again⟩ : ∃ s ∈ flushToDisk .small Store.empty
      (Memtable.ofEntries .twoFileLevels [KvEntry.brief 4 1 0]),
      ((s.flushToDisk .small (Memtable.ofEntries .twoFileLevels [KvEntry.brief 9 2 0])).any fun t =>
        (s.current ++ t.current).all fun f => (s.current ++ t.current).all fun g =>
          f.rank ≠ g.rank || f.bytes = g.bytes) = true := by decide +kernel
  obtain ⟨t, flushed', names⟩ := (Option.any_eq_true _ _).mp again
  refine ⟨s, t, flushed, flushed', searches_cached rfl _ fun q mem q' mem' f hf g hg rank => ?_⟩
  have inside : ∀ q ∈ turns s.current t.current, ∀ f ∈ q.1, f ∈ s.current ++ t.current := by
    simp only [turns, List.forall_mem_cons, List.mem_append]
    exact ⟨fun _ => .inr, fun _ => .inl, fun _ => .inr, fun _ mem => absurd mem List.not_mem_nil⟩
  have one := List.all_eq_true.mp (List.all_eq_true.mp names f (inside q mem f hf)) g (inside q' mem' g hg)
  simpa [rank] using one

end FrenzyKV.DiskStore
