import FrenzyKV.Persistent.MergeOrder

namespace FrenzyKV

open Merge

/-- Entries in table files are in the form they are read back in. -/
theorem Sstable.stored_of_mem {t : Sstable} {e : KvEntry} (mem : e ∈ t.entries) : e.stored = e := by
  obtain ⟨b, -, hb⟩ := List.mem_flatMap.mp mem
  obtain ⟨seg, -, hs⟩ := List.mem_flatMap.mp hb
  obtain ⟨item, -, rfl⟩ := List.mem_map.mp hs
  simp [KvEntry.stored]

/-- `es` descends and holds, for each key of `source`, a version that is at least as new. -/
structure Merged (source : KvEntry → Prop) (es : List KvEntry) : Prop where
  nonempty : es ≠ []
  descending : es.Pairwise (·.key > ·.key)
  sub : ∀ e ∈ es, source e
  cover : ∀ e, source e → ∃ e' ∈ es, e'.userKey = e.userKey ∧ e.key ≤ e'.key

/-- Strictly descending newest versions are what a compaction merges to. -/
theorem Newest.merged {source : KvEntry → Prop} {es : List KvEntry} (newest : Newest {e | source e} es)
    (strict : es.Pairwise (·.key > ·.key)) : Merged source es :=
  ⟨newest.nonempty, strict, newest.sub, newest.cover⟩

theorem devideAndConquerMerge_spec {filter : FilterPolicy} {fuel : Nat} {tables : List Sstable}
    (wf : ∀ t ∈ tables, t.Wf filter) (nonempty : tables ≠ []) (enough : tables.length ≤ fuel) :
    ∃ es, devideAndConquerMerge fuel tables = some es ∧
      Merged (fun e => ∃ t ∈ tables, e ∈ t.entries) es ∧
      (2 ≤ tables.length → es.Pairwise (·.userKey > ·.userKey)) := by
  have some_entry : ∀ t ∈ tables, t.entries ≠ [] := by
    intro t mem empty
    have first := (wf t mem).first
    rw [empty] at first
    cases first
  have sorted : ∀ t ∈ tables, t.entries.Pairwise (·.key ≤ ·.key) := fun t mem =>
    (wf t mem).ascending.imp fun lt => lt.le
  obtain ⟨es, eq, merges⟩ := devideAndConquerMerge_mergesTo nonempty some_entry sorted enough
  obtain ⟨newest, strict⟩ := merges.newest some_entry sorted
  refine ⟨es, eq, newest.merged ?_, strict⟩
  by_cases two : 2 ≤ tables.length
  · exact key_gt_of_userKey_gt (strict two)
  · -- A single table is not merged, and descends as it is read.
    cases merges with
    | single t =>
      exact List.pairwise_reverse.mpr (wf t (List.mem_singleton_self t)).ascending
    | halves left right _ =>
      have := left.positive
      have := right.positive
      rw [List.length_append] at two
      omega

/-- What the outputs of a compaction owe to its inputs. -/
structure Compacted (filter : FilterPolicy) (files : List File) (ts : List Sstable) : Prop where
  wf : ∀ t ∈ ts, t.Wf filter
  nonempty : ts ≠ []
  sub : tablesContents ts ⊆ Version.contents files
  cover : Covers (tablesContents ts) (Version.contents files)
  single : ∀ x ∈ tablesContents ts, ∀ y ∈ tablesContents ts, x.userKey = y.userKey → x = y
  apart : (ts.flatMap Sstable.entries).Pairwise (·.userKey < ·.userKey)

theorem compact_spec {deps : KvdbDeps} {v : Version File} {l : Nat} {r : ThreshRatio} {ts : List Sstable}
    {delta : VersionDelta} (wf : ∀ f ∈ v, f.table.Wf deps.filterPolicy)
    (done : compact deps v l r = some (ts, delta)) :
    l < deps.opt.maxLevel ∧ delta.added = [] ∧ compactionInputs deps v l r = some delta.compacted ∧
      Compacted deps.filterPolicy delta.compacted ts := by
  rw [compact] at done
  split at done
  · simp at done
  · rename_i levelOk
    obtain ⟨files, chosen, rest⟩ := Option.bind_eq_some_iff.mp done
    obtain ⟨merged, mergedEq, rest⟩ := Option.bind_eq_some_iff.mp rest
    obtain ⟨newtables, built, eq⟩ := Option.map_eq_some_iff.mp rest
    obtain ⟨rfl, rfl⟩ := Prod.mk.inj eq
    have inputsWf : ∀ t ∈ files.map File.table, t.Wf deps.filterPolicy := by
      intro t ht
      obtain ⟨f, hf, rfl⟩ := List.mem_map.mp ht
      exact wf f (compactionInputs_mem chosen hf).1
    rw [mergeTables] at mergedEq
    split at mergedEq
    · simp at mergedEq
    · rename_i two
      have two : 2 ≤ (files.map File.table).length := by omega
      obtain ⟨es, esEq, spec, strict⟩ := devideAndConquerMerge_spec inputsWf
        (by intro empty; simp [empty] at two) le_rfl
      obtain rfl : merged = es := Option.some.inj (mergedEq.symm.trans esEq)
      have strict := strict two
      rw [mergedListToSst] at built
      split at built
      · simp at built
      · have positive : 0 < deps.opt.allowedLevelFileSize (l + 1) := by
          by_contra zero
          have zero : deps.opt.allowedLevelFileSize (l + 1) = 0 := by omega
          simp [buildTablesFrom, SstableBuilder.make, zero] at built
        obtain ⟨ts', tsEq, all, ne, tsWf⟩ := buildTablesFrom_spec deps.opt
          deps.filterPolicy_open positive (by simpa using spec.nonempty)
          (List.pairwise_reverse.mpr spec.descending)
        obtain rfl : newtables = ts' := Option.some.inj (built.symm.trans tsEq)
        have storedEq : ∀ e ∈ merged, e.stored = e := by
          intro e he
          obtain ⟨t, -, inT⟩ := spec.sub e he
          exact Sstable.stored_of_mem inT
        have flat : newtables.flatMap Sstable.entries = merged.reverse := by
          rw [all]
          conv_rhs => rw [← List.map_id merged.reverse]
          exact List.map_congr_left fun e he => storedEq e (List.mem_reverse.mp he)
        have contents : ∀ e, e ∈ tablesContents newtables ↔ e ∈ merged := by
          intro e
          rw [← List.mem_reverse, ← flat, List.mem_flatMap]
          rfl
        have source : ∀ e, (∃ t ∈ files.map File.table, e ∈ t.entries) ↔
            e ∈ Version.contents files := by
          intro e
          simp [Version.contents]
        have apart : (newtables.flatMap Sstable.entries).Pairwise (·.userKey < ·.userKey) := by
          rw [flat, List.pairwise_reverse]
          exact strict
        refine ⟨by omega, rfl, chosen, tsWf, ne, ?_, ?_, ?_, apart⟩
        · intro e he
          exact (source e).mp (spec.sub e ((contents e).mp he))
        · intro e he
          obtain ⟨e', he', sameKey, le⟩ := spec.cover e ((source e).mpr he)
          refine ⟨e', (contents e').mpr he', sameKey, ?_⟩
          rcases SequencedKey.le_iff.mp le with lt | ⟨-, le⟩
          · exact absurd sameKey lt.ne'
          · exact le
        · intro x hx y hy same
          exact eq_of_userKey_eq strict ((contents x).mp hx) ((contents y).mp hy) same

end FrenzyKV
