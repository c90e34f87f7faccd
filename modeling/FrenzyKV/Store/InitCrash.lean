import FrenzyKV.Store.Recovery

namespace FrenzyKV.InitCrash

open Bytes Framework

/-- An entry in a table file that is on disk and that the named version lists. -/
def Listed (d : Disk) (e : KvEntry) : Prop :=
  ∃ f ∈ d.getCurrentVersion, f ∈ d.sstables ∧ e ∈ f.table.entries

def InLog (d : Disk) (e : KvEntry) : Prop :=
  ∃ recovered ∈ recover d.log, e ∈ recovered.1.entries

variable {deps : KvdbDeps} {d t : Disk} {created name : Nat} {es : List KvEntry}
  {groups : List (List DiskEffect)}

/-- What the effects before the new descriptor leave alone. -/
structure Untouched (d t : Disk) : Prop where
  current : t.current = d.current
  descriptors : t.descriptors = d.descriptors
  sstables : ∀ f ∈ d.sstables, f ∈ t.sstables

theorem Untouched.version (same : Untouched d t) : t.getCurrentVersion = d.getCurrentVersion := by
  rw [Disk.getCurrentVersion, Disk.getCurrentVersion, same.current]
  exact congrArg (fun f => (d.current.map f).getD [])
    (funext fun n => by rw [Disk.getVersion, Disk.getVersion, same.descriptors])

theorem Untouched.listed (same : Untouched d t) {e : KvEntry} (listed : Listed d e) :
    Listed t e := by
  obtain ⟨f, hf, onDisk, he⟩ := listed
  exact ⟨f, same.version ▸ hf, same.sstables f onDisk, he⟩

theorem Untouched.fresh (same : Untouched d t) (fresh : d.FreshName name) : t.FreshName name := by
  rw [Disk.FreshName, same.current, same.descriptors]
  exact fresh

theorem untouched_before_descriptor (files : List File) :
    ∀ t ∈ crashStates Disk.applyAll d ([.truncateLog] :: files.map fun f => [.writeTable f]),
      Untouched d t := by
  apply forall_crashStates
  · exact ⟨rfl, rfl, fun f hf => hf⟩
  · intro t group mem same
    cases List.mem_cons.mp mem with
    | inl eq =>
      subst eq
      exact ⟨same.current, same.descriptors, same.sstables⟩
    | inr table =>
      obtain ⟨f, -, rfl⟩ := List.mem_map.mp table
      exact ⟨same.current, same.descriptors, fun g hg => List.mem_append_left _ (same.sstables g hg)⟩

/-- A flush adds files to the version and takes none away. -/
theorem listed_after_flush (same : Untouched d t) (fresh : d.FreshName name) {files : List File}
    {e : KvEntry} (listed : Listed d e) :
    ∀ u ∈ crashStates Disk.applyAll t
      [[.writeDescriptor name (d.getCurrentVersion.apply ⟨[], files⟩)], setCurrentVersionFile name],
      Listed u e := by
  obtain ⟨f, hf, onDisk, he⟩ := listed
  have fresh' := same.fresh fresh
  intro u mem
  simp only [crashStates, List.mem_cons, List.not_mem_nil, or_false] at mem
  rcases mem with rfl | rfl | rfl
  · exact same.listed ⟨f, hf, onDisk, he⟩
  · refine ⟨f, ?_, same.sstables f onDisk, he⟩
    rw [Disk.applyAll_singleton, Disk.getCurrentVersion_writeDescriptor fresh', same.version]
    exact hf
  · refine ⟨f, ?_, same.sstables f onDisk, he⟩
    rw [Disk.applyAll_singleton, Disk.getCurrentVersion_setCurrent fresh']
    exact Version.kept_mem_apply hf (by simp)

theorem initEffects_cases (trace : initEffects deps d created name = some groups)
    (written : d.log.isEmpty = false) :
    ∃ files, groups = [.truncateLog] :: files.map (fun f => [.writeTable f]) ∧ files = [] ∨
      groups = ([.truncateLog] :: files.map fun f => [.writeTable f]) ++
        [[.writeDescriptor name (d.getCurrentVersion.apply ⟨[], files⟩)],
          setCurrentVersionFile name] := by
  simp only [initEffects, written] at trace
  obtain ⟨recovered, -, rest⟩ := Option.bind_eq_some_iff.mp trace
  obtain ⟨flush, flushed, rfl⟩ := Option.map_eq_some_iff.mp rest
  obtain ⟨ts, -, rfl⟩ := Option.map_eq_some_iff.mp flushed
  refine ⟨if (recoveredMemtable deps recovered.1).isEmpty then []
    else createFiles deps 0 created ts, ?_⟩
  cases (recoveredMemtable deps recovered.1).isEmpty with
  | true => exact Or.inl ⟨rfl, rfl⟩
  | false => exact Or.inr rfl

/-- Every crash in the middle of `init` leaves every logged entry in the log or in the named
version exactly if the named version had it from the start. -/
theorem init_crash_iff (wf : ∀ e ∈ es, e.WellFormed) (logged : d.log = es.flatMap KvEntry.serialize)
    (fresh : d.FreshName name) (trace : initEffects deps d created name = some groups) :
    (∀ t ∈ crashStates Disk.applyAll d groups, ∀ e ∈ es, InLog t e ∨ Listed t e) ↔
      ∀ e ∈ es, Listed d e := by
  by_cases empty : es = []
  · subst empty
    simp
  obtain ⟨n, recovered, written⟩ := Recovery.recover_log wf empty logged
  obtain ⟨files, shape⟩ := initEffects_cases trace written
  constructor
  · intro safe e he
    -- the state right after the truncation has neither the log nor a new version
    have cut : d.apply .truncateLog ∈ crashStates Disk.applyAll d groups := by
      rcases shape with ⟨rfl, -⟩ | rfl
      · exact List.mem_cons_of_mem _ start_mem_crashStates
      · exact List.mem_cons_of_mem _ start_mem_crashStates
    cases safe _ cut e he with
    | inl inLog =>
      obtain ⟨found, eq, mem⟩ := inLog
      obtain rfl : (WriteBatch.empty, 0) = found := Option.some.inj (Option.mem_def.mp eq)
      simp [WriteBatch.empty] at mem
    | inr listed => exact listed
  · intro before t mem e he
    refine Or.inr ?_
    rcases shape with ⟨rfl, -⟩ | rfl
    · exact (untouched_before_descriptor files t mem).listed (before e he)
    · cases mem_crashStates_append.mp mem with
      | inl early => exact (untouched_before_descriptor files t early).listed (before e he)
      | inr late =>
        have same := untouched_before_descriptor (d := d) files _ end_mem_crashStates
        exact listed_after_flush same fresh (before e he) t late

section Examples

/-- A log of one entry and nothing else. -/
def oneEntryDisk : Disk := ⟨(KvEntry.brief 1 1 10).serialize, [], [], none, []⟩

theorem oneEntry_wellFormed : ∀ e ∈ [KvEntry.brief 1 1 10], e.WellFormed := by
  intro e he
  exact List.mem_singleton.mp he ▸ Recovery.brief_wellFormed 1 10 (by decide)

/-- The same log when the entry was flushed before and is listed. -/
def flushedDisk (files : List File) : Disk :=
  { oneEntryDisk with sstables := files, descriptors := [(0, files)], current := some 0 }

theorem init_crash_safe_flushed :
    ∃ files groups, initEffects (KvdbDeps.paged 40) (flushedDisk files) 1 1 = some groups ∧
      ∀ t ∈ crashStates Disk.applyAll (flushedDisk files) groups,
        InLog t (KvEntry.brief 1 1 10) ∨ Listed t (KvEntry.brief 1 1 10) := by
  obtain ⟨s, -, groups, trace, f, hf, he⟩ :
      ∃ s ∈ flushToDisk (KvdbDeps.paged 40) Store.empty
          (Memtable.ofEntries Options.twoFileLevels [KvEntry.brief 1 1 10]),
        ∃ groups ∈ initEffects (KvdbDeps.paged 40) (flushedDisk s.current) 1 1,
          ∃ f ∈ s.current, KvEntry.brief 1 1 10 ∈ f.table.entries := by decide +kernel
  have fresh : (flushedDisk s.current).FreshName 1 := by
    simp [Disk.FreshName, flushedDisk]
  have iff := init_crash_iff oneEntry_wellFormed rfl fresh trace
  refine ⟨s.current, groups, trace, fun t mem => ?_⟩
  apply iff.mpr _ t mem _ List.mem_cons_self
  intro e he'
  obtain rfl := List.mem_singleton.mp he'
  exact ⟨f, hf, hf, he⟩

/-- A crash right after the truncation loses the entry. -/
theorem init_crash_loses_entry :
    ∃ groups, initEffects (KvdbDeps.paged 40) oneEntryDisk 0 0 = some groups ∧
      ∃ t ∈ crashStates Disk.applyAll oneEntryDisk groups,
        ¬ (InLog t (KvEntry.brief 1 1 10) ∨ Listed t (KvEntry.brief 1 1 10)) := by
  obtain ⟨groups, trace⟩ := Option.isSome_iff_exists.mp (show (initEffects (KvdbDeps.paged 40)
    oneEntryDisk 0 0).isSome = true by decide +kernel)
  obtain ⟨files, shape⟩ := initEffects_cases trace (by decide)
  refine ⟨groups, trace, oneEntryDisk.apply .truncateLog, ?_, ?_⟩
  · rcases shape with ⟨rfl, -⟩ | rfl
    · exact List.mem_cons_of_mem _ start_mem_crashStates
    · exact List.mem_cons_of_mem _ start_mem_crashStates
  · rintro (⟨found, eq, mem⟩ | ⟨f, hf, -⟩)
    · obtain rfl : (WriteBatch.empty, 0) = found := Option.some.inj (Option.mem_def.mp eq)
      simp [WriteBatch.empty] at mem
    · simp [Disk.getCurrentVersion, Disk.apply, oneEntryDisk] at hf

end Examples

end FrenzyKV.InitCrash
