import FrenzyKV.Db.CompactionTrigger
import FrenzyKV.Store.SequentialRuns
import Mathlib.Algebra.BigOperators.Ring.List
import Mathlib.Algebra.Order.BigOperators.Group.List

namespace FrenzyKV.SequentialRuns

open Framework

/-- How far the entries of a file can still move down. -/
def height (deps : KvdbDeps) (f : File) : Nat :=
  (deps.opt.maxLevel - f.level) * f.table.entries.length

def potential (deps : KvdbDeps) (v : Version File) : Nat := (v.map (height deps)).sum

/-- The step finds a level to compact. -/
def compacts (deps : KvdbDeps) (s : Store File) : Action → Bool
  | .flush _ => false
  | .mayCompact from_ r => (levelToCompact deps s.current from_ r).isSome

/-- How many entries the step brings into the store. -/
def entriesFlushed : Action → Nat
  | .flush m => m.storage.length
  | .mayCompact _ _ => 0

section Lists

variable {α : Type*} {l l' : List α}

theorem sum_map_le_of_subset (distinct : l.Nodup) (sub : l ⊆ l') (w : α → Nat) :
    (l.map w).sum ≤ (l'.map w).sum := by
  obtain ⟨part, perm, sublist⟩ := List.subperm_of_subset distinct sub
  rw [← (perm.map w).sum_eq]
  exact (sublist.map w).sum_le_sum fun _ _ => Nat.zero_le _

theorem sum_map_filter_add (p : α → Bool) (w : α → Nat) :
    ((l.filter p).map w).sum + ((l.filter (!p ·)).map w).sum = (l.map w).sum := by
  rw [← List.sum_append, ← List.map_append]
  exact ((List.filter_append_perm p l).map w).sum_eq

end Lists

variable {deps : KvdbDeps} {s s' : Store File} {ts : List Sstable} {level clock : Nat}
  {compacted : List File}

theorem potential_createFiles : potential deps (createFiles deps level clock ts) =
    (deps.opt.maxLevel - level) * (ts.flatMap Sstable.entries).length := by
  induction ts generalizing clock with
  | nil => rfl
  | cons t ts ih =>
    rw [createFiles, potential, List.map_cons, List.sum_cons, List.flatMap_cons, List.length_append,
      Nat.mul_add]
    exact congrArg _ ih

/-- No file of the list has the rank of this one. -/
def free (compacted : List File) (f : File) : Bool := compacted.all (f.rank ≠ ·.rank)

theorem potential_install (level : Nat) (ts : List Sstable) (compacted : List File)
    (sound : s.Sound deps) :
    potential deps (s.install deps level ts compacted).current ≤
      (deps.opt.maxLevel - level) * (ts.flatMap Sstable.entries).length +
        potential deps (s.current.filter (free compacted)) := by
  rw [← @potential_createFiles deps ts level s.created, potential, potential, potential,
    ← List.sum_append, ← List.map_append]
  refine sum_map_le_of_subset (sound.install_distinct.imp fun ne same => ne (congrArg _ same)) ?_ _
  intro f mem
  cases sound.mem_install mem with
  | inl created => exact List.mem_append_left _ created
  | inr kept =>
    refine List.mem_append_right _ (List.mem_filter.mpr ⟨kept.1, List.all_eq_true.mpr fun c hc => ?_⟩)
    exact decide_eq_true (kept.2 c hc)

/-- A compaction that takes anything takes a file of its level. -/
theorem exists_level_of_compactionInputs {v : Version File} {l : Nat} {r : ThreshRatio} {files : List File}
    (chosen : compactionInputs deps v l r = some files) (nonempty : files ≠ []) :
    ∃ f ∈ files, f.level = l := by
  obtain ⟨all, eq, rfl⟩ := Option.map_eq_some_iff.mp chosen
  generalize all.length - r.dropped all.length = n at nonempty ⊢
  have first_of : ∀ first rest, (sortByLastWriteTime (withLevel v l)).dropLast = first :: rest →
      ∀ more, all = first :: more → ∃ f ∈ all.take n, f.level = l := by
    rintro first rest dropped more rfl
    have inLevel : first ∈ withLevel v l := by
      refine mem_sortByLastWriteTime.mp (List.dropLast_subset _ ?_)
      exact dropped ▸ List.mem_cons_self
    cases n with
    | zero => exact absurd rfl nonempty
    | succ n => exact ⟨first, List.mem_cons_self, (mem_withLevel.mp inLevel).2⟩
  simp only [compactingFiles] at eq
  split at eq
  · simp at eq
  · split at eq
    · obtain rfl := Option.some.inj eq
      exact absurd List.take_nil nonempty
    · rename_i first rest dropped
      split_ifs at eq with few deep
      · exact first_of first rest dropped _ (Option.some.inj eq).symm
      · exact first_of first rest dropped _ (Option.some.inj eq).symm

theorem potential_flush {m : Memtable} (sound : s.Sound deps) (done : flushToDisk deps s m = some s') :
    potential deps s'.current ≤ potential deps s.current + deps.opt.maxLevel * m.storage.length := by
  obtain ⟨ts, flushed, rfl⟩ := Option.map_eq_some_iff.mp done
  have bound := potential_install 0 ts [] sound
  have all : s.current.filter (free []) = s.current := List.filter_eq_self.mpr fun _ _ => rfl
  rw [(flushTables_spec flushed).2, List.length_map, all, Nat.sub_zero, Nat.add_comm] at bound
  exact bound

theorem entries_ne_nil {filter : FilterPolicy} {t : Sstable} (wf : t.Wf filter) : t.entries ≠ [] := by
  intro empty
  have first := wf.first
  rw [empty] at first
  cases first

/-- The new tables of a compaction hold no more entries than its inputs, and those of its own level
were one level higher. -/
theorem potential_compact {l : Nat} {r : ThreshRatio} {delta : VersionDelta} (sound : s.Sound deps)
    (done : compact deps s.current l r = some (ts, delta)) :
    potential deps (s.install deps (l + 1) ts delta.compacted).current + 1 ≤ potential deps s.current := by
  obtain ⟨deep, -, chosen, out⟩ := compact_spec sound.wf done
  let inputs := s.current.filter (!free delta.compacted ·)
  have inputs_iff : ∀ f, f ∈ inputs ↔ f ∈ delta.compacted := by
    intro f
    rw [List.mem_filter, free, List.not_all_eq_any_not, List.any_eq_true]
    constructor
    · rintro ⟨hf, c, hc, ranked⟩
      have hc' := (compactionInputs_mem chosen hc).1
      have same : f.rank = c.rank := by simpa using ranked
      exact sound.eq_of_time hf hc' (sound.time_eq_of_rank hf hc' same) ▸ hc
    · exact fun hf => ⟨(compactionInputs_mem chosen hf).1, f, hf, by simp⟩
  have nonempty : ∀ f ∈ inputs, 0 < f.table.entries.length := fun f hf =>
    List.length_pos_of_ne_nil (entries_ne_nil (sound.wf f (List.mem_filter.mp hf).1))
  have fewer : (ts.flatMap Sstable.entries).length ≤
      (inputs.map fun f => f.table.entries.length).sum := by
    have distinct : (ts.flatMap Sstable.entries).Nodup :=
      out.apart.imp fun lt same => lt.ne (congrArg KvEntry.userKey same)
    have sub : ts.flatMap Sstable.entries ⊆ inputs.flatMap fun f => f.table.entries := by
      intro e he
      obtain ⟨f, hf, inFile⟩ := out.sub (mem_tablesContents_iff.mpr he)
      exact List.mem_flatMap.mpr ⟨f, (inputs_iff f).mpr hf, inFile⟩
    rw [← List.length_flatMap]
    exact (List.subperm_of_subset distinct sub).length_le
  have lower : (inputs.map fun f => (deps.opt.maxLevel - (l + 1)) * f.table.entries.length).sum <
      potential deps inputs := by
    have level : ∀ f ∈ inputs, f.level = l ∨ f.level = l + 1 :=
      fun f hf => (compactionInputs_mem chosen ((inputs_iff f).mp hf)).2
    obtain ⟨first, taken, own⟩ : ∃ f ∈ delta.compacted, f.level = l := by
      refine exists_level_of_compactionInputs chosen fun nothing => ?_
      obtain ⟨t, ht⟩ := List.exists_mem_of_ne_nil _ out.nonempty
      obtain ⟨e, he⟩ := List.exists_mem_of_ne_nil t.entries (entries_ne_nil (out.wf t ht))
      obtain ⟨f, hf, -⟩ := out.sub ⟨t, ht, he⟩
      exact absurd (nothing ▸ hf) List.not_mem_nil
    refine List.sum_lt_sum _ _ (fun f hf => ?_) ⟨first, (inputs_iff first).mpr taken, ?_⟩
    · exact Nat.mul_le_mul_right _ (by have := level f hf; omega)
    · rw [height, own]
      exact Nat.mul_lt_mul_of_pos_right (by omega) (nonempty first ((inputs_iff first).mpr taken))
  have whole : potential deps (s.current.filter (free delta.compacted)) + potential deps inputs =
      potential deps s.current := sum_map_filter_add _ _
  have bound := potential_install (l + 1) ts delta.compacted sound
  have moved := Nat.mul_le_mul_left (deps.opt.maxLevel - (l + 1)) fewer
  rw [← List.sum_map_mul_left] at moved
  omega

theorem sound_step {a : Action} (sound : s.Sound deps) (taken : step deps s a = some s') :
    s'.Sound deps := by
  cases a with
  | flush m => exact sound.flush (Option.ite_none_right_eq_some.mp taken).2
  | mayCompact from_ r => exact sound.mayCompact taken

/-- A compaction is paid by the entries that it moves down. -/
theorem potential_mayCompact {from_ : Nat} {r : ThreshRatio} (sound : s.Sound deps)
    (done : FrenzyKV.mayCompact deps s from_ r = some s') :
    levelToCompact deps s.current from_ r = none ∧ s' = s ∨
      potential deps s'.current + 1 ≤ potential deps s.current := by
  rw [FrenzyKV.mayCompact] at done
  cases chosen : levelToCompact deps s.current from_ r with
  | none =>
    rw [chosen] at done
    exact Or.inl ⟨rfl, (Option.some.inj done).symm⟩
  | some l =>
    rw [chosen] at done
    obtain ⟨⟨ts, delta⟩, compacted, rfl⟩ := Option.map_eq_some_iff.mp done
    have nonempty := (compact_spec sound.wf compacted).2.2.2.nonempty
    refine Or.inr ?_
    rw [if_neg (by simpa using nonempty)]
    exact potential_compact sound compacted

/-- In every run of flushes and compactions at most `max_level` compactions are made for each entry
that is flushed. -/
theorem compactions_bounded {as : List Action} (ran : (machine deps).run Store.empty as = some s) :
    (machine deps).count (compacts deps) Store.empty as + potential deps s.current ≤
      deps.opt.maxLevel * (as.map entriesFlushed).sum := by
  rw [← List.sum_map_mul_left]
  have total := Machine.count_add_le (I := Store.Sound deps) (p := compacts deps)
    (fun s => potential deps s.current) (fun a => deps.opt.maxLevel * entriesFlushed a)
    (fun _ _ _ sound taken => sound_step sound taken) ?_ (Store.sound_empty deps) ran
  · exact total.trans (Nat.zero_add _).le
  · intro s a s' sound taken
    cases a with
    | flush m =>
      have paid := potential_flush sound (Option.ite_none_right_eq_some.mp taken).2
      change 0 + _ ≤ _
      rw [Nat.zero_add]
      exact paid
    | mayCompact from_ r =>
      rcases potential_mayCompact sound taken with ⟨none_left, rfl⟩ | paid
      · simp [compacts, none_left]
      · have one : (if compacts deps s (.mayCompact from_ r) then 1 else 0) ≤ 1 := by split <;> decide
        omega

theorem compactions_bounded_movingDown :
    ∃ s, (machine plainDeps).run Store.empty movingDown = some s ∧
      (machine plainDeps).count (compacts plainDeps) Store.empty movingDown + potential plainDeps s.current ≤
        plainDeps.opt.maxLevel * (movingDown.map entriesFlushed).sum := by
  obtain ⟨s, ran⟩ := Option.isSome_iff_exists.mp
    (show ((machine plainDeps).run Store.empty movingDown).isSome = true by decide +kernel)
  exact ⟨s, ran, compactions_bounded ran⟩

theorem settled_of_replicate {from_ n : Nat} {r : ThreshRatio} (sound : s.Sound deps)
    (ran : (machine deps).run s (List.replicate n (.mayCompact from_ r)) = some s')
    (enough : potential deps s.current < n) : levelToCompact deps s'.current from_ r = none := by
  induction n generalizing s with
  | zero => exact absurd enough (Nat.not_lt_zero _)
  | succ n ih =>
    obtain ⟨mid, taken, rest⟩ := Option.bind_eq_some_iff.mp ran
    rcases potential_mayCompact sound taken with ⟨none_left, rfl⟩ | paid
    · rw [Machine.eq_of_run_replicate taken rest]
      exact none_left
    · exact ih (sound_step (a := .mayCompact from_ r) sound taken) rest (by omega)

/-- Calling `may_compact` over and over leaves no level with too many files, once there were more calls
than entries could move down. -/
theorem levels_drained {from_ n : Nat} {r : ThreshRatio} (reached : Reach (machine deps) (fun _ _ => True) s)
    (ran : (machine deps).run s (List.replicate n (.mayCompact from_ r)) = some s')
    (enough : potential deps s.current < n) :
    ∀ l, from_ ≤ l → l ≤ deps.opt.maxLevel →
      deps.opt.isAppropriateLevelFileNumber l (withLevel s'.current l).length r = true := by
  have sound : s.Sound deps := by
    refine reached.invariant (P := Store.Sound deps) ?_
      fun _ _ _ sound _ taken => sound_step sound taken
    rintro s rfl
    exact Store.sound_empty deps
  intro l low high
  have inRange : l ∈ List.range' from_ (deps.opt.maxLevel + 1 - from_) := by
    rw [List.mem_range'_1]
    omega
  simpa [needCompaction] using List.find?_eq_none.mp (settled_of_replicate sound ran enough) l inRange

/-- Four files at level 0, where two are allowed. -/
def fourFlushes : List Action :=
  [flushKeys 1 [4, 9], flushKeys 3 [2], flushKeys 4 [3, 4], flushKeys 6 [5]]

theorem levels_drained_fourFlushes :
    ∃ s s', (machine plainDeps).run Store.empty fourFlushes = some s ∧
      (machine plainDeps).run s (List.replicate 40 (.mayCompact 0 1)) = some s' ∧
      plainDeps.opt.isAppropriateLevelFileNumber 0 (withLevel s.current 0).length 1 = false ∧
      ∀ l, 0 ≤ l → l ≤ plainDeps.opt.maxLevel →
        plainDeps.opt.isAppropriateLevelFileNumber l (withLevel s'.current l).length 1 = true := by
  obtain ⟨s, ran, s', drained, full, enough⟩ :
      ∃ s ∈ (machine plainDeps).run Store.empty fourFlushes,
        ∃ s' ∈ (machine plainDeps).run s (List.replicate 40 (.mayCompact 0 1)),
          plainDeps.opt.isAppropriateLevelFileNumber 0 (withLevel s.current 0).length 1 = false ∧
            potential plainDeps s.current < 40 := by decide +kernel
  have reached : Reach (machine plainDeps) (fun _ _ => True) s :=
    Machine.reach_of_run _ (fun _ _ => trivial) (.init rfl) ran
  exact ⟨s, s', ran, drained, full, levels_drained reached drained enough⟩

end FrenzyKV.SequentialRuns
