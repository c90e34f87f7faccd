import FrenzyKV.Db.Version

/-! Sequences of deltas and the sum of two deltas (`db/version.cc`). Files are told apart by level
and id, as `file_rep::operator==` asserts. -/

namespace FrenzyKV

open SortedDifference

/-- `version_delta::operator+=`. -/
def VersionDelta.append (d other : VersionDelta) : VersionDelta :=
  ⟨d.compacted ++ other.compacted, d.added ++ other.added⟩

namespace Version

variable {v w : Version File} {d d' : VersionDelta} {deltas : List VersionDelta} {f : File}

/-- How often a version lists the file of this level and id. -/
def rankCount (v : Version File) (r : ℕ ×ₗ ℕ) : Nat := (v.map File.rank).count r

theorem rankCount_append (v w : Version File) (r : ℕ ×ₗ ℕ) :
    rankCount (v ++ w) r = rankCount v r + rankCount w r := by
  rw [rankCount, List.map_append, List.count_append]
  rfl

theorem rankCount_sort (v : Version File) (r : ℕ ×ₗ ℕ) : rankCount v.sort r = rankCount v r :=
  ((List.perm_insertionSort _ v).map File.rank).count_eq r

/-- The update adds to, and takes from, the number of times that a file is listed. -/
theorem rankCount_apply (v : Version File) (d : VersionDelta) (r : ℕ ×ₗ ℕ) :
    rankCount (v.apply d) r = rankCount d.added r + (rankCount v r - rankCount d.compacted r) := by
  rw [apply]
  split
  · rename_i empty
    simp only [Bool.and_eq_true, List.isEmpty_iff] at empty
    rw [empty.1, empty.2]
    exact (Nat.zero_add _).symm
  · have ascending : ∀ u : Version File, (u.sort.map File.rank).Pairwise (· ≤ ·) :=
      fun u => List.pairwise_map.mpr (sort_ascending u)
    rw [rankCount_append, ← rankCount_sort v, ← rankCount_sort d.compacted]
    congr 1
    have ranks := map_setDifference id File.rank v.sort (sort d.compacted)
    exact (congrArg (List.count r) ranks).trans (count_setDifference (ascending v) (ascending _) r)

section Identified

variable {u : Version File} (identified : u.Identified)
include identified

theorem rankCount_of_identified (sub : ∀ g ∈ v, g ∈ u) (mem : f ∈ u) :
    rankCount v f.rank = v.count f := by
  induction v with
  | nil => rfl
  | cons g v ih =>
    have same : g.rank = f.rank ↔ g = f :=
      ⟨identified g (sub g List.mem_cons_self) f mem, congrArg File.rank⟩
    have rest := ih fun x hx => sub x (List.mem_cons_of_mem g hx)
    rw [rankCount] at rest
    rw [rankCount, List.map_cons, List.count_cons, List.count_cons, rest]
    congr 1
    exact if_congr (by rw [beq_iff_eq, beq_iff_eq, same]) rfl rfl

theorem mem_iff_rankCount (sub : ∀ g ∈ v, g ∈ u) (mem : f ∈ u) : f ∈ v ↔ 0 < rankCount v f.rank := by
  rw [rankCount_of_identified identified sub mem, List.count_pos_iff]

end Identified

theorem apply_subset (hv : ∀ g ∈ v, g ∈ w) (added : ∀ g ∈ d.added, g ∈ w) : ∀ g ∈ v.apply d, g ∈ w :=
  fun g mem => (mem_of_mem_apply mem).elim (added g) (hv g)

/-- The deltas are applied one after another. -/
def applyAll (v : Version File) (deltas : List VersionDelta) : Version File := deltas.foldl apply v

/-- All files that a version and some deltas speak of. -/
def mentioned (v : Version File) (deltas : List VersionDelta) : List File :=
  v ++ deltas.flatMap fun d => d.added ++ d.compacted

/-- A file is added once, and compacted only by deltas behind the one that added it. -/
structure Scheduled (v : Version File) (deltas : List VersionDelta) : Prop where
  identified : Identified (v.mentioned deltas)
  addedOnce : (v ++ deltas.flatMap VersionDelta.added).Nodup
  notOwn : ∀ d ∈ deltas, ∀ f ∈ d.compacted, f ∉ d.added
  notLater : deltas.Pairwise fun d later => ∀ f ∈ d.compacted, f ∉ later.added

/-- No delta compacts a file that the other one adds. -/
def Independent (d d' : VersionDelta) : Prop :=
  (∀ f ∈ d.compacted, f ∉ d'.added) ∧ ∀ f ∈ d'.compacted, f ∉ d.added

theorem mem_mentioned_cons : f ∈ v.mentioned (d :: deltas) ↔
    f ∈ v ∨ f ∈ d.added ∨ f ∈ d.compacted ∨ ∃ x ∈ deltas, f ∈ x.added ∨ f ∈ x.compacted := by
  simp only [mentioned, List.flatMap_cons, List.mem_append, List.mem_flatMap, or_assoc]

instance (v : Version File) : Decidable v.Identified :=
  inferInstanceAs (Decidable (∀ f ∈ v, ∀ g ∈ v, f.rank = g.rank → f = g))

/-- All files of two deltas are known. -/
theorem mentioned_pair (v : Version File) (d d' : VersionDelta) :
    (∀ g ∈ v, g ∈ v.mentioned [d, d']) ∧
      (∀ g ∈ d.added, g ∈ v.mentioned [d, d']) ∧ (∀ g ∈ d.compacted, g ∈ v.mentioned [d, d']) ∧
      (∀ g ∈ d'.added, g ∈ v.mentioned [d, d']) ∧ ∀ g ∈ d'.compacted, g ∈ v.mentioned [d, d'] := by
  refine ⟨?_, ?_, ?_, ?_, ?_⟩
  · exact fun g mem => mem_mentioned_cons.mpr (.inl mem)
  · exact fun g mem => mem_mentioned_cons.mpr (.inr (.inl mem))
  · exact fun g mem => mem_mentioned_cons.mpr (.inr (.inr (.inl mem)))
  · exact fun g mem => mem_mentioned_cons.mpr (.inr (.inr (.inr ⟨d', List.mem_singleton_self d', .inl mem⟩)))
  · exact fun g mem => mem_mentioned_cons.mpr (.inr (.inr (.inr ⟨d', List.mem_singleton_self d', .inr mem⟩)))

theorem mem_mentioned_swap : f ∈ v.mentioned [d', d] ↔ f ∈ v.mentioned [d, d'] := by
  simp only [mem_mentioned_cons, List.mem_singleton, exists_eq_left]
  grind

theorem apply_apply_subset : ∀ g ∈ (v.apply d).apply d', g ∈ v.mentioned [d, d'] := by
  obtain ⟨in_v, in_added, -, in_added', -⟩ := mentioned_pair v d d'
  exact apply_subset (apply_subset in_v in_added) in_added'

theorem apply_append_subset : ∀ g ∈ v.apply (d.append d'), g ∈ v.mentioned [d, d'] := by
  obtain ⟨in_v, in_added, -, in_added', -⟩ := mentioned_pair v d d'
  exact apply_subset in_v fun g mem => (List.mem_append.mp mem).elim (in_added g) (in_added' g)

/-- Without duplicates the update is the one of sets. -/
theorem mem_apply_iff {u : Version File} (identified : u.Identified) (hv : ∀ g ∈ v, g ∈ u)
    (added : ∀ g ∈ d.added, g ∈ u) (compacted : ∀ g ∈ d.compacted, g ∈ u) (nodup : v.Nodup) :
    f ∈ v.apply d ↔ f ∈ d.added ∨ f ∈ v ∧ f ∉ d.compacted := by
  by_cases known : f ∈ u
  · have once : v.count f ≤ 1 := List.nodup_iff_count_le_one.mp nodup f
    rw [mem_iff_rankCount identified (apply_subset hv added) known, rankCount_apply,
      rankCount_of_identified identified hv known, rankCount_of_identified identified added known,
      rankCount_of_identified identified compacted known, ← List.count_pos_iff, ← List.count_pos_iff,
      ← List.count_eq_zero]
    omega
  · have unknown : f ∉ v.apply d := fun mem => known (apply_subset hv added f mem)
    refine iff_of_false unknown ?_
    rintro (new | ⟨old, -⟩)
    · exact known (added f new)
    · exact known (hv f old)

theorem nodup_apply {u : Version File} (identified : u.Identified) (hv : ∀ g ∈ v, g ∈ u)
    (added : ∀ g ∈ d.added, g ∈ u) (once : (v ++ d.added).Nodup) : (v.apply d).Nodup := by
  rw [List.nodup_iff_count_le_one]
  intro f
  by_cases known : f ∈ u
  · have total := List.nodup_iff_count_le_one.mp once f
    have inside := apply_subset hv added (v := v) (w := u)
    rw [← rankCount_of_identified identified inside known, rankCount_apply,
      rankCount_of_identified identified hv known, rankCount_of_identified identified added known]
    rw [List.count_append] at total
    omega
  · rw [List.count_eq_zero.mpr fun mem => known (apply_subset hv added f mem)]
    exact Nat.zero_le 1

namespace Scheduled

theorem added_disjoint (scheduled : Scheduled v (d :: deltas)) :
    (v ++ d.added).Nodup ∧ (deltas.flatMap VersionDelta.added).Nodup ∧
      ∀ f, f ∈ v ∨ f ∈ d.added → f ∉ deltas.flatMap VersionDelta.added := by
  have once := scheduled.addedOnce
  rw [List.flatMap_cons, ← List.append_assoc, List.nodup_append] at once
  obtain ⟨now, later, apart⟩ := once
  refine ⟨now, later, ?_⟩
  intro f mem later
  exact apart f (List.mem_append.mpr mem) f later rfl

theorem mem_apply (scheduled : Scheduled v (d :: deltas)) :
    f ∈ v.apply d ↔ f ∈ d.added ∨ f ∈ v ∧ f ∉ d.compacted := by
  refine mem_apply_iff scheduled.identified ?_ ?_ ?_ (List.nodup_append.mp scheduled.addedOnce).1
  · exact fun g mem => mem_mentioned_cons.mpr (.inl mem)
  · exact fun g mem => mem_mentioned_cons.mpr (.inr (.inl mem))
  · exact fun g mem => mem_mentioned_cons.mpr (.inr (.inr (.inl mem)))

theorem nodup_apply (scheduled : Scheduled v (d :: deltas)) : (v.apply d).Nodup := by
  refine Version.nodup_apply scheduled.identified ?_ ?_ scheduled.added_disjoint.1
  · exact fun g mem => mem_mentioned_cons.mpr (.inl mem)
  · exact fun g mem => mem_mentioned_cons.mpr (.inr (.inl mem))

/-- The schedule of the deltas that are left. -/
theorem apply (scheduled : Scheduled v (d :: deltas)) : Scheduled (v.apply d) deltas where
  identified := by
    have inside : ∀ g ∈ (v.apply d).mentioned deltas, g ∈ v.mentioned (d :: deltas) := by
      intro g mem
      rw [mem_mentioned_cons]
      rw [mentioned, List.mem_append, List.mem_flatMap] at mem
      rcases mem with now | ⟨x, hx, later⟩
      · cases mem_of_mem_apply now with
        | inl added => exact .inr (.inl added)
        | inr old => exact .inl old
      · exact .inr (.inr (.inr ⟨x, hx, List.mem_append.mp later⟩))
    exact fun f hf g hg => scheduled.identified f (inside f hf) g (inside g hg)
  addedOnce := by
    obtain ⟨-, later, apart⟩ := scheduled.added_disjoint
    refine List.nodup_append.mpr ⟨scheduled.nodup_apply, later, ?_⟩
    intro f now g hg same
    exact apart f (mem_of_mem_apply now).symm (same ▸ hg)
  notOwn x hx := scheduled.notOwn x (List.mem_cons_of_mem d hx)
  notLater := scheduled.notLater.of_cons

end Scheduled

theorem applyAll_cons (v : Version File) (d : VersionDelta) (deltas : List VersionDelta) :
    v.applyAll (d :: deltas) = (v.apply d).applyAll deltas := rfl

theorem mem_applyAll_iff (scheduled : Scheduled v deltas) :
    f ∈ v.applyAll deltas ↔
      (f ∈ v ∨ ∃ d ∈ deltas, f ∈ d.added) ∧ ∀ d ∈ deltas, f ∉ d.compacted := by
  induction deltas generalizing v with
  | nil => simp [applyAll]
  | cons d deltas ih =>
    have own : f ∈ d.added → f ∉ d.compacted :=
      fun new old => scheduled.notOwn d List.mem_cons_self f old new
    have behind : (∃ x ∈ deltas, f ∈ x.added) → f ∉ d.compacted := by
      rintro ⟨x, hx, new⟩ old
      exact List.rel_of_pairwise_cons scheduled.notLater hx f old new
    rw [applyAll_cons, ih scheduled.apply, scheduled.mem_apply, List.forall_mem_cons,
      List.exists_mem_cons_iff]
    constructor
    · rintro ⟨(new | ⟨old, kept⟩) | later, none_left⟩
      · exact ⟨.inr (.inl new), own new, none_left⟩
      · exact ⟨.inl old, kept, none_left⟩
      · exact ⟨.inr (.inr later), behind later, none_left⟩
    · rintro ⟨old | new | later, kept, none_left⟩
      · exact ⟨.inl (.inr ⟨old, kept⟩), none_left⟩
      · exact ⟨.inl (.inl new), none_left⟩
      · exact ⟨.inr later, none_left⟩

theorem nodup_applyAll (scheduled : Scheduled v deltas) : (v.applyAll deltas).Nodup := by
  induction deltas generalizing v with
  | nil => exact (List.nodup_append.mp scheduled.addedOnce).1
  | cons d deltas ih => exact ih scheduled.apply

/-- One delta after the other, in numbers of times that a file is listed. -/
theorem mem_apply_apply_iff_of_known {u : Version File} (identified : u.Identified)
    (sub : ∀ g ∈ v.mentioned [d, d'], g ∈ u) (known : f ∈ u) :
    f ∈ (v.apply d).apply d' ↔ 0 < d'.added.count f ∨
      d'.compacted.count f < d.added.count f + (v.count f - d.compacted.count f) := by
  obtain ⟨in_v, in_added, in_compacted, in_added', in_compacted'⟩ := mentioned_pair v d d'
  have inside : ∀ g ∈ (v.apply d).apply d', g ∈ u := fun g mem => sub g (apply_apply_subset g mem)
  have count : ∀ w : Version File, (∀ g ∈ w, g ∈ v.mentioned [d, d']) → rankCount w f.rank = w.count f :=
    fun w hw => rankCount_of_identified identified (fun g mem => sub g (hw g mem)) known
  rw [mem_iff_rankCount identified inside known, rankCount_apply, rankCount_apply, count v in_v,
    count d.added in_added, count d.compacted in_compacted, count d'.added in_added',
    count d'.compacted in_compacted']
  omega

/-- Independent deltas commute, also when they name files that are not there. -/
theorem mem_apply_apply_comm (identified : Identified (v.mentioned [d, d']))
    (independent : Independent d d') :
    f ∈ (v.apply d).apply d' ↔ f ∈ (v.apply d').apply d := by
  by_cases known : f ∈ v.mentioned [d, d']
  · have left : 0 < d.added.count f → d'.compacted.count f = 0 := fun new =>
      List.count_eq_zero.mpr fun old => independent.2 f old (List.count_pos_iff.mp new)
    have right : 0 < d'.added.count f → d.compacted.count f = 0 := fun new =>
      List.count_eq_zero.mpr fun old => independent.1 f old (List.count_pos_iff.mp new)
    rw [mem_apply_apply_iff_of_known identified (fun _ mem => mem) known,
      mem_apply_apply_iff_of_known identified (fun _ mem => mem_mentioned_swap.mp mem) known]
    omega
  · have other_way : f ∉ (v.apply d').apply d :=
      fun mem => known (mem_mentioned_swap.mp (apply_apply_subset f mem))
    exact iff_of_false (fun mem => known (apply_apply_subset f mem)) other_way

/-- Deltas that arrive in the order of the files leave a duplicate-free list of the files that were added
and not compacted, and independent deltas may swap. -/
theorem applyAll_spec (v : Version File) (deltas : List VersionDelta) (scheduled : Scheduled v deltas) :
    (v.applyAll deltas).Nodup ∧
      {f | f ∈ v.applyAll deltas} =
        ({f | f ∈ v} ∪ {f | ∃ d ∈ deltas, f ∈ d.added}) \ {f | ∃ d ∈ deltas, f ∈ d.compacted} ∧
      ∀ w d d', Identified (mentioned w [d, d']) → Independent d d' →
        {f | f ∈ (w.apply d).apply d'} = {f | f ∈ (w.apply d').apply d} := by
  refine ⟨nodup_applyAll scheduled, ?_, ?_⟩
  · ext f
    rw [Set.mem_ofPred_eq, mem_applyAll_iff scheduled]
    simp only [Set.mem_sdiff, Set.mem_union, Set.mem_ofPred_eq, not_exists, not_and]
  · intro w d d' identified independent
    ext f
    exact mem_apply_apply_comm identified independent

/-- The first file of the database, which two later deltas name, and two more files. -/
theorem applyAll_spec_compacted_twice :
    let v : Version File := [⟨0, 0, 0, default⟩]
    let deltas : List VersionDelta := [⟨[], [⟨0, 1, 1, default⟩]⟩,
      ⟨[⟨0, 0, 0, default⟩, ⟨0, 1, 1, default⟩], [⟨1, 2, 2, default⟩]⟩, ⟨[⟨0, 0, 0, default⟩], []⟩]
    (v.applyAll deltas).Nodup ∧
      {f | f ∈ v.applyAll deltas} =
        ({f | f ∈ v} ∪ {f | ∃ d ∈ deltas, f ∈ d.added}) \ {f | ∃ d ∈ deltas, f ∈ d.compacted} := by
  intro v deltas
  have spec := applyAll_spec v deltas ⟨by decide, by decide, by decide, by decide⟩
  exact ⟨spec.1, spec.2.1⟩

section Append

variable (identified : Identified (v.mentioned [d, d']))
include identified

/-- Applying the sum keeps a file that the first delta adds, whatever the second one compacts. -/
theorem mem_append_iff_of_known (known : f ∈ v.mentioned [d, d']) :
    f ∈ v.apply (d.append d') ↔ 0 < d.added.count f ∨ 0 < d'.added.count f ∨
      d.compacted.count f + d'.compacted.count f < v.count f := by
  obtain ⟨in_v, in_added, in_compacted, in_added', in_compacted'⟩ := mentioned_pair v d d'
  have count : ∀ w : Version File, (∀ g ∈ w, g ∈ v.mentioned [d, d']) → rankCount w f.rank = w.count f :=
    fun w hw => rankCount_of_identified identified hw known
  rw [mem_iff_rankCount identified apply_append_subset known, rankCount_apply, VersionDelta.append,
    rankCount_append, rankCount_append, count v in_v, count d.added in_added, count d'.added in_added',
    count d.compacted in_compacted, count d'.compacted in_compacted']
  omega

theorem append_eq_iff_count :
    {f | f ∈ v.apply (d.append d')} = {f | f ∈ (v.apply d).apply d'} ↔
      ∀ f ∈ d.added, f ∉ d'.added →
        d'.compacted.count f < d.added.count f + (v.count f - d.compacted.count f) := by
  constructor
  · intro same f new other
    have known : f ∈ v.mentioned [d, d'] := mem_mentioned_cons.mpr (.inr (.inl new))
    have sum := (mem_append_iff_of_known identified known).mpr (.inl (List.count_pos_iff.mpr new))
    have kept := (Set.ext_iff.mp same f).mp sum
    have after := (mem_apply_apply_iff_of_known identified (fun _ mem => mem) known).mp kept
    refine after.resolve_left ?_
    rwa [List.count_pos_iff]
  · intro few
    ext f
    by_cases known : f ∈ v.mentioned [d, d']
    · rw [Set.mem_ofPred_eq, Set.mem_ofPred_eq, mem_append_iff_of_known identified known,
        mem_apply_apply_iff_of_known identified (fun _ mem => mem) known]
      by_cases new : f ∈ d.added
      · have often := few f new
        rw [← List.count_pos_iff] at new often
        omega
      · rw [List.count_eq_zero.mpr new]
        omega
    · exact iff_of_false (fun mem => known (apply_append_subset f mem))
        fun mem => known (apply_apply_subset f mem)

/-- The sum of two deltas acts as one after the other if and only if every file that only the first one
adds outlasts what the second one compacts: where nothing is listed twice, if it compacts none of them. -/
theorem append_eq_iff :
    ({f | f ∈ v.apply (d.append d')} = {f | f ∈ (v.apply d).apply d'} ↔
      ∀ f ∈ d.added, f ∉ d'.added →
        d'.compacted.count f < d.added.count f + (v.count f - d.compacted.count f)) ∧
    ((v ++ d.added).Nodup → d'.compacted.Nodup →
      ({f | f ∈ v.apply (d.append d')} = {f | f ∈ (v.apply d).apply d'} ↔
        ∀ f ∈ d.added, f ∉ d'.added → f ∉ d'.compacted)) := by
  have exactly := append_eq_iff_count identified
  refine ⟨exactly, ?_⟩
  intro once compacted_once
  rw [exactly]
  refine forall₃_congr fun f new _ => ?_
  have total := List.nodup_iff_count_le_one.mp once f
  have single := List.nodup_iff_count_le_one.mp compacted_once f
  rw [List.count_append] at total
  rw [← List.count_pos_iff] at new
  rw [← List.count_eq_zero]
  omega

end Append

/-- A flush and the compaction of a file that was there before it. -/
theorem append_eq_iff_flush_compaction :
    let v : Version File := [⟨0, 0, 0, default⟩]
    let d : VersionDelta := ⟨[], [⟨0, 1, 1, default⟩]⟩
    let d' : VersionDelta := ⟨[⟨0, 0, 0, default⟩], [⟨1, 2, 2, default⟩]⟩
    {f | f ∈ v.apply (d.append d')} = {f | f ∈ (v.apply d).apply d'} :=
  (append_eq_iff (by decide)).1.mpr (by decide)

/-- A file that the first delta adds and the second one compacts comes back in the sum. -/
theorem append_keeps_compacted :
    let v : Version File := []
    let d : VersionDelta := ⟨[], [⟨0, 0, 0, default⟩]⟩
    let d' : VersionDelta := ⟨[⟨0, 0, 0, default⟩], []⟩
    Identified (v.mentioned [d, d']) ∧
      {f | f ∈ v.apply (d.append d')} ≠ {f | f ∈ (v.apply d).apply d'} := by
  intro v d d'
  refine ⟨by decide, fun same => ?_⟩
  have kept : (⟨0, 0, 0, default⟩ : File) ∈ (v.apply d).apply d' :=
    (Set.ext_iff.mp same _).mp (by decide)
  exact absurd kept (by decide)

end Version

end FrenzyKV
