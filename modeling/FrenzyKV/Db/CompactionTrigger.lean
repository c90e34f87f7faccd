import FrenzyKV.Db.DbLocal
import Mathlib.Tactic.Linarith

/-! What the trigger of a compaction says about its level and about the number of its inputs
(`db/db_local.cc`, `persistent/compaction.cc`, `persistent/compaction_policy_oldest.cc`). -/

namespace FrenzyKV

variable {deps : KvdbDeps} {v : Version File} {l : Nat} {threshRatio : ThreshRatio} {r : ℚ}

/-- The number of files of a level above which `need_compaction` holds; zero stands for no limit. -/
def Options.fileNumberLimit (opt : Options) (l : Nat) (threshRatio : ThreshRatio) : Nat :=
  threshRatio.allowed (opt.allowedLevelFileNumber l)

theorem needCompaction_iff : needCompaction deps v l threshRatio = true ↔
    0 < deps.opt.fileNumberLimit l threshRatio ∧
      deps.opt.fileNumberLimit l threshRatio < (withLevel v l).length := by
  rw [needCompaction, Options.isAppropriateLevelFileNumber, Bool.not_eq_true', Bool.or_eq_false_iff,
    decide_eq_false_iff_not, not_le, beq_eq_false_iff_ne, Nat.pos_iff_ne_zero, and_comm]
  rfl

/-- A version with `n` files, all of one level. -/
def filesOfLevel (l n : Nat) : Version File := (List.range n).map fun i => ⟨l, i, i, default⟩

/-- The next-level files that overlap the oldest file of the level. -/
def overlappingNext (v : Version File) (l : Nat) : List File :=
  match (sortByLastWriteTime (withLevel v l)).head? with
  | none => []
  | some oldest => (withLevel v (l + 1)).filter fun f => oldest.table.overlapped f.table

/-- All files of the level but one, and from level 2 on the next-level files that the oldest one
overlaps. -/
def policyInputs (v : Version File) (l : Nat) : Nat :=
  (withLevel v l).length - 1 + if 1 < l then (overlappingNext v l).length else 0

theorem length_pulledFiles {first : File}
    (oldest : (sortByLastWriteTime (withLevel v l)).head? = some first) :
    (pulledFiles deps v l first).length = (overlappingNext v l).length := by
  have perm : (deps.sortByFileSize (sortByLastWriteTime (withLevel v (l + 1)))).Perm
      (withLevel v (l + 1)) :=
    (deps.sortByFileSize_perm _).trans (List.perm_insertionSort _ _)
  rw [pulledFiles, overlappingNext, oldest]
  exact (perm.filter _).length_eq

theorem compactingFiles_of_two (policy : 2 ≤ deps.opt.allowedLevelFileNumber l)
    (two : 2 ≤ (withLevel v l).length) :
    ∃ files, compactingFiles deps v l = some files ∧ files.length = policyInputs v l := by
  have count : (sortByLastWriteTime (withLevel v l)).length = (withLevel v l).length :=
    List.length_insertionSort _ _
  rw [compactingFiles, policyInputs]
  cases sorted : sortByLastWriteTime (withLevel v l) with
  | nil =>
    rw [sorted, List.length_nil] at count
    omega
  | cons first later =>
    cases later with
    | nil =>
      rw [sorted, List.length_singleton] at count
      omega
    | cons second rest =>
      have kept : (first :: (second :: rest).dropLast).length = (withLevel v l).length - 1 := by
        rw [← count, sorted]
        simp
      simp only [List.isEmpty_cons, Bool.false_eq_true, if_false, List.dropLast_cons_cons]
      rw [if_neg (not_lt.mpr policy)]
      by_cases deep : 1 < l
      · have pulled := @length_pulledFiles deps v l first (congrArg List.head? sorted)
        rw [if_pos deep, if_pos deep]
        refine ⟨_, rfl, ?_⟩
        rw [← kept, ← pulled, ← List.length_append]
      · rw [if_neg deep, if_neg deep]
        exact ⟨_, rfl, kept⟩

/-- Cutting `m` files by the threshold never takes more than there are. -/
theorem dropped_le (m : Nat) (positive : 0 < r) : (ThreshRatio.ofRat r).dropped m ≤ m := by
  have below : (m * (1 - r) : ℚ).floor < m + 1 := by
    rw [Rat.floor_lt_iff]
    have := mul_nonneg (Nat.cast_nonneg (α := ℚ) m) positive.le
    push_cast
    linarith
  rw [ThreshRatio.dropped_ofRat]
  omega

theorem two_le_rest_iff (m : Nat) (small : r ≤ 1) :
    2 ≤ m - (ThreshRatio.ofRat r).dropped m ↔ 1 < m * r := by
  have nonneg : 0 ≤ (m * (1 - r) : ℚ).floor := by
    rw [Rat.le_floor_iff]
    exact mul_nonneg (Nat.cast_nonneg m) (by linarith)
  have exact_ : (m * (1 - r) : ℚ).floor < (m : ℤ) - 1 ↔ 1 < m * r := by
    rw [Rat.floor_lt_iff]
    push_cast
    constructor
    · intro lt
      linarith
    · intro lt
      linarith
  rw [← exact_, ThreshRatio.dropped_ofRat]
  omega

/-- What `compacting_files`, `compact` and `merge_tables` rely on: a newest file to leave out, no more
files dropped than there are, and two tables to merge. -/
structure Mergeable (deps : KvdbDeps) (v : Version File) (l : Nat) (threshRatio : ThreshRatio) : Prop where
  newest : 1 ≤ (withLevel v l).length
  dropped : ∃ files, compactingFiles deps v l = some files ∧
    threshRatio.dropped files.length ≤ files.length
  inputs : ∃ files, compactionInputs deps v l threshRatio = some files ∧ 2 ≤ files.length

/-- A level that `need_compaction` chose has two inputs left if and only if the threshold leaves more
than one of the files that the policy took. -/
theorem mergeable_iff (policy : 2 ≤ deps.opt.allowedLevelFileNumber l) (positive : 0 < r)
    (small : r ≤ 1) (need : needCompaction deps v l (.ofRat r) = true) :
    Mergeable deps v l (.ofRat r) ↔ 1 < policyInputs v l * r := by
  obtain ⟨limited, many⟩ := needCompaction_iff.mp need
  obtain ⟨files, chosen, count⟩ := compactingFiles_of_two policy (by omega : 2 ≤ (withLevel v l).length)
  have inputs : compactionInputs deps v l (.ofRat r) =
      some (files.take (files.length - (ThreshRatio.ofRat r).dropped files.length)) := by
    rw [compactionInputs, chosen, Option.map_some]
  have rest : (files.take (files.length - (ThreshRatio.ofRat r).dropped files.length)).length =
      files.length - (ThreshRatio.ofRat r).dropped files.length := by
    rw [List.length_take]
    omega
  rw [← count, ← two_le_rest_iff files.length small, ← rest]
  constructor
  · intro mergeable
    obtain ⟨left, eq, two⟩ := mergeable.inputs
    obtain rfl := Option.some.inj (inputs.symm.trans eq)
    exact two
  · intro two
    exact ⟨by omega, ⟨files, chosen, dropped_le files.length positive⟩, ⟨_, inputs, two⟩⟩

/-- The usual threshold of one, on level 0 with three files of which two are allowed. -/
theorem mergeable_three_files :
    Mergeable (KvdbDeps.plain Options.twoFileLevels) (filesOfLevel 0 3) 0 (.ofRat 1) :=
  (mergeable_iff (by decide) one_pos le_rfl (by decide +kernel)).mpr (by decide +kernel)

/-- Two files where two are allowed and the threshold is seven tenths: one is left. -/
theorem not_mergeable_two_files :
    let deps := KvdbDeps.plain Options.twoFileLevels
    2 ≤ deps.opt.allowedLevelFileNumber 0 ∧ needCompaction deps (filesOfLevel 0 2) 0 (.ofRat (7 / 10)) = true ∧
      ¬ Mergeable deps (filesOfLevel 0 2) 0 (.ofRat (7 / 10)) ∧ compact deps (filesOfLevel 0 2) 0 (.ofRat (7 / 10)) = none := by
  intro deps
  have left : compactionInputs deps (filesOfLevel 0 2) 0 (.ofRat (7 / 10)) = some (filesOfLevel 0 1) := by
    decide +kernel
  refine ⟨by decide, by decide +kernel, ?_, ?_⟩
  · intro mergeable
    obtain ⟨files, eq, two⟩ := mergeable.inputs
    obtain rfl := Option.some.inj (left.symm.trans eq)
    exact absurd two (by decide)
  · rw [compact, if_neg (by decide), left]
    rfl

end FrenzyKV
