import Mathlib.Data.List.Destutter
import Mathlib.Order.Lattice

namespace Merge

variable {α κ μ : Type*} [LinearOrder κ] (rank : α → κ)

/-- Put the elements below `x` first, then `x`, then what `rest` makes of the others. -/
def mergeInto (x : α) (rest : List α → List α) : List α → List α
  | [] => x :: rest []
  | y :: ys => if rank y < rank x then y :: mergeInto x rest ys else x :: rest (y :: ys)

/-- `std::merge`: of equal elements those of the first list come first. -/
def stdMerge : List α → List α → List α
  | [] => id
  | x :: xs => mergeInto rank x (stdMerge xs)

theorem mergeInto_perm (x : α) (xs : List α) {rest : List α → List α}
    (keep : ∀ zs, (rest zs).Perm (xs ++ zs)) (ys : List α) :
    (mergeInto rank x rest ys).Perm (x :: xs ++ ys) := by
  induction ys with
  | nil => simpa [mergeInto] using (keep []).cons x
  | cons y ys ih =>
    rw [mergeInto]
    split
    · exact (ih.cons y).trans (List.perm_middle.symm)
    · exact (keep (y :: ys)).cons x

theorem stdMerge_perm (xs ys : List α) : (stdMerge rank xs ys).Perm (xs ++ ys) := by
  induction xs generalizing ys with
  | nil => exact List.Perm.refl _
  | cons x xs ih => exact mergeInto_perm rank x xs ih ys

theorem stdMerge_sorted {xs ys : List α} (left : xs.Pairwise (rank · ≤ rank ·))
    (right : ys.Pairwise (rank · ≤ rank ·)) :
    (stdMerge rank xs ys).Pairwise (rank · ≤ rank ·) := by
  induction xs generalizing ys with
  | nil => exact right
  | cons x xs ih =>
    obtain ⟨xLow, left'⟩ := List.pairwise_cons.mp left
    change (mergeInto rank x (stdMerge rank xs) ys).Pairwise (rank · ≤ rank ·)
    have finish : ∀ zs : List α, zs.Pairwise (rank · ≤ rank ·) → (∀ z ∈ zs, rank x ≤ rank z) →
        (x :: stdMerge rank xs zs).Pairwise (rank · ≤ rank ·) := by
      intro zs sorted low
      refine List.pairwise_cons.mpr ⟨fun z hz => ?_, ih left' sorted⟩
      rcases List.mem_append.mp ((stdMerge_perm rank xs zs).mem_iff.mp hz) with hz | hz
      · exact xLow z hz
      · exact low z hz
    induction ys with
    | nil => simpa [mergeInto] using finish [] List.Pairwise.nil (by simp)
    | cons y ys ihY =>
      obtain ⟨yLow, right'⟩ := List.pairwise_cons.mp right
      rw [mergeInto]
      split
      · rename_i below
        refine List.pairwise_cons.mpr ⟨fun z hz => ?_, ihY right'⟩
        have perm := mergeInto_perm rank x xs (stdMerge_perm rank xs) ys
        rcases List.mem_cons.mp (perm.mem_iff.mp hz) with rfl | hz
        · exact below.le
        · rcases List.mem_append.mp hz with hz | hz
          · exact below.le.trans (xLow z hz)
          · exact yLow z hz
      · rename_i above
        refine finish (y :: ys) right fun z hz => ?_
        rcases List.mem_cons.mp hz with rfl | hz
        · exact not_lt.mp above
        · exact (not_lt.mp above).trans (yLow z hz)

theorem strict_of_adjacent_ne {key : α → κ} {xs : List α}
    (chain : xs.IsChain (key · ≠ key ·)) (sorted : xs.Pairwise (key · ≥ key ·)) :
    xs.Pairwise (key · > key ·) := by
  induction xs with
  | nil => exact List.Pairwise.nil
  | cons x xs ih =>
    obtain ⟨high, tail⟩ := List.pairwise_cons.mp sorted
    cases xs with
    | nil => simp
    | cons y xs =>
      obtain ⟨differ, chain'⟩ := List.isChain_cons_cons.mp chain
      have strict := ih chain' tail
      have first : key x > key y := lt_of_le_of_ne (high y List.mem_cons_self) differ.symm
      refine List.pairwise_cons.mpr ⟨fun z hz => ?_, strict⟩
      rcases List.mem_cons.mp hz with rfl | hz
      · exact first
      · exact lt_trans (List.rel_of_pairwise_cons strict hz) first

section Unique

variable [DecidableEq μ] (key : α → μ)

/-- `std::unique`: keep the first of adjacent elements with one key. -/
def unique (xs : List α) : List α := xs.destutter (key · ≠ key ·)

theorem unique_sublist (xs : List α) : (unique key xs).Sublist xs :=
  List.destutter_sublist _ xs

theorem exists_mem_destutter' {x : α} {xs : List α}
    (sorted : (x :: xs).Pairwise (rank · ≥ rank ·)) {y : α} (mem : y ∈ x :: xs) :
    ∃ z ∈ xs.destutter' (key · ≠ key ·) x, key z = key y ∧ rank y ≤ rank z := by
  induction xs generalizing x with
  | nil =>
    obtain rfl := List.mem_singleton.mp mem
    exact ⟨y, by simp, rfl, le_rfl⟩
  | cons w xs ih =>
    have first : x ∈ (w :: xs).destutter' (key · ≠ key ·) x := List.mem_destutter' _ _ _
    obtain ⟨xHigh, tail⟩ := List.pairwise_cons.mp sorted
    rcases List.mem_cons.mp mem with rfl | mem
    · exact ⟨y, first, rfl, le_rfl⟩
    · by_cases differ : key x ≠ key w
      · rw [List.destutter'_cons_pos (R := fun a b => key a ≠ key b) _ differ]
        obtain ⟨z, hz, zKey, zRank⟩ := ih tail mem
        exact ⟨z, List.mem_cons_of_mem _ hz, zKey, zRank⟩
      · rw [List.destutter'_cons_neg (R := fun a b => key a ≠ key b) _ differ]
        have sorted' : (x :: xs).Pairwise (rank · ≥ rank ·) :=
          sorted.sublist (by simp)
        rcases List.mem_cons.mp mem with rfl | mem
        · exact ⟨x, List.mem_destutter' _ _ _, not_not.mp differ, xHigh y (by simp)⟩
        · exact ih sorted' (List.mem_cons_of_mem _ mem)

/-- In a descending list the kept elements stand for all, with the largest rank of a key. -/
theorem exists_mem_unique {xs : List α} (sorted : xs.Pairwise (rank · ≥ rank ·)) {y : α}
    (mem : y ∈ xs) : ∃ z ∈ unique key xs, key z = key y ∧ rank y ≤ rank z := by
  cases xs with
  | nil => simp at mem
  | cons x xs => exact exists_mem_destutter' rank key sorted mem

/-- Keys that descend with the list descend strictly afterwards. -/
theorem unique_strict [LinearOrder μ] {xs : List α} (sorted : xs.Pairwise (key · ≥ key ·)) :
    (unique key xs).Pairwise (key · > key ·) :=
  strict_of_adjacent_ne (List.isChain_destutter _ xs) (sorted.sublist (unique_sublist key xs))

end Unique

end Merge
