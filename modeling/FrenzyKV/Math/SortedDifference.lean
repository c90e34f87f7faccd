import Mathlib.Data.List.Sort

namespace SortedDifference

variable {α κ : Type*} [LinearOrder κ] (rank : α → κ)

/-- `std::set_difference` on two lists that ascend by `rank`: copy the first list up to
the next element of the second, then step over that element if it is there. -/
def setDifference : List α → List α → List α
  | xs, [] => xs
  | xs, y :: ys =>
    xs.takeWhile (rank · < rank y) ++
      setDifference (match xs.dropWhile (rank · < rank y) with
        | [] => []
        | z :: zs => if rank z = rank y then zs else z :: zs) ys

theorem stepOver_sublist (y : α) (rest : List α) :
    (match rest with
      | [] => []
      | z :: zs => if rank z = rank y then zs else z :: zs).Sublist rest := by
  cases rest with
  | nil => exact List.Sublist.refl []
  | cons z zs =>
    dsimp only
    split
    · exact List.sublist_cons_self z zs
    · exact List.Sublist.refl _

/-- The copied elements keep their order and their number. -/
theorem setDifference_sublist (xs ys : List α) :
    (setDifference rank xs ys).Sublist xs := by
  induction ys generalizing xs with
  | nil => exact List.Sublist.refl xs
  | cons y ys ih =>
    conv_rhs => rw [← List.takeWhile_append_dropWhile (p := (rank · < rank y)) (l := xs)]
    exact List.Sublist.append (List.Sublist.refl _) ((ih _).trans (stepOver_sublist rank y _))

/-- Nothing is dropped that the second list does not rank. -/
theorem mem_setDifference_of_not_ranked {xs ys : List α} {x : α} (mem : x ∈ xs)
    (free : ∀ y ∈ ys, rank x ≠ rank y) : x ∈ setDifference rank xs ys := by
  induction ys generalizing xs with
  | nil => exact mem
  | cons y ys ih =>
    rw [← List.takeWhile_append_dropWhile (p := (rank · < rank y)) (l := xs)] at mem
    rw [setDifference, List.mem_append]
    rcases List.mem_append.mp mem with before | after
    · exact Or.inl before
    · refine Or.inr (ih ?_ fun z hz => free z (List.mem_cons_of_mem y hz))
      have other : rank x ≠ rank y := free y List.mem_cons_self
      revert after
      cases xs.dropWhile (rank · < rank y) with
      | nil => exact id
      | cons z zs =>
        intro after
        dsimp only
        split
        · rename_i same
          rcases List.mem_cons.mp after with rfl | rest
          · exact absurd same other
          · exact rest
        · exact after

theorem lt_of_mem_takeWhile {xs : List α} {x y : α}
    (mem : x ∈ xs.takeWhile (rank · < rank y)) : rank x < rank y := by
  have all := List.all_takeWhile (l := xs) (p := (rank · < rank y))
  simpa using List.all_eq_true.mp all x mem

theorem le_of_mem_head?_dropWhile {xs : List α} {y z : α}
    (first : z ∈ (xs.dropWhile (rank · < rank y)).head?) : rank y ≤ rank z := by
  have stopped := List.head?_dropWhile_not (rank · < rank y) xs
  rw [Option.mem_def.mp first] at stopped
  simpa using stopped

/-- On strictly ascending lists nothing survives that the second list ranks. -/
theorem not_ranked_of_mem_setDifference {xs ys : List α}
    (ascending : xs.Pairwise (rank · < rank ·)) (sorted : ys.Pairwise (rank · ≤ rank ·))
    {x : α} (mem : x ∈ setDifference rank xs ys) : ∀ y ∈ ys, rank x ≠ rank y := by
  induction ys generalizing xs with
  | nil => simp
  | cons y ys ih =>
    obtain ⟨first, sorted'⟩ := List.pairwise_cons.mp sorted
    have suffix : (xs.dropWhile (rank · < rank y)).Pairwise (rank · < rank ·) :=
      ascending.sublist (List.dropWhile_sublist _)
    have start : ∀ z ∈ (xs.dropWhile (rank · < rank y)).head?, rank y ≤ rank z :=
      fun z first => le_of_mem_head?_dropWhile rank first
    rcases List.mem_append.mp mem with before | after
    · have below := lt_of_mem_takeWhile rank before
      rintro z hz
      rcases List.mem_cons.mp hz with rfl | hz
      · exact below.ne
      · exact (below.trans_le (first z hz)).ne
    · -- what is left of the first list starts above `y`
      have above : ∀ rest : List α, rest.Pairwise (rank · < rank ·) →
          (∀ z ∈ rest, rank y < rank z) → x ∈ setDifference rank rest ys →
          ∀ z ∈ y :: ys, rank x ≠ rank z := by
        intro rest ascends higher hx z hz
        rcases List.mem_cons.mp hz with rfl | hz
        · exact (higher x ((setDifference_sublist rank rest ys).subset hx)).ne'
        · exact ih ascends sorted' hx z hz
      revert suffix start after
      cases xs.dropWhile (rank · < rank y) with
      | nil => exact fun suffix _ after => above [] suffix (by simp) after
      | cons z zs =>
        intro suffix start after
        obtain ⟨beyond, suffix'⟩ := List.pairwise_cons.mp suffix
        have low : rank y ≤ rank z := start z (by simp)
        dsimp only at after
        split at after
        · rename_i same
          exact above zs suffix' (fun w hw => same ▸ beyond w hw) after
        · rename_i other
          have strict : rank y < rank z := lt_of_le_of_ne low (Ne.symm other)
          refine above (z :: zs) suffix (fun w hw => ?_) after
          rcases List.mem_cons.mp hw with rfl | hw
          · exact strict
          · exact strict.trans (beyond w hw)

/-- The difference depends on the ranks only. -/
theorem map_setDifference {β : Type*} (f : β → α) (xs ys : List β) :
    (setDifference (fun x => rank (f x)) xs ys).map f =
      setDifference rank (xs.map f) (ys.map f) := by
  induction ys generalizing xs with
  | nil => rfl
  | cons y ys ih =>
    rw [List.map_cons, setDifference, setDifference, List.map_append, ih, List.takeWhile_map,
      List.dropWhile_map]
    congr 2
    let rest := xs.dropWhile fun x => decide (rank (f x) < rank (f y))
    change List.map f (match rest with
      | [] => []
      | z :: zs => if rank (f z) = rank (f y) then zs else z :: zs) = match rest.map f with
      | [] => []
      | z :: zs => if rank z = rank (f y) then zs else z :: zs
    cases rest with
    | nil => rfl
    | cons z zs =>
      simp only [List.map_cons]
      split <;> rfl

/-- Stepping over `y` takes it out once, in a list that ascends and does not start below `y`. -/
theorem count_stepOver [BEq κ] [LawfulBEq κ] {y : κ} {rest : List κ} (sorted : rest.Pairwise (· ≤ ·))
    (start : ∀ z ∈ rest.head?, y ≤ z) (k : κ) :
    (match rest with
      | [] => []
      | z :: zs => if z = y then zs else z :: zs).count k = rest.count k - [y].count k := by
  cases rest with
  | nil => exact (Nat.zero_sub _).symm
  | cons z zs =>
    dsimp only
    by_cases same : z = y
    · rw [if_pos same, same, ← List.singleton_append, List.count_append, Nat.add_sub_cancel_left]
    · have above : y < z := lt_of_le_of_ne (start z rfl) (Ne.symm same)
      have absent : y ∉ z :: zs := by
        intro mem
        cases List.mem_cons.mp mem with
        | inl eq => exact above.ne eq
        | inr later => exact absurd (List.rel_of_pairwise_cons sorted later) (not_le.mpr above)
      rw [if_neg same]
      by_cases eq : k = y
      · rw [eq, List.count_eq_zero.mpr absent, Nat.zero_sub]
      · rw [List.count_eq_zero.mpr fun mem => eq (List.mem_singleton.mp mem), Nat.sub_zero]

/-- As multisets: every element is taken out as often as the second list has it. -/
theorem count_setDifference [BEq κ] [LawfulBEq κ] {xs ys : List κ} (hx : xs.Pairwise (· ≤ ·))
    (hy : ys.Pairwise (· ≤ ·)) (k : κ) : (setDifference id xs ys).count k = xs.count k - ys.count k := by
  induction ys generalizing xs with
  | nil => rfl
  | cons y ys ih =>
    obtain ⟨first, hy'⟩ := List.pairwise_cons.mp hy
    let before := xs.takeWhile (fun z => decide (z < y))
    let rest := xs.dropWhile (fun z => decide (z < y))
    let stepped := match rest with
      | [] => []
      | z :: zs => if z = y then zs else z :: zs
    have eq : setDifference id xs (y :: ys) = before ++ setDifference id stepped ys := rfl
    have sorted : rest.Pairwise (· ≤ ·) := hx.sublist (List.dropWhile_sublist _)
    have ascends : stepped.Pairwise (· ≤ ·) := sorted.sublist (stepOver_sublist id y rest)
    have taken : stepped.count k = rest.count k - [y].count k :=
      count_stepOver sorted (fun z head => le_of_mem_head?_dropWhile id head) k
    have split : xs.count k = before.count k + rest.count k := by
      rw [← List.count_append, List.takeWhile_append_dropWhile]
    have counts : (y :: ys).count k = [y].count k + ys.count k := by
      rw [← List.count_append, List.singleton_append]
    -- what stands before `y` is not in the second list
    have apart : before.count k = 0 ∨ (y :: ys).count k = 0 := by
      by_cases le : y ≤ k
      · refine .inl (List.count_eq_zero.mpr fun mem => ?_)
        exact absurd (lt_of_mem_takeWhile id mem) (not_lt.mpr le)
      · refine .inr (List.count_eq_zero.mpr fun mem => ?_)
        cases List.mem_cons.mp mem with
        | inl same => exact le same.ge
        | inr later => exact le (first k later)
    rw [eq, List.count_append, ih ascends hy', taken, split]
    omega

/-- A map that keeps ranks keeps differences. -/
theorem setDifference_map {β : Type*} {rank' : β → κ} (f : α → β) (same : ∀ x, rank' (f x) = rank x)
    (xs ys : List α) :
    setDifference rank' (xs.map f) (ys.map f) = (setDifference rank xs ys).map f := by
  induction ys generalizing xs with
  | nil => simp [setDifference]
  | cons y ys ih =>
    have front : (xs.map f).takeWhile (rank' · < rank' (f y)) =
        (xs.takeWhile (rank · < rank y)).map f := by
      rw [List.takeWhile_map]
      simp only [Function.comp_def, same]
    have rest : (xs.map f).dropWhile (rank' · < rank' (f y)) =
        (xs.dropWhile (rank · < rank y)).map f := by
      rw [List.dropWhile_map]
      simp only [Function.comp_def, same]
    rw [List.map_cons, setDifference, setDifference, front, rest, List.map_append, ← ih]
    congr 2
    cases xs.dropWhile (rank · < rank y) with
    | nil => rfl
    | cons z zs =>
      simp only [List.map_cons, same]
      split
      · rfl
      · rfl

end SortedDifference
