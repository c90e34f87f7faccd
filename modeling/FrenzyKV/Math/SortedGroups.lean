import Mathlib.Data.List.SplitBy
import Mathlib.Order.Lattice

namespace SortedGroups

variable {α κ : Type*} [LinearOrder κ] (rank : α → κ)

/-- The runs of equal rank. -/
def groups (xs : List α) : List (List α) :=
  xs.splitBy fun x y => rank x = rank y

variable {rank}

@[simp] theorem flatten_groups (xs : List α) : (groups rank xs).flatten = xs :=
  List.flatten_splitBy _ _

theorem rank_eq_of_mem_group {xs group : List α} (mem : group ∈ groups rank xs) {x y : α}
    (hx : x ∈ group) (hy : y ∈ group) : rank x = rank y := by
  have chain : group.IsChain (fun x y => rank x = rank y) := by
    simpa using List.isChain_of_mem_splitBy mem
  have trans : IsTrans α (fun x y => rank x = rank y) := ⟨fun _ _ _ h k => h.trans k⟩
  have pairs := List.isChain_iff_pairwise.mp chain
  have symm : Std.Symm (fun x y : α => rank x = rank y) := ⟨fun _ _ h => h.symm⟩
  exact List.Pairwise.forall_of_forall (R := fun x y => rank x = rank y) (fun _ _ => rfl) pairs hx hy

/-- In an ascending list, later runs have strictly larger ranks. -/
theorem rank_lt_of_groups_eq {xs group : List α} {before after : List (List α)}
    (sorted : xs.Pairwise (rank · ≤ rank ·)) (eq : groups rank xs = before ++ group :: after)
    {x y : α} (hx : x ∈ group) (hy : y ∈ after.flatten) : rank x < rank y := by
  have all : xs = before.flatten ++ (group ++ after.flatten) := by
    conv_lhs => rw [← @flatten_groups _ _ _ rank xs, eq]
    simp
  have chain := List.isChain_getLast_head_splitBy (fun x y => decide (rank x = rank y)) xs
  change List.IsChain _ (groups rank xs) at chain
  rw [eq] at chain
  have chain' := (List.isChain_append.mp chain).2.1
  cases after with
  | nil => simp at hy
  | cons next rest =>
    obtain ⟨⟨groupNe, nextNe, differ⟩, -⟩ := List.isChain_cons_cons.mp chain'
    rw [all, List.pairwise_append, List.pairwise_append] at sorted
    obtain ⟨-, ⟨inGroup, tail, cross⟩, -⟩ := sorted
    have mem : group ∈ groups rank xs := by simp [eq]
    have toLast := rank_eq_of_mem_group mem hx (List.getLast_mem groupNe)
    have step : rank (group.getLast groupNe) ≤ rank (next.head nextNe) :=
      cross _ (List.getLast_mem groupNe) _ (by simp)
    have strict : rank (group.getLast groupNe) < rank (next.head nextNe) :=
      lt_of_le_of_ne step (by simpa using differ)
    have fromHead : rank (next.head nextNe) ≤ rank y := by
      obtain ⟨first, others, rfl⟩ := List.exists_cons_of_ne_nil nextNe
      rw [List.flatten_cons, List.cons_append] at tail hy
      rcases List.mem_cons.mp hy with rfl | hy
      · exact le_rfl
      · exact List.rel_of_pairwise_cons tail hy
    rw [toLast]
    exact strict.trans_le fromHead

/-- Runs of equal rank are kept by a map that keeps ranks. -/
theorem groups_map {β : Type*} {rank' : β → κ} (f : α → β) (same : ∀ x, rank' (f x) = rank x)
    (xs : List α) : groups rank' (xs.map f) = (groups rank xs).map (List.map f) := by
  have loop : ∀ (xs : List α) (last : α) (run : List α) (done : List (List α)),
      List.splitBy.loop (fun x y => decide (rank' x = rank' y)) (xs.map f) (f last) (run.map f)
          (done.map (List.map f)) =
        (List.splitBy.loop (fun x y => decide (rank x = rank y)) xs last run done).map (List.map f) := by
    intro xs
    induction xs with
    | nil =>
      intro last run done
      simp [List.splitBy.loop]
    | cons x xs ih =>
      intro last run done
      simp only [List.map_cons, List.splitBy.loop, same]
      split
      · exact ih x (last :: run) done
      · simpa using ih x [] ((last :: run).reverse :: done)
  cases xs with
  | nil => rfl
  | cons x xs => exact loop xs x [] []

end SortedGroups
