import Mathlib.Data.List.Basic

namespace RemoveIf

variable {α : Type*} (p : α → Bool) (moved : α → α)

/-- The loop of `std::remove_if` over a vector `kept ++ gap ++ rest`: the next element that stays
is moved to the front of the gap, where the element it was moved from closes the gap. -/
def removeLoop (kept gap : List α) : List α → List α × List α
  | [] => (kept, gap)
  | x :: rest =>
    if p x then removeLoop kept (gap ++ [x]) rest
    else removeLoop (kept ++ [x]) (gap.tail ++ [moved x]) rest

/-- `std::remove_if`: the elements before the iterator that it returns, and those from there on.
What stands before the first element to remove is not touched. -/
def removeIf : List α → List α × List α
  | [] => ([], [])
  | x :: rest =>
    if p x then removeLoop p moved [] [x] rest
    else (x :: (removeIf rest).1, (removeIf rest).2)

/-- What is left of an element in its old place. -/
def leave (x : α) : α := if p x then x else moved x

theorem removeLoop_eq (before : List α) {kept gap : List α} (rest : List α)
    (keeps : kept = before.filter (!p ·)) (leaves : gap = (before.map (leave p moved)).drop kept.length)
    (shorter : kept.length < before.length) :
    removeLoop p moved kept gap rest = ((before ++ rest).filter (!p ·),
      ((before ++ rest).map (leave p moved)).drop ((before ++ rest).filter (!p ·)).length) := by
  induction rest generalizing before kept gap with
  | nil => rw [removeLoop, List.append_nil, leaves, keeps]
  | cons x rest ih =>
    have later : before ++ x :: rest = (before ++ [x]) ++ rest := by
      rw [List.append_assoc, List.singleton_append]
    have length : (before.map (leave p moved)).length = before.length := List.length_map _
    rw [removeLoop, later]
    by_cases hit : p x = true
    · have stays : leave p moved x = x := if_pos hit
      rw [if_pos hit]
      apply ih (before ++ [x])
      · rw [List.filter_append, keeps]
        simp [hit]
      · rw [List.map_append, List.drop_append_of_le_length (by omega), leaves]
        simp [stays]
      · rw [List.length_append]
        omega
    · have goes : leave p moved x = moved x := if_neg hit
      rw [if_neg hit]
      apply ih (before ++ [x])
      · rw [List.filter_append, keeps]
        simp [hit]
      · rw [List.map_append, List.length_append, List.length_singleton,
          List.drop_append_of_le_length (by omega), leaves, List.tail_drop]
        simp [goes]
      · rw [List.length_append, List.length_append]
        exact Nat.add_lt_add_right shorter _

/-- The elements that stay are in front in their order; behind them each place holds its own
element when that was to be removed, and what a move left of it otherwise. -/
theorem removeIf_eq (cells : List α) : removeIf p moved cells = (cells.filter (!p ·),
    (cells.map (leave p moved)).drop (cells.filter (!p ·)).length) := by
  induction cells with
  | nil => rfl
  | cons x rest ih =>
    rw [removeIf]
    by_cases hit : p x = true
    · have stays : leave p moved x = x := if_pos hit
      rw [if_pos hit]
      apply removeLoop_eq p moved [x] rest
      · simp [hit]
      · simp [stays]
      · exact Nat.zero_lt_one
    · rw [if_neg hit, ih]
      simp [hit]

end RemoveIf
