import Mathlib.Algebra.GroupWithZero.Nat
import Mathlib.Data.List.Basic

variable {α : Type*} {size : Nat}

structure Chunked (α : Type*) (size : Nat) where
  full : List (List α)
  last : List α
  whole : ∀ b ∈ full, b.length = size
  fits : last.length ≤ size

namespace Chunked

def empty : Chunked α size := ⟨[], [], List.forall_mem_nil _, Nat.zero_le _⟩

def blocks (c : Chunked α size) : List (List α) := c.full ++ [c.last]

def contents (c : Chunked α size) : List α := c.blocks.flatten

/-- The room in the last chunk. -/
def left (c : Chunked α size) : Nat := size - c.last.length

/-- Begin a new chunk behind a last one that is full. -/
def grow (c : Chunked α size) (filled : c.left = 0) : Chunked α size where
  full := c.full ++ [c.last]
  last := []
  whole := by
    have := c.fits
    rw [left] at filled
    rw [List.forall_mem_append]
    exact ⟨c.whole, List.forall_mem_singleton.mpr (by omega)⟩
  fits := Nat.zero_le _

def extend (c : Chunked α size) (xs : List α) (room : xs.length ≤ c.left) : Chunked α size where
  full := c.full
  last := c.last ++ xs
  whole := c.whole
  fits := by
    have := c.fits
    rw [left] at room
    rw [List.length_append]
    omega

variable {c : Chunked α size}

@[simp] theorem contents_grow (filled : c.left = 0) : (c.grow filled).contents = c.contents := by
  simp [contents, blocks, grow]

@[simp] theorem contents_extend {xs : List α} (room : xs.length ≤ c.left) :
    (c.extend xs room).contents = c.contents ++ xs := by
  simp [contents, blocks, extend]

@[simp] theorem left_grow (filled : c.left = 0) : (c.grow filled).left = size := rfl

theorem sum_lengths (c : Chunked α size) : (c.blocks.map List.length).sum = c.contents.length :=
  List.length_flatten.symm

theorem length_flatten_whole {full : List (List α)} (whole : ∀ b ∈ full, b.length = size) :
    full.flatten.length = full.length * size := by
  rw [List.length_flatten, List.map_congr_left whole, List.map_const', List.sum_replicate_nat]

theorem length_contents (c : Chunked α size) :
    c.contents.length = c.full.length * size + c.last.length := by
  rw [contents, blocks, List.flatten_append, List.flatten_singleton, List.length_append,
    length_flatten_whole c.whole]

/-- Behind whole chunks the sequence goes on with the next one. -/
theorem drop_contents {i : Nat} (inside : i ≤ c.full.length) :
    c.contents.drop (i * size) = (c.blocks.drop i).flatten := by
  have front : (c.full.take i).flatten.length = i * size := by
    rw [length_flatten_whole fun b mem => c.whole b (List.mem_of_mem_take mem), List.length_take,
      Nat.min_eq_left inside]
  have split : c.contents = (c.full.take i).flatten ++ (c.blocks.drop i).flatten := by
    rw [← List.flatten_append, blocks, List.drop_append_of_le_length inside, ← List.append_assoc,
      List.take_append_drop]
    rfl
  rw [split]
  exact List.drop_left' front

/-- The chunk of an offset and what stands behind it, where the offset is in a chunk or at the end of a
last one that has room. -/
theorem chunk_at {off : Nat} (positive : 0 < size) (inside : off ≤ c.contents.length)
    (room : off = c.contents.length → c.left ≠ 0) :
    ∃ b rest, c.blocks.drop (off / size) = b :: rest ∧ off % size ≤ b.length ∧
      b.drop (off % size) ++ rest.flatten = c.contents.drop off ∧
      (b.length ≤ off % size → rest = []) ∧ ∀ x ∈ rest.dropLast, x ≠ [] := by
  have small := Nat.mod_lt off positive
  have parts := Nat.div_add_mod off size
  have total := c.length_contents
  have fits := c.fits
  rw [left] at room
  have below : off / size ≤ c.full.length := by
    by_contra beyond
    have := Nat.mul_le_mul_right size (Nat.succ_le_of_lt (Nat.not_le.mp beyond))
    rw [Nat.succ_mul] at this
    rw [Nat.mul_comm] at parts
    omega
  have tail : c.contents.drop off = (c.blocks.drop (off / size)).flatten.drop (off % size) := by
    rw [← drop_contents below, List.drop_drop, Nat.mul_comm, parts]
  rw [tail]
  rcases Nat.lt_or_eq_of_le below with whole | last
  · have cut : c.blocks.drop (off / size) =
        c.full[off / size] :: (c.full.drop (off / size + 1) ++ [c.last]) := by
      rw [blocks, List.drop_append_of_le_length below, List.drop_eq_getElem_cons whole]
      rfl
    have length := c.whole _ (List.getElem_mem whole)
    refine ⟨_, _, cut, by omega, ?_, fun short => absurd short (by omega), ?_⟩
    · rw [cut, List.flatten_cons, List.drop_append_of_le_length (by omega)]
    · intro x mem
      rw [List.dropLast_concat] at mem
      have := c.whole x (List.mem_of_mem_drop mem)
      exact List.ne_nil_of_length_pos (by omega)
  · have cut : c.blocks.drop (off / size) = [c.last] := by
      rw [blocks, last]
      exact List.drop_left
    rw [last, Nat.mul_comm] at parts
    refine ⟨c.last, [], cut, by omega, ?_, fun _ => rfl, List.forall_mem_nil _⟩
    rw [cut, List.flatten_nil, List.append_nil, List.flatten_singleton]

/-- At the end of a last chunk that is full there is no chunk. -/
theorem no_chunk_at_end (positive : 0 < size) (filled : c.left = 0) :
    c.blocks.length ≤ c.contents.length / size := by
  have fits := c.fits
  rw [left] at filled
  have whole : c.contents.length = (c.full.length + 1) * size := by
    rw [length_contents, Nat.succ_mul]
    omega
  rw [whole, Nat.mul_div_cancel _ positive]
  exact Nat.le_of_eq List.length_append

end Chunked
