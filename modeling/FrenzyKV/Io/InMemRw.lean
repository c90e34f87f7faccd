import FrenzyKV.Math.Bytes
import FrenzyKV.Math.Chunked

/-! A file in memory over buffers of one size (`io/in_mem_rw.cc`, `io/inner_buffer.h`). -/

namespace FrenzyKV

open Bytes

/-- The buffers with their valid bytes, and the cursor of sequential reads. -/
structure InMemRw where
  blockSize : Nat
  positive : 0 < blockSize
  chunks : Chunked UInt8 blockSize
  cursor : Nat

namespace InMemRw

def make (blockSize : Nat) (positive : 0 < blockSize) : InMemRw :=
  ⟨blockSize, positive, Chunked.empty, 0⟩

def contents (f : InMemRw) : ByteString := f.chunks.contents

/-- `next_writable_buffer`: the last buffer if it has room, and a new one otherwise. -/
def nextWritableBuffer (f : InMemRw) : InMemRw :=
  if filled : f.chunks.left = 0 then { f with chunks := f.chunks.grow filled } else f

/-- `buffer::append` on the last buffer, which takes only what fits. -/
def appendToLast (f : InMemRw) (bytes : ByteString) : InMemRw :=
  if room : bytes.length ≤ f.chunks.left then { f with chunks := f.chunks.extend bytes room } else f

/-- The loop of `append`, one buffer a round and one round at least. -/
def appendLoop : Nat → InMemRw → ByteString → InMemRw
  | 0, f, _ => f
  | fuel + 1, f, bytes =>
    let f := f.nextWritableBuffer
    let appended := min f.chunks.left bytes.length
    let f := f.appendToLast (bytes.take appended)
    if (bytes.drop appended).isEmpty then f else appendLoop fuel f (bytes.drop appended)

def append (f : InMemRw) (bytes : ByteString) : InMemRw × Nat :=
  (appendLoop (bytes.length + 1) f bytes, bytes.length)

/-- `writable_span`, with the size of the span. -/
def writableSpan (f : InMemRw) : InMemRw × Nat :=
  (f.nextWritableBuffer, f.nextWritableBuffer.chunks.left)

/-- `commit`, for bytes at the front of the writable span. The buffer asserts that they fit. -/
def commit (f : InMemRw) (bytes : ByteString) : Option InMemRw :=
  let f := f.nextWritableBuffer
  if bytes.length ≤ f.chunks.left then some (f.appendToLast bytes) else none

/-- The loop of `target_spans`. -/
def laterSpans (destSize : Nat) : Nat → List ByteString → List ByteString
  | _, [] => []
  | selected, b :: bs =>
    if selected < destSize then b :: laterSpans destSize (selected + b.length) bs else []

/-- `target_spans`; no result stands for a buffer or a subspan that is out of range. -/
def targetSpans (f : InMemRw) (offset destSize : Nat) : Option (List ByteString) :=
  match f.chunks.blocks.drop (offset / f.blockSize) with
  | [] => none
  | b :: bs =>
    if offset % f.blockSize ≤ b.length then
      let firstSpan := b.drop (offset % f.blockSize)
      some (firstSpan :: laterSpans destSize firstSpan.length bs)
    else none

/-- The loop of `read`: what it copies to a destination with room for `n` bytes. -/
def readSpans : Nat → List ByteString → ByteString
  | _, [] => []
  | n, s :: rest =>
    let readed := min n s.length
    if readed = 0 then [] else s.take readed ++ readSpans (n - readed) rest

/-- `read` at an offset. Its result is the number of the bytes. -/
def readAt (f : InMemRw) (offset destSize : Nat) : Option ByteString :=
  (f.targetSpans offset destSize).map (readSpans destSize)

/-- The sequential `read`. -/
def read (f : InMemRw) (destSize : Nat) : Option (InMemRw × ByteString) :=
  (f.readAt f.cursor destSize).map fun bytes => ({ f with cursor := f.cursor + bytes.length }, bytes)

def fileSize (f : InMemRw) : Nat := (f.chunks.blocks.map List.length).sum

/-- `dump_to`: the spans that it appends, and its assertion. -/
def dumpTo (f : InMemRw) : Option (List ByteString) :=
  let spans := f.chunks.blocks.filter (!·.isEmpty)
  if (spans.map List.length).sum = f.fileSize then some spans else none

variable {f : InMemRw} {bytes : ByteString}

@[simp] theorem contents_make (blockSize : Nat) (positive : 0 < blockSize) :
    (make blockSize positive).contents = [] := rfl

theorem fileSize_eq (f : InMemRw) : f.fileSize = f.contents.length := f.chunks.sum_lengths

theorem nextWritableBuffer_of_filled (filled : f.chunks.left = 0) :
    f.nextWritableBuffer = { f with chunks := f.chunks.grow filled } := dif_pos filled

theorem nextWritableBuffer_of_room (room : f.chunks.left ≠ 0) : f.nextWritableBuffer = f := dif_neg room

/-- The bytes stand behind the others, and nothing else changed. -/
structure Extends (f : InMemRw) (bytes : ByteString) (f' : InMemRw) : Prop where
  contents : f'.contents = f.contents ++ bytes
  cursor : f'.cursor = f.cursor
  blockSize : f'.blockSize = f.blockSize

theorem Extends.trans {f' f'' : InMemRw} {more : ByteString} (first : Extends f bytes f')
    (later : Extends f' more f'') : Extends f (bytes ++ more) f'' where
  contents := by rw [later.contents, first.contents, List.append_assoc]
  cursor := later.cursor.trans first.cursor
  blockSize := later.blockSize.trans first.blockSize

theorem nextWritableBuffer_spec (f : InMemRw) :
    0 < f.nextWritableBuffer.chunks.left ∧ Extends f [] f.nextWritableBuffer := by
  by_cases filled : f.chunks.left = 0
  · rw [nextWritableBuffer_of_filled filled]
    refine ⟨f.positive, ?_, rfl, rfl⟩
    rw [List.append_nil]
    exact Chunked.contents_grow filled
  · rw [nextWritableBuffer_of_room filled]
    exact ⟨Nat.pos_of_ne_zero filled, (List.append_nil _).symm, rfl, rfl⟩

theorem appendToLast_spec (room : bytes.length ≤ f.chunks.left) : Extends f bytes (f.appendToLast bytes) := by
  rw [appendToLast, dif_pos room]
  exact ⟨Chunked.contents_extend room, rfl, rfl⟩

/-- Each round puts at least one byte away. -/
theorem appendLoop_spec (fuel : Nat) (f : InMemRw) (bytes : ByteString) (enough : bytes.length < fuel) :
    Extends f bytes (appendLoop fuel f bytes) := by
  induction fuel generalizing f bytes with
  | zero => exact absurd enough (Nat.not_lt_zero _)
  | succ fuel ih =>
    obtain ⟨room, next⟩ := f.nextWritableBuffer_spec
    let n := min f.nextWritableBuffer.chunks.left bytes.length
    have fits : (bytes.take n).length ≤ f.nextWritableBuffer.chunks.left := by
      rw [List.length_take]
      omega
    have filled : Extends f (bytes.take n) (f.nextWritableBuffer.appendToLast (bytes.take n)) :=
      next.trans (appendToLast_spec fits)
    rw [appendLoop]
    change Extends f bytes (if (bytes.drop n).isEmpty then f.nextWritableBuffer.appendToLast (bytes.take n)
      else appendLoop fuel (f.nextWritableBuffer.appendToLast (bytes.take n)) (bytes.drop n))
    by_cases done : (bytes.drop n).isEmpty
    · rw [if_pos done]
      rw [List.isEmpty_iff, List.drop_eq_nil_iff] at done
      rw [List.take_of_length_le done] at filled ⊢
      exact filled
    · rw [if_neg done]
      have shorter : (bytes.drop n).length < fuel := by
        rw [List.isEmpty_iff, List.drop_eq_nil_iff] at done
        rw [List.length_drop]
        omega
      have all := filled.trans (ih _ _ shorter)
      rwa [List.take_append_drop] at all

theorem append_spec (f : InMemRw) (bytes : ByteString) : Extends f bytes (f.append bytes).1 :=
  appendLoop_spec _ f bytes (Nat.lt_succ_self _)

/-- The span has room for what the last buffer leaves, or for a whole buffer. -/
theorem writableSpan_size (f : InMemRw) :
    f.writableSpan.2 = f.blockSize - f.contents.length % f.blockSize := by
  have sizes : ∀ c : Chunked UInt8 f.blockSize, c.left ≠ 0 →
      c.left = f.blockSize - c.contents.length % f.blockSize := by
    intro c room
    rw [Chunked.left] at room
    rw [c.length_contents, Nat.mul_add_mod_self_right, Nat.mod_eq_of_lt (by omega), Chunked.left]
  by_cases filled : f.chunks.left = 0
  · have grown := sizes (f.chunks.grow filled) f.positive.ne'
    rw [Chunked.contents_grow] at grown
    rw [writableSpan, nextWritableBuffer_of_filled filled]
    exact grown
  · rw [writableSpan, nextWritableBuffer_of_room filled]
    exact sizes f.chunks filled

/-- One round of copying: the whole span, or as much of it as there is room for. -/
theorem readSpans_cons (n : Nat) (s : ByteString) (later : List ByteString) (rest : ByteString)
    (empty : s = [] → rest = [])
    (ih : readSpans (n - s.length) later = rest.take (n - s.length)) :
    readSpans n (s :: later) = (s ++ rest).take n := by
  rw [readSpans]
  by_cases none_copied : min n s.length = 0
  · rw [if_pos none_copied]
    cases Nat.min_eq_zero_iff.mp none_copied with
    | inl full => rw [full, List.take_zero]
    | inr short =>
      have nothing := List.length_eq_zero_iff.mp short
      rw [nothing, empty nothing, List.append_nil, List.take_nil]
  · rw [if_neg none_copied, List.take_append, ← ih]
    by_cases all : s.length ≤ n
    · rw [Nat.min_eq_right all, List.take_of_length_le (Nat.le_refl _), List.take_of_length_le all]
    · have nothing : n - s.length = 0 := by omega
      rw [Nat.min_eq_left (by omega), Nat.sub_self, nothing]

/-- Reading over the later spans gives the bytes behind the selected ones. -/
theorem readSpans_laterSpans (n selected : Nat) (bs : List ByteString)
    (nonempty : ∀ b ∈ bs.dropLast, b ≠ []) :
    readSpans (n - selected) (laterSpans n selected bs) = bs.flatten.take (n - selected) := by
  induction bs generalizing selected with
  | nil => rw [laterSpans, readSpans, List.flatten_nil, List.take_nil]
  | cons b bs ih =>
    rw [laterSpans, List.flatten_cons]
    by_cases more : selected < n
    · rw [if_pos more]
      have behind : ∀ x ∈ bs.dropLast, x ≠ [] := by
        intro x mem
        cases bs with
        | nil => cases mem
        | cons c bs => exact nonempty x (List.mem_cons_of_mem b mem)
      have last : b = [] → bs.flatten = [] := by
        intro empty
        cases bs with
        | nil => rfl
        | cons c bs => exact absurd empty (nonempty b List.mem_cons_self)
      apply readSpans_cons _ _ _ _ last
      rw [Nat.sub_sub]
      exact ih _ behind
    · rw [if_neg more, Nat.sub_eq_zero_of_le (Nat.not_lt.mp more), List.take_zero]
      rfl

/-- A read gets the bytes from the offset on, as many as there is room for. -/
theorem readAt_eq_some {offset : Nat} (destSize : Nat) (inside : offset ≤ f.contents.length)
    (room : offset = f.contents.length → f.chunks.left ≠ 0) :
    f.readAt offset destSize = some ((f.contents.drop offset).take destSize) := by
  obtain ⟨b, bs, cut, fits, tail, atEnd, nonempty⟩ := Chunked.chunk_at f.positive inside room
  rw [readAt, targetSpans, cut]
  simp only [if_pos fits, Option.map_some]
  have last : b.drop (offset % f.blockSize) = [] → bs.flatten = [] := by
    intro empty
    rw [atEnd (List.drop_eq_nil_iff.mp empty)]
    rfl
  have copied := readSpans_cons destSize _ _ _ last
    (readSpans_laterSpans destSize (b.drop (offset % f.blockSize)).length bs nonempty)
  rw [copied, tail]
  rfl

/-- At the end of a last buffer that is exactly full there is no buffer to read from. -/
theorem readAt_eq_none {offset : Nat} (destSize : Nat) (atEnd : offset = f.contents.length)
    (filled : f.chunks.left = 0) : f.readAt offset destSize = none := by
  have beyond : f.chunks.blocks.drop (offset / f.blockSize) = [] := by
    rw [atEnd]
    exact List.drop_eq_nil_of_le (Chunked.no_chunk_at_end f.positive filled)
  rw [readAt, targetSpans, beyond]
  rfl

/-- A dump appends all bytes, without the empty span of a new last buffer. -/
theorem dumpTo_spec (f : InMemRw) : ∃ spans, f.dumpTo = some spans ∧ spans.flatten = f.contents := by
  have all : (f.chunks.blocks.filter (!·.isEmpty)).flatten = f.contents := by
    rw [contents, Chunked.contents]
    induction f.chunks.blocks with
    | nil => rfl
    | cons b bs ih =>
      cases b with
      | nil => exact ih
      | cons x xs =>
        rw [List.filter_cons_of_pos rfl, List.flatten_cons, List.flatten_cons, ih]
  refine ⟨_, if_pos ?_, all⟩
  rw [fileSize_eq, ← all, List.length_flatten]

/-- A call on the file. `writeSpan` is `writable_span`, then bytes written to it and committed. -/
inductive Op
  | append (bytes : ByteString)
  | writeSpan (bytes : ByteString)
  | readAt (offset destSize : Nat)
  | read (destSize : Nat)
  | dumpTo
  | fileSize
deriving DecidableEq

inductive Result
  | count (n : Nat)
  | bytes (read : ByteString)
  | done
deriving DecidableEq

def step (f : InMemRw) : Op → Option (InMemRw × Result)
  | .append bytes => some ((f.append bytes).1, .count (f.append bytes).2)
  | .writeSpan bytes => (f.writableSpan.1.commit bytes).map (·, .done)
  | .readAt offset destSize => (f.readAt offset destSize).map fun bytes => (f, .bytes bytes)
  | .read destSize => (f.read destSize).map fun done => (done.1, .bytes done.2)
  | .dumpTo => f.dumpTo.map fun spans => (f, .bytes spans.flatten)
  | .fileSize => some (f, .count f.fileSize)

def run (f : InMemRw) : List Op → Option (List Result)
  | [] => some []
  | o :: os => (f.step o).bind fun next => (next.1.run os).map (next.2 :: ·)

/-- What the file is for: one byte string that grows, and a cursor in it. -/
structure GrowingString where
  contents : ByteString
  cursor : Nat

namespace GrowingString

def step (s : GrowingString) : Op → GrowingString × Result
  | .append bytes => (⟨s.contents ++ bytes, s.cursor⟩, .count bytes.length)
  | .writeSpan bytes => (⟨s.contents ++ bytes, s.cursor⟩, .done)
  | .readAt offset destSize => (s, .bytes ((s.contents.drop offset).take destSize))
  | .read destSize =>
    let bytes := (s.contents.drop s.cursor).take destSize
    (⟨s.contents, s.cursor + bytes.length⟩, .bytes bytes)
  | .dumpTo => (s, .bytes s.contents)
  | .fileSize => (s, .count s.contents.length)

def run (s : GrowingString) : List Op → List Result
  | [] => []
  | o :: os => (s.step o).2 :: (s.step o).1.run os

/-- A commit stays within its span, and an offset is not behind the end. -/
def Admits (blockSize : Nat) (s : GrowingString) : Op → Prop
  | .writeSpan bytes => bytes.length ≤ blockSize - s.contents.length % blockSize
  | .readAt offset _ => offset ≤ s.contents.length
  | _ => True

def AdmitsAll (blockSize : Nat) (s : GrowingString) : List Op → Prop
  | [] => True
  | o :: os => s.Admits blockSize o ∧ (s.step o).1.AdmitsAll blockSize os

instance (blockSize : Nat) (s : GrowingString) : (o : Op) → Decidable (s.Admits blockSize o)
  | .append _ | .read _ | .dumpTo | .fileSize => isTrue trivial
  | .writeSpan bytes =>
    inferInstanceAs (Decidable (bytes.length ≤ blockSize - s.contents.length % blockSize))
  | .readAt offset _ => inferInstanceAs (Decidable (offset ≤ s.contents.length))

instance decidableAdmitsAll (blockSize : Nat) (s : GrowingString) :
    (os : List Op) → Decidable (s.AdmitsAll blockSize os)
  | [] => isTrue trivial
  | o :: os =>
    have _later : Decidable ((s.step o).1.AdmitsAll blockSize os) := decidableAdmitsAll blockSize _ os
    inferInstanceAs (Decidable (s.Admits blockSize o ∧ (s.step o).1.AdmitsAll blockSize os))

end GrowingString

structure Represents (f : InMemRw) (s : GrowingString) : Prop where
  contents : f.contents = s.contents
  cursor : f.cursor = s.cursor
  inside : s.cursor ≤ s.contents.length

/-- The call reads at the end of the file while the last buffer is exactly full. -/
def ReadsBehindFull (f : InMemRw) : Op → Prop
  | .readAt offset _ => offset = f.fileSize ∧ f.chunks.left = 0
  | .read _ => f.cursor = f.fileSize ∧ f.chunks.left = 0
  | _ => False

/-- No call of a run reads behind a full last buffer. -/
def ReadsInside (f : InMemRw) : List Op → Prop
  | [] => True
  | o :: os => ¬ f.ReadsBehindFull o ∧ ∀ next, f.step o = some next → next.1.ReadsInside os

instance (f : InMemRw) : (o : Op) → Decidable (f.ReadsBehindFull o)
  | .append _ | .writeSpan _ | .dumpTo | .fileSize => isFalse id
  | .readAt offset _ => inferInstanceAs (Decidable (offset = f.fileSize ∧ f.chunks.left = 0))
  | .read _ => inferInstanceAs (Decidable (f.cursor = f.fileSize ∧ f.chunks.left = 0))

instance decidableReadsInside (f : InMemRw) : (os : List Op) → Decidable (f.ReadsInside os)
  | [] => isTrue trivial
  | o :: os =>
    have _later : ∀ next : InMemRw × Result, Decidable (next.1.ReadsInside os) :=
      fun next => decidableReadsInside next.1 os
    inferInstanceAs (Decidable (¬ f.ReadsBehindFull o ∧ ∀ next ∈ f.step o, next.1.ReadsInside os))

theorem commit_spec (room : bytes.length ≤ f.writableSpan.2) :
    ∃ f', f.writableSpan.1.commit bytes = some f' ∧ Extends f bytes f' := by
  obtain ⟨left, next⟩ := f.nextWritableBuffer_spec
  have committed : f.writableSpan.1.commit bytes = some (f.nextWritableBuffer.appendToLast bytes) := by
    change (if bytes.length ≤ f.nextWritableBuffer.nextWritableBuffer.chunks.left then
      some (f.nextWritableBuffer.nextWritableBuffer.appendToLast bytes) else none) = _
    rw [nextWritableBuffer_of_room left.ne']
    exact if_pos room
  exact ⟨_, committed, next.trans (appendToLast_spec room)⟩

theorem step_eq_none {o : Op} (behind : f.ReadsBehindFull o) : f.step o = none := by
  cases o with
  | readAt offset destSize =>
    have read := readAt_eq_none destSize (behind.1.trans f.fileSize_eq) behind.2
    rw [InMemRw.step, read]
    rfl
  | read destSize =>
    have read := readAt_eq_none destSize (behind.1.trans f.fileSize_eq) behind.2
    rw [InMemRw.step, InMemRw.read, read]
    rfl
  | append bytes => exact behind.elim
  | writeSpan bytes => exact behind.elim
  | dumpTo => exact behind.elim
  | fileSize => exact behind.elim

section Step

variable {s : GrowingString} {o : Op} (represents : f.Represents s)
include represents

/-- Away from a full end every call does what it does to the byte string. -/
theorem Represents.step (admits : s.Admits f.blockSize o) (free : ¬ f.ReadsBehindFull o) :
    ∃ f', f.step o = some (f', (s.step o).2) ∧ f'.Represents (s.step o).1 ∧ f'.blockSize = f.blockSize := by
  obtain ⟨contents, cursor, inside⟩ := represents
  have grown : ∀ {bytes : ByteString} {f' : InMemRw}, Extends f bytes f' →
      f'.Represents ⟨s.contents ++ bytes, s.cursor⟩ := by
    intro bytes f' extended
    refine ⟨by rw [extended.contents, contents], extended.cursor.trans cursor, ?_⟩
    change s.cursor ≤ (s.contents ++ bytes).length
    rw [List.length_append]
    omega
  cases o with
  | append bytes =>
    have extended := f.append_spec bytes
    exact ⟨_, rfl, grown extended, extended.blockSize⟩
  | writeSpan bytes =>
    have room : bytes.length ≤ f.writableSpan.2 := by
      rw [writableSpan_size, contents]
      exact admits
    obtain ⟨f', committed, extended⟩ := commit_spec room
    refine ⟨f', ?_, grown extended, extended.blockSize⟩
    rw [InMemRw.step, committed]
    rfl
  | readAt offset destSize =>
    have read := readAt_eq_some destSize (by rw [contents]; exact admits) fun atEnd filled =>
      free ⟨atEnd.trans f.fileSize_eq.symm, filled⟩
    refine ⟨f, ?_, ⟨contents, cursor, inside⟩, rfl⟩
    rw [InMemRw.step, read, contents]
    rfl
  | read destSize =>
    have read := readAt_eq_some destSize (by rw [contents, cursor]; exact inside) fun atEnd filled =>
      free ⟨atEnd.trans f.fileSize_eq.symm, filled⟩
    refine ⟨{ f with cursor := f.cursor + ((f.contents.drop f.cursor).take destSize).length }, ?_, ?_, rfl⟩
    · rw [InMemRw.step, InMemRw.read, read, contents, cursor]
      rfl
    · refine ⟨contents, by rw [contents, cursor]; rfl, ?_⟩
      change s.cursor + ((s.contents.drop s.cursor).take destSize).length ≤ s.contents.length
      rw [List.length_take, List.length_drop]
      omega
  | dumpTo =>
    obtain ⟨spans, dumped, all⟩ := f.dumpTo_spec
    refine ⟨f, ?_, ⟨contents, cursor, inside⟩, rfl⟩
    rw [InMemRw.step, dumped, Option.map_some, all, contents]
    rfl
  | fileSize =>
    refine ⟨f, ?_, ⟨contents, cursor, inside⟩, rfl⟩
    rw [InMemRw.step, fileSize_eq, contents]
    rfl

/-- From a state that represents a string, exactly the runs that read inside answer as the string does. -/
theorem Represents.run_iff {os : List Op} (admits : s.AdmitsAll f.blockSize os) :
    f.run os = some (s.run os) ↔ f.ReadsInside os := by
  induction os generalizing f s with
  | nil => exact iff_of_true rfl trivial
  | cons o os ih =>
    obtain ⟨now, later⟩ := admits
    by_cases behind : f.ReadsBehindFull o
    · refine iff_of_false (fun ran => ?_) fun reads => reads.1 behind
      rw [run, step_eq_none behind] at ran
      cases ran
    · obtain ⟨f', taken, represents', sizes⟩ := represents.step now behind
      rw [← sizes] at later
      have rest := ih represents' later
      have outputs : f.run (o :: os) = some (s.run (o :: os)) ↔
          f'.run os = some ((s.step o).1.run os) := by
        rw [run, taken, Option.bind_some, GrowingString.run, Option.map_eq_some_iff]
        constructor
        · rintro ⟨results, ran, eq⟩
          rw [ran, (List.cons.inj eq).2]
        · exact fun ran => ⟨_, ran, rfl⟩
      rw [outputs, rest]
      constructor
      · intro reads
        refine ⟨behind, fun next eq => ?_⟩
        obtain rfl := Option.some.inj (taken.symm.trans eq)
        exact reads
      · exact fun reads => reads.2 _ taken

end Step

/-- The calls on a new file answer as those on one growing byte string do, if and only if none of them
reads at the end of the file while the last buffer is exactly full. -/
theorem run_make_iff {blockSize : Nat} (positive : 0 < blockSize) (os : List Op)
    (admits : GrowingString.AdmitsAll blockSize ⟨[], 0⟩ os) :
    (make blockSize positive).run os = some (GrowingString.run ⟨[], 0⟩ os) ↔
      (make blockSize positive).ReadsInside os :=
  Represents.run_iff ⟨rfl, rfl, Nat.le_refl 0⟩ admits

/-- Two appends over a buffer boundary, a read over it, one at the end, and a sequential one. -/
theorem run_make_short :
    let os := [.append [1, 2], .append [3, 4], .readAt 1 2, .readAt 4 1, .read 5, .dumpTo]
    GrowingString.AdmitsAll 3 ⟨[], 0⟩ os ∧ (make 3 (by decide)).run os =
      some [.count 2, .count 2, .bytes [2, 3], .bytes [], .bytes [1, 2, 3, 4], .bytes [1, 2, 3, 4]] := by
  intro os
  have admits : GrowingString.AdmitsAll 3 ⟨[], 0⟩ os := by decide
  exact ⟨admits, (run_make_iff _ os admits).mpr (by decide +kernel)⟩

/-- A read at the end of one buffer of four bytes that is exactly full. -/
theorem run_make_full_end :
    let os := [.append [1, 2, 3, 4], .readAt 4 1]
    GrowingString.AdmitsAll 4 ⟨[], 0⟩ os ∧ (make 4 (by decide)).run os = none ∧
      GrowingString.run ⟨[], 0⟩ os = [.count 4, .bytes []] := by
  exact ⟨by decide, by decide +kernel, rfl⟩

end InMemRw

end FrenzyKV
