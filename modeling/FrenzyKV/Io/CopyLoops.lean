import FrenzyKV.Io.InMemRw

/-! The loops that copy a source into a file in memory (`io/io_objects_util.cc`,
`io/iouring_readable.cc`), on the memory of its buffers (`io/inner_buffer.h`). -/

namespace FrenzyKV

open Bytes

/-- A `buffer`: its memory, also where nothing was written yet, and how much of it is left. -/
structure InnerBuffer (capacity : Nat) where
  storage : ByteString
  length : storage.length = capacity
  left : Nat
  bounded : left ≤ capacity

namespace InnerBuffer

variable {capacity : Nat}

/-- Memory that is allocated holds any bytes. -/
def allocate (fresh : Nat → UInt8) (capacity : Nat) : InnerBuffer capacity :=
  ⟨(List.range capacity).map fresh, by rw [List.length_map, List.length_range], capacity, Nat.le_refl _⟩

def size (b : InnerBuffer capacity) : Nat := capacity - b.left

def validSpan (b : InnerBuffer capacity) : ByteString := b.storage.take b.size

/-- Bytes that someone writes to a place in the memory. -/
def write (b : InnerBuffer capacity) (pos : Nat) (bytes : ByteString) : InnerBuffer capacity :=
  if inside : pos + bytes.length ≤ b.storage.length then
    { b with storage := store pos bytes b.storage, length := (store_length inside).trans b.length }
  else b

def commit (b : InnerBuffer capacity) (wroteLen : Nat) : InnerBuffer capacity :=
  { b with left := b.left - wroteLen, bounded := (Nat.sub_le _ _).trans b.bounded }

@[simp] theorem write_left (b : InnerBuffer capacity) (pos : Nat) (bytes : ByteString) :
    (b.write pos bytes).left = b.left := by
  rw [write]
  split
  · rfl
  · rfl

theorem length_validSpan (b : InnerBuffer capacity) : b.validSpan.length = b.size := by
  rw [validSpan, List.length_take, b.length, size]
  omega

theorem validSpan_of_full {b : InnerBuffer capacity} (full : b.left = 0) : b.validSpan = b.storage := by
  rw [validSpan, size, full]
  exact List.take_of_length_le b.length.le

theorem validSpan_allocate (fresh : Nat → UInt8) (capacity : Nat) :
    (allocate fresh capacity).validSpan = [] := by
  rw [← List.length_eq_zero_iff, length_validSpan]
  exact Nat.sub_self capacity

/-- What is written behind the valid bytes and committed becomes valid. -/
theorem validSpan_write_commit {b : InnerBuffer capacity} {bytes : ByteString}
    (room : bytes.length ≤ b.left) :
    ((b.write b.size bytes).commit bytes.length).validSpan = b.validSpan ++ bytes := by
  have bounded := b.bounded
  have length := b.length
  have inside : b.size + bytes.length ≤ b.storage.length := by
    rw [length, size]
    omega
  have valid : b.validSpan.length = b.size := b.length_validSpan
  have written : store b.size bytes b.storage =
      (b.validSpan ++ bytes) ++ (b.storage.drop b.size).drop bytes.length := by
    conv_lhs => rw [← List.take_append_drop b.size b.storage]
    exact store_behind valid.symm bytes _
  have count : (b.validSpan ++ bytes).length = capacity - (b.left - bytes.length) := by
    rw [List.length_append, valid, size]
    omega
  rw [validSpan, size, commit, write, dif_pos inside]
  dsimp only
  rw [written]
  exact List.take_left' count

end InnerBuffer

/-- A file in memory on its buffers; of those in front of the last one nothing is left. -/
structure InMemBuffers where
  blockSize : Nat
  front : List (InnerBuffer blockSize)
  last : InnerBuffer blockSize
  filled : ∀ b ∈ front, b.left = 0

namespace InMemBuffers

/-- A span of memory: a buffer and a place in it. -/
structure Span where
  block : Nat
  beg : Nat
  size : Nat

/-- What new memory holds: for each buffer, the bytes that happen to be there. -/
abbrev Fresh := Nat → Nat → UInt8

variable (fresh : Fresh)

def make (blockSize : Nat) : InMemBuffers :=
  ⟨blockSize, [], .allocate (fresh 0) blockSize, List.forall_mem_nil _⟩

def contents (f : InMemBuffers) : ByteString := f.front.flatMap InnerBuffer.validSpan ++ f.last.validSpan

def nextWritableBuffer (f : InMemBuffers) : InMemBuffers :=
  if full : f.last.left = 0 then {
    f with
    front := f.front ++ [f.last]
    last := .allocate (fresh (f.front.length + 1)) f.blockSize
    filled := List.forall_mem_append.mpr ⟨f.filled, List.forall_mem_singleton.mpr full⟩ }
  else f

def writableSpan (f : InMemBuffers) : InMemBuffers × Span :=
  let f := f.nextWritableBuffer fresh
  (f, ⟨f.front.length, f.last.size, f.last.left⟩)

/-- Bytes that a read puts to the front of a span, which may have been taken earlier. -/
def fill (f : InMemBuffers) (span : Span) (bytes : ByteString) : InMemBuffers :=
  if span.block = f.front.length then { f with last := f.last.write span.beg bytes }
  else {
    f with
    front := f.front.mapIdx fun i b => if i = span.block then b.write span.beg bytes else b
    filled := by
      intro b mem
      obtain ⟨i, inside, eq⟩ := List.mem_mapIdx.mp mem
      have full := f.filled _ (List.getElem_mem inside)
      rw [← eq]
      split
      · rw [InnerBuffer.write_left, full]
      · exact full }

/-- `commit`, with the assertion of the buffer. -/
def commit (f : InMemBuffers) (wroteLen : Nat) : Option InMemBuffers :=
  let f := f.nextWritableBuffer fresh
  if wroteLen ≤ f.last.left then some { f with last := f.last.commit wroteLen } else none

end InMemBuffers

/-- How the reads of a source deliver its bytes, for an offset and the size of the destination: some of
those that are left, and at least one where there is room. No loop below reads twice at one offset. -/
structure Delivery (content : ByteString) where
  count : Nat → Nat → Nat
  within : ∀ offset room, count offset room ≤ min room (content.length - offset)
  progress : ∀ offset room, 0 < room → offset < content.length → 0 < count offset room

namespace Delivery

variable {content : ByteString} (d : Delivery content) (fresh : InMemBuffers.Fresh)

def read (offset room : Nat) : ByteString := (content.drop offset).take (d.count offset room)

/-- The loop of `to_in_mem_rw`, with the span that was taken before it. -/
def toInMemRwLoop (wsp : InMemBuffers.Span) : Nat → InMemBuffers → Nat → Option InMemBuffers
  | 0, _, _ => none
  | fuel + 1, result, offset =>
    if offset < content.length then
      let readed := d.read offset wsp.size
      ((result.fill wsp readed).commit fresh readed.length).bind fun result =>
        toInMemRwLoop wsp fuel result (offset + readed.length)
    else some result

/-- `to_in_mem_rw`, which throws for more than 4 GiB. No result stands for that, for an assertion, and
for a loop that does not end with the fuel. -/
def toInMemRw (fuel : Nat) : Option InMemBuffers :=
  let fsz := content.length
  if 4 * 1024 * 1024 * 1024 < fsz then none
  else
    let start := (InMemBuffers.make fresh fsz).writableSpan fresh
    d.toInMemRwLoop fresh start.2 fuel start.1 0

/-- The loop of `iouring_readable::dump_to`, which takes a span in each round. -/
def dumpToLoop : Nat → InMemBuffers → Nat → Option (InMemBuffers × Nat)
  | 0, _, _ => none
  | fuel + 1, file, wrote =>
    let next := file.writableSpan fresh
    let eachRead := d.read wrote next.2.size
    ((next.1.fill next.2 eachRead).commit fresh eachRead.length).bind fun file =>
      let wrote := wrote + eachRead.length
      if wrote = content.length then some (file, wrote) else dumpToLoop fuel file wrote

/-- `iouring_readable::dump_to` into a file in memory, with the number that it returns. -/
def dumpTo (fuel : Nat) (file : InMemBuffers) : Option (InMemBuffers × Nat) :=
  d.dumpToLoop fresh fuel file 0

end Delivery

namespace InMemBuffers

variable {fresh : Fresh} {f : InMemBuffers} {bytes : ByteString}

@[simp] theorem contents_make (fresh : Fresh) (blockSize : Nat) : (make fresh blockSize).contents = [] :=
  InnerBuffer.validSpan_allocate _ _

theorem nextWritableBuffer_of_room (room : f.last.left ≠ 0) : f.nextWritableBuffer fresh = f := dif_neg room

@[simp] theorem nextWritableBuffer_contents (fresh : Fresh) (f : InMemBuffers) :
    (f.nextWritableBuffer fresh).contents = f.contents := by
  rw [nextWritableBuffer]
  split
  · rw [contents, InnerBuffer.validSpan_allocate, List.append_nil, List.flatMap_append, List.flatMap_singleton]
    rfl
  · rfl

@[simp] theorem nextWritableBuffer_blockSize (fresh : Fresh) (f : InMemBuffers) :
    (f.nextWritableBuffer fresh).blockSize = f.blockSize := by
  rw [nextWritableBuffer]
  split
  · rfl
  · rfl

/-- The writable span is empty only where buffers have no room at all. -/
theorem size_writableSpan_eq_zero_iff (fresh : Fresh) (f : InMemBuffers) :
    (f.writableSpan fresh).2.size = 0 ↔ f.blockSize = 0 := by
  have bounded := f.last.bounded
  change (f.nextWritableBuffer fresh).last.left = 0 ↔ _
  by_cases full : f.last.left = 0
  · rw [nextWritableBuffer, dif_pos full]
    rfl
  · rw [nextWritableBuffer_of_room full]
    omega

/-- Where there is room, the bytes at the front of a span taken just now become valid. -/
theorem fill_commit_eq (room : (f.writableSpan fresh).2.size ≠ 0)
    (fits : bytes.length ≤ (f.writableSpan fresh).2.size) :
    let next := f.nextWritableBuffer fresh
    ((f.writableSpan fresh).1.fill (f.writableSpan fresh).2 bytes).commit fresh bytes.length =
      some { next with last := (next.last.write next.last.size bytes).commit bytes.length } := by
  intro next
  let filled : InMemBuffers := { next with last := next.last.write next.last.size bytes }
  have fill : (f.writableSpan fresh).1.fill (f.writableSpan fresh).2 bytes = filled := if_pos rfl
  have same : filled.last.left = next.last.left := InnerBuffer.write_left _ _ _
  have stays : filled.nextWritableBuffer fresh = filled := nextWritableBuffer_of_room (same ▸ room)
  rw [fill, commit, stays]
  exact if_pos (same ▸ fits)

/-- Bytes that go to the front of a span taken just now, and are committed, stand behind the others. -/
theorem fill_commit_spec (fits : bytes.length ≤ (f.writableSpan fresh).2.size) :
    ∃ g, ((f.writableSpan fresh).1.fill (f.writableSpan fresh).2 bytes).commit fresh bytes.length = some g ∧
      g.contents = f.contents ++ bytes ∧ g.blockSize = f.blockSize := by
  let next := f.nextWritableBuffer fresh
  have written := InnerBuffer.validSpan_write_commit (show bytes.length ≤ next.last.left from fits)
  by_cases full : next.last.left = 0
  · -- nothing can have been written, and the commit opens one more buffer
    have empty : bytes.length = 0 := Nat.le_zero.mp (full ▸ fits)
    let filled : InMemBuffers := { next with last := next.last.write next.last.size bytes }
    have unchanged : filled.contents = f.contents ++ bytes := by
      rw [empty] at written
      rw [← nextWritableBuffer_contents fresh f, contents, contents, List.append_assoc, ← written]
      rfl
    have fill : (f.writableSpan fresh).1.fill (f.writableSpan fresh).2 bytes = filled := if_pos rfl
    rw [fill]
    refine ⟨_, if_pos (empty ▸ Nat.zero_le _), ?_, ?_⟩
    · rw [empty, ← unchanged, ← nextWritableBuffer_contents fresh filled]
      rfl
    · exact (nextWritableBuffer_blockSize fresh filled).trans (nextWritableBuffer_blockSize fresh f)
  · refine ⟨_, fill_commit_eq full fits, ?_, nextWritableBuffer_blockSize fresh f⟩
    rw [← nextWritableBuffer_contents fresh f, contents, contents, List.append_assoc]
    exact congrArg (next.front.flatMap InnerBuffer.validSpan ++ ·) written

/-- The file without the memory that is not valid yet. -/
def inMemRw (f : InMemBuffers) (positive : 0 < f.blockSize) : InMemRw where
  blockSize := f.blockSize
  positive
  chunks := {
    full := f.front.map InnerBuffer.validSpan
    last := f.last.validSpan
    whole := by
      intro bytes mem
      obtain ⟨b, front, rfl⟩ := List.mem_map.mp mem
      rw [InnerBuffer.length_validSpan, InnerBuffer.size, f.filled b front]
      rfl
    fits := by
      rw [InnerBuffer.length_validSpan]
      exact Nat.sub_le _ _ }
  cursor := 0

variable {positive : 0 < f.blockSize}

theorem contents_inMemRw : (f.inMemRw positive).contents = f.contents := by
  rw [InMemRw.contents, Chunked.contents, Chunked.blocks, List.flatten_append, List.flatten_singleton, contents,
    List.flatMap_def]
  rfl

theorem left_inMemRw : (f.inMemRw positive).chunks.left = f.last.left := by
  have bounded := f.last.bounded
  change f.blockSize - f.last.validSpan.length = _
  rw [InnerBuffer.length_validSpan, InnerBuffer.size]
  omega

theorem inMemRw_nextWritableBuffer (positive' : 0 < (f.nextWritableBuffer fresh).blockSize) :
    (f.nextWritableBuffer fresh).inMemRw positive' = (f.inMemRw positive).nextWritableBuffer := by
  by_cases full : f.last.left = 0
  · have grown : f.nextWritableBuffer fresh = _ := dif_pos full
    have filled : (f.inMemRw positive).chunks.left = 0 := left_inMemRw.trans full
    rw [InMemRw.nextWritableBuffer_of_filled filled]
    revert positive'
    rw [grown]
    intro positive'
    simp only [inMemRw, Chunked.grow, List.map_append, List.map_singleton, InnerBuffer.validSpan_allocate]
  · have stays : f.nextWritableBuffer fresh = f := nextWritableBuffer_of_room full
    rw [InMemRw.nextWritableBuffer_of_room (left_inMemRw ▸ full)]
    revert positive'
    rw [stays]
    intro _
    rfl

/-- On the memory, filling a span that was taken just now and committing is what `commit` does with the bytes. -/
theorem fill_commit_inMemRw (positive : 0 < f.blockSize) (fits : bytes.length ≤ (f.writableSpan fresh).2.size) :
    ∃ g positive', ((f.writableSpan fresh).1.fill (f.writableSpan fresh).2 bytes).commit fresh bytes.length = some g ∧
      (f.inMemRw positive).writableSpan.1.commit bytes = some (g.inMemRw positive') := by
  let next := f.nextWritableBuffer fresh
  have positive' : 0 < next.blockSize := (nextWritableBuffer_blockSize fresh f).symm ▸ positive
  have room : (f.writableSpan fresh).2.size ≠ 0 := fun none_left =>
    positive.ne' ((size_writableSpan_eq_zero_iff fresh f).mp none_left)
  have left : (next.inMemRw positive').chunks.left = next.last.left := left_inMemRw
  have span : (f.inMemRw positive).writableSpan.1 = next.inMemRw positive' :=
    (inMemRw_nextWritableBuffer positive').symm
  have stays : (next.inMemRw positive').nextWritableBuffer = next.inMemRw positive' :=
    InMemRw.nextWritableBuffer_of_room (left ▸ room)
  have fits' : bytes.length ≤ (next.inMemRw positive').chunks.left := left ▸ fits
  refine ⟨{ next with last := (next.last.write next.last.size bytes).commit bytes.length }, positive',
    fill_commit_eq room fits, ?_⟩
  rw [span, InMemRw.commit, stays, if_pos fits', InMemRw.appendToLast, dif_pos fits']
  simp only [inMemRw, Chunked.extend, InnerBuffer.validSpan_write_commit (show bytes.length ≤ next.last.left from fits)]

end InMemBuffers

namespace Delivery

variable {content : ByteString} (d : Delivery content) {fresh : InMemBuffers.Fresh}

theorem read_length (offset room : Nat) : (d.read offset room).length = d.count offset room := by
  have := d.within offset room
  rw [read, List.length_take, List.length_drop]
  omega

theorem read_fits (offset room : Nat) : (d.read offset room).length ≤ room := by
  rw [read_length]
  exact (d.within offset room).trans (Nat.min_le_left _ _)

theorem read_inside (offset room : Nat) : (d.read offset room).length ≤ content.length - offset := by
  rw [read_length]
  exact (d.within offset room).trans (Nat.min_le_right _ _)

theorem read_pos {offset room : Nat} (some_room : 0 < room) (inside : offset < content.length) :
    0 < (d.read offset room).length := by
  rw [read_length]
  exact d.progress offset room some_room inside

/-- What one read adds to what the earlier ones have delivered. -/
theorem take_append_read (offset room : Nat) :
    content.take offset ++ d.read offset room = content.take (offset + (d.read offset room).length) := by
  rw [read_length, read, ← List.take_add]

/-- Every round of `dump_to` takes a new span, so that short reads do no harm. -/
theorem dumpToLoop_spec {fuel wrote : Nat} {base : ByteString} {file : InMemBuffers}
    (room : 0 < file.blockSize ∨ content = []) (inside : wrote ≤ content.length)
    (enough : content.length - wrote < fuel) (holds : file.contents = base ++ content.take wrote) :
    ∃ r, d.dumpToLoop fresh fuel file wrote = some (r, content.length) ∧ r.contents = base ++ content ∧
      r.blockSize = file.blockSize := by
  induction fuel generalizing file wrote with
  | zero => exact absurd enough (Nat.not_lt_zero _)
  | succ fuel ih =>
    obtain ⟨g, committed, grown, size⟩ :=
      InMemBuffers.fill_commit_spec (d.read_fits wrote (file.writableSpan fresh).2.size)
    have rest := d.read_inside wrote (file.writableSpan fresh).2.size
    rw [holds, List.append_assoc, d.take_append_read] at grown
    rw [dumpToLoop]
    dsimp only
    rw [committed, Option.bind_some]
    by_cases done : wrote + (d.read wrote (file.writableSpan fresh).2.size).length = content.length
    · rw [if_pos done, done]
      refine ⟨g, rfl, ?_, size⟩
      rw [grown, done, List.take_length]
    · have left : wrote < content.length := by omega
      have positive : 0 < file.blockSize := room.resolve_right fun empty => by
        rw [empty] at left
        exact absurd left (Nat.not_lt_zero _)
      have span : 0 < (file.writableSpan fresh).2.size := Nat.pos_of_ne_zero fun none_left =>
        positive.ne' ((InMemBuffers.size_writableSpan_eq_zero_iff fresh file).mp none_left)
      have some_bytes := d.read_pos span left
      rw [if_neg done, ← size]
      exact ih (size ▸ room) (by omega) (by omega) grown

/-- Without room no byte is ever read, and the loop goes on for ever. -/
theorem dumpToLoop_of_no_room {file : InMemBuffers} (nothing : file.blockSize = 0) (some_left : content ≠ [])
    (fuel : Nat) : d.dumpToLoop fresh fuel file 0 = none := by
  induction fuel generalizing file with
  | zero => rfl
  | succ fuel ih =>
    have empty := (InMemBuffers.size_writableSpan_eq_zero_iff fresh file).mpr nothing
    have fits := d.read_fits 0 (file.writableSpan fresh).2.size
    obtain ⟨g, committed, _, size⟩ := InMemBuffers.fill_commit_spec fits
    have none_read : (d.read 0 (file.writableSpan fresh).2.size).length = 0 := by omega
    have more : ¬ 0 + 0 = content.length := fun eq => some_left (List.length_eq_zero_iff.mp eq.symm)
    rw [dumpToLoop]
    dsimp only
    rw [committed, Option.bind_some, none_read, if_neg more]
    exact ih (size.trans nothing)

/-- The copy that `dump_to` has to make, whatever new memory holds. -/
def DumpsTo (file : InMemBuffers) : Prop :=
  ∀ fresh, ∃ fuel r, d.dumpTo fresh fuel file = some (r, content.length) ∧ r.contents = file.contents ++ content

theorem dumpsTo_iff (file : InMemBuffers) : d.DumpsTo file ↔ 0 < file.blockSize ∨ content = [] := by
  constructor
  · intro dumps
    by_contra bad
    rw [not_or, Nat.pos_iff_ne_zero, not_not] at bad
    obtain ⟨fuel, r, ends, _⟩ := dumps fun _ _ => 0
    rw [dumpTo, d.dumpToLoop_of_no_room bad.1 bad.2] at ends
    cases ends
  · intro good fresh
    obtain ⟨r, ends, copied, _⟩ := d.dumpToLoop_spec good (Nat.zero_le _)
      (Nat.lt_succ_self _) (List.append_nil file.contents).symm
    exact ⟨_, r, ends, copied⟩

/-- A source that was dumped into a new file is read from there as from itself. -/
theorem readAt_of_dumped {blockSize : Nat} (positive : 0 < blockSize) (fresh : InMemBuffers.Fresh) :
    ∃ fuel r positive', d.dumpTo fresh fuel (InMemBuffers.make fresh blockSize) = some (r, content.length) ∧
      ∀ offset destSize, offset < content.length →
        (r.inMemRw positive').readAt offset destSize = some ((content.drop offset).take destSize) := by
  obtain ⟨r, ends, copied, size⟩ := d.dumpToLoop_spec (.inl positive) (Nat.zero_le _) (Nat.lt_succ_self _)
    (List.append_nil (InMemBuffers.make fresh blockSize).contents).symm
  rw [InMemBuffers.contents_make, List.nil_append] at copied
  have positive' : 0 < r.blockSize := size.symm ▸ positive
  have contents : (r.inMemRw positive').contents = content := InMemBuffers.contents_inMemRw.trans copied
  refine ⟨_, r, positive', ends, fun offset destSize inside => ?_⟩
  have read := (r.inMemRw positive').readAt_eq_some destSize (by rw [contents]; exact inside.le)
    fun atEnd => absurd (atEnd.trans (congrArg List.length contents)) inside.ne
  rw [read, contents]

variable {d}

/-- The state of `to_in_mem_rw` behind `offset` bytes: one buffer, with room for the others. -/
structure Copying (content : ByteString) (f : InMemBuffers) (offset : Nat) : Prop where
  blockSize : f.blockSize = content.length
  front : f.front = []
  left : f.last.left = content.length - offset

/-- Each round writes to the front of the buffer, and commits behind what is committed. -/
theorem Copying.round {f : InMemBuffers} {offset : Nat} {bytes : ByteString} (copying : Copying content f offset)
    (before : offset < content.length) (rest : bytes.length ≤ content.length - offset) :
    ∃ g, (f.fill ⟨0, 0, content.length⟩ bytes).commit fresh bytes.length = some g ∧
      Copying content g (offset + bytes.length) ∧ g.last.storage = store 0 bytes f.last.storage := by
  obtain ⟨blockSize, front, left⟩ := copying
  let filled : InMemBuffers := { f with last := f.last.write 0 bytes }
  have first : 0 = f.front.length := (congrArg List.length front).symm
  have fill : f.fill ⟨0, 0, content.length⟩ bytes = filled := if_pos first
  have same : filled.last.left = content.length - offset := (InnerBuffer.write_left _ _ _).trans left
  have stays : filled.nextWritableBuffer fresh = filled := InMemBuffers.nextWritableBuffer_of_room (by omega)
  have inside : 0 + bytes.length ≤ f.last.storage.length := by
    rw [f.last.length]
    omega
  refine ⟨{ filled with last := filled.last.commit bytes.length }, ?_, ⟨blockSize, front, ?_⟩, ?_⟩
  · rw [fill, InMemBuffers.commit, stays]
    exact if_pos (by omega)
  · change filled.last.left - bytes.length = _
    omega
  · change (f.last.write 0 bytes).storage = _
    rw [InnerBuffer.write, dif_pos inside]

theorem toInMemRwLoop_done {wsp : InMemBuffers.Span} {fuel offset : Nat} {f r : InMemBuffers}
    (done : ¬ offset < content.length) (ends : d.toInMemRwLoop fresh wsp fuel f offset = some r) : f = r := by
  cases fuel with
  | zero => cases ends
  | succ fuel =>
    rw [toInMemRwLoop, if_neg done] at ends
    exact Option.some.inj ends

/-- Where the loop ends, all memory behind the longest read is as it was. -/
theorem toInMemRwLoop_spec {fuel offset n : Nat} {f r : InMemBuffers} (copying : Copying content f offset)
    (inside : offset ≤ content.length) (short : ∀ off, offset ≤ off → d.count off content.length ≤ n)
    (ends : d.toInMemRwLoop fresh ⟨0, 0, content.length⟩ fuel f offset = some r) :
    Copying content r content.length ∧ r.last.storage.drop n = f.last.storage.drop n := by
  induction fuel generalizing f offset with
  | zero => cases ends
  | succ fuel ih =>
    rw [toInMemRwLoop] at ends
    split at ends
    · rename_i before
      have rest := d.read_inside offset content.length
      obtain ⟨g, committed, next, storage⟩ := copying.round before rest
      dsimp only at ends
      rw [committed, Option.bind_some] at ends
      obtain ⟨last, same⟩ := ih next (by omega) (fun off le => short off (by omega)) ends
      have longest := short offset (Nat.le_refl _)
      rw [← d.read_length] at longest
      exact ⟨last, by rw [same, storage, drop_store longest]⟩
    · have atEnd : offset = content.length := by omega
      obtain rfl := Option.some.inj ends
      exact ⟨atEnd ▸ copying, rfl⟩

/-- The loop ends, however short the reads are. -/
theorem toInMemRwLoop_ends {fuel offset : Nat} {f : InMemBuffers} (copying : Copying content f offset)
    (enough : content.length - offset < fuel) :
    ∃ r, d.toInMemRwLoop fresh ⟨0, 0, content.length⟩ fuel f offset = some r := by
  induction fuel generalizing f offset with
  | zero => exact absurd enough (Nat.not_lt_zero _)
  | succ fuel ih =>
    rw [toInMemRwLoop]
    split
    · rename_i before
      obtain ⟨g, committed, next, _⟩ := copying.round before (d.read_inside offset content.length)
      have some_bytes := d.read_pos (Nat.zero_lt_of_lt before) before
      dsimp only
      rw [committed, Option.bind_some]
      exact ih next (by omega)
    · exact ⟨f, rfl⟩

theorem writableSpan_make (fresh : InMemBuffers.Fresh) (nonempty : content ≠ []) :
    (InMemBuffers.make fresh content.length).writableSpan fresh =
      (InMemBuffers.make fresh content.length, ⟨0, 0, content.length⟩) := by
  have room : (InMemBuffers.make fresh content.length).last.left ≠ 0 :=
    (List.length_pos_of_ne_nil nonempty).ne'
  rw [InMemBuffers.writableSpan, InMemBuffers.nextWritableBuffer_of_room room]
  exact congrArg (fun n => (_, (⟨0, n, _⟩ : InMemBuffers.Span))) (Nat.sub_self _)

theorem copying_make (fresh : InMemBuffers.Fresh) (content : ByteString) :
    Copying content (InMemBuffers.make fresh content.length) 0 := ⟨rfl, rfl, rfl⟩

/-- `to_in_mem_rw` ends for every source that is not too big. -/
theorem toInMemRw_ends (d : Delivery content) (fresh : InMemBuffers.Fresh)
    (small : content.length ≤ 4 * 1024 * 1024 * 1024) :
    ∃ r, d.toInMemRw fresh (content.length + 1) = some r := by
  rw [toInMemRw, if_neg (Nat.not_lt.mpr small)]
  dsimp only
  by_cases nonempty : content ≠ []
  · rw [writableSpan_make fresh nonempty]
    exact toInMemRwLoop_ends (copying_make fresh content) (Nat.lt_succ_self _)
  · have empty : content.length = 0 := List.length_eq_zero_iff.mpr (not_not.mp nonempty)
    rw [toInMemRwLoop, if_neg (by omega)]
    exact ⟨_, rfl⟩

/-- A source that `to_in_mem_rw` refuses: it throws, and there is no destination. -/
def TooBig (content : ByteString) : Prop := 4 * 1024 * 1024 * 1024 < content.length

instance (content : ByteString) : Decidable (TooBig content) := Nat.decLt _ _

/-- The copy that `to_in_mem_rw` has to make of a source that it does not refuse, whatever new memory holds. -/
def CopiesToMem (d : Delivery content) : Prop :=
  ∀ fresh, TooBig content ∨ ∃ fuel r, d.toInMemRw fresh fuel = some r ∧ r.contents = content

/-- After a short first read the last byte of the copy is one that was in the memory before. -/
theorem getLast_of_short {other : UInt8} {fuel : Nat} {r : InMemBuffers}
    (short : d.count 0 content.length ≠ content.length)
    (ends : d.toInMemRw (fun _ _ => other) fuel = some r) : r.contents.getLast? = some other := by
  have within := d.within 0 content.length
  have nonempty : content ≠ [] := by
    rintro rfl
    exact short (Nat.le_zero.mp (within.trans (Nat.min_le_left _ _)))
  have positive := List.length_pos_of_ne_nil nonempty
  -- no read is long enough to reach the last byte
  have reach : ∀ off, 0 ≤ off → d.count off content.length ≤ content.length - 1 := by
    intro off _
    have := d.within off content.length
    by_cases start : off = 0
    · rw [start]
      omega
    · omega
  rw [toInMemRw] at ends
  split at ends
  · cases ends
  · dsimp only at ends
    rw [writableSpan_make _ nonempty] at ends
    dsimp only at ends
    obtain ⟨done, kept⟩ := toInMemRwLoop_spec (copying_make _ content) (Nat.zero_le _) reach ends
    have all : r.contents = r.last.storage := by
      rw [InMemBuffers.contents, done.front, InnerBuffer.validSpan_of_full (done.left.trans (Nat.sub_self _))]
      rfl
    have length : r.contents.length = content.length := by
      rw [all, r.last.length, done.blockSize]
    have fresh_last : (r.contents.drop (content.length - 1)).getLast? = some other := by
      rw [all, kept]
      change (((List.range content.length).map fun _ => other).drop (content.length - 1)).getLast? = some other
      rw [List.map_const', List.length_range, List.drop_replicate, List.getLast?_replicate, if_neg (by omega)]
    rwa [List.getLast?_drop, if_neg (by omega)] at fresh_last

theorem contents_of_whole {fuel : Nat} {r : InMemBuffers}
    (whole : d.count 0 content.length = content.length) (ends : d.toInMemRw fresh (fuel + 1) = some r) :
    r.contents = content := by
  rw [toInMemRw] at ends
  split at ends
  · cases ends
  · dsimp only at ends
    by_cases positive : 0 < content.length
    · have fits := d.read_fits 0 ((InMemBuffers.make fresh content.length).writableSpan fresh).2.size
      obtain ⟨g, committed, grown, _⟩ := InMemBuffers.fill_commit_spec fits
      rw [toInMemRwLoop, if_pos positive] at ends
      dsimp only at ends
      rw [committed, Option.bind_some] at ends
      rw [writableSpan_make fresh (List.ne_nil_of_length_pos positive)] at ends grown
      have count := d.read_length 0 content.length
      have all : d.read 0 content.length = content := by
        rw [read, whole]
        exact List.take_length
      rw [← toInMemRwLoop_done (by rw [count, whole]; omega) ends, grown, all, InMemBuffers.contents_make]
      rfl
    · have empty : content = [] := List.length_eq_zero_iff.mp (by omega)
      have start : ((InMemBuffers.make fresh content.length).nextWritableBuffer fresh).contents = [] := by
        rw [InMemBuffers.nextWritableBuffer_contents, InMemBuffers.contents_make]
      rw [← toInMemRwLoop_done positive ends, empty]
      exact empty ▸ start

/-- The span of `to_in_mem_rw` stays where it was, so that the bytes of a second read go where those of the
first one are. -/
theorem copiesToMem_iff (d : Delivery content) :
    d.CopiesToMem ↔ TooBig content ∨ d.count 0 content.length = content.length := by
  constructor
  · intro copies
    by_contra neither
    obtain ⟨small, short⟩ := not_or.mp neither
    -- new memory may hold any byte, but the last one of the source is one byte
    have last : ∀ other, content.getLast? = some other := by
      intro other
      obtain ⟨fuel, r, ends, same⟩ := (copies fun _ _ => other).resolve_left small
      rw [← same]
      exact getLast_of_short short ends
    have both := (last 0).symm.trans (last 1)
    revert both
    decide
  · rintro (big | whole) fresh
    · exact .inl big
    · by_cases big : TooBig content
      · exact .inl big
      · obtain ⟨r, ends⟩ := d.toInMemRw_ends fresh (Nat.not_lt.mp big)
        exact .inr ⟨_, r, ends, contents_of_whole whole ends⟩

/-- The copy into memory is right exactly when one read delivers all bytes of the source; a dump is right
however the reads split the source, into every file whose buffers have room. -/
theorem copy_loops_iff (d : Delivery content) (file : InMemBuffers) :
    (d.CopiesToMem ↔ TooBig content ∨ d.count 0 content.length = content.length) ∧
    (d.DumpsTo file ↔ 0 < file.blockSize ∨ content = []) :=
  ⟨d.copiesToMem_iff, d.dumpsTo_iff file⟩

/-- Reads of one byte at a time. -/
def byteByByte (content : ByteString) : Delivery content where
  count offset room := min 1 (min room (content.length - offset))
  within offset room := Nat.min_le_right _ _
  progress offset room some_room inside := by omega

/-- Two bytes that are read one by one: the second one comes in place of the first. -/
theorem copy_byteByByte :
    ((byteByByte [1, 2]).toInMemRw (fun _ _ => 0) 3).map InMemBuffers.contents = some [2, 0] ∧
      ¬ (byteByByte [1, 2]).CopiesToMem := by
  refine ⟨by decide, fun copies => ?_⟩
  rcases (copiesToMem_iff _).mp copies with big | whole
  · exact absurd big (by decide)
  · exact absurd whole (by decide)

end Delivery

end FrenzyKV
