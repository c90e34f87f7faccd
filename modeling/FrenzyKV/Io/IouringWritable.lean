import FrenzyKV.Math.Bytes
import FrenzyKV.Util.Options

/-! A file opened for appending behind one buffer (`io/iouring_writable.cc`,
`io/inner_buffer.h`). -/

namespace FrenzyKV

open Bytes

/-- The bytes in the buffer, and the appends that have reached the file. -/
structure IouringWritable where
  capacity : Nat
  buffered : ByteString
  appended : List ByteString
  fits : buffered.length ≤ capacity

/-- `get_seq_writable` on a file with these contents; without buffering the buffer has no room. -/
def openWritable (opt : WritableOptions) (existing : ByteString) : IouringWritable :=
  ⟨if opt.needBufferedWrite then opt.diskBlockBytes else 0, [], [existing], Nat.zero_le _⟩

namespace IouringWritable

variable {w w' : IouringWritable} {bytes : ByteString}

/-- An empty file with an empty buffer of `disk_block_bytes`. -/
def opened (diskBlockBytes : Nat) : IouringWritable := ⟨diskBlockBytes, [], [], Nat.zero_le _⟩

/-- What is in the file. -/
def file (w : IouringWritable) : ByteString := w.appended.flatten

/-- `left`, the size of `writable_span`. -/
def left (w : IouringWritable) : Nat := w.capacity - w.buffered.length

/-- Everything that was committed, in the file or not. -/
def contents (w : IouringWritable) : ByteString := w.file ++ w.buffered

/-- `flush_valid`. -/
def flushValid (w : IouringWritable) : IouringWritable :=
  if w.buffered = [] then w
  else
    { w with
      buffered := []
      appended := w.appended ++ [w.buffered]
      fits := Nat.zero_le _ }

/-- `commit`, for bytes that stand at the front of the writable span. The buffer asserts that
they fit, and a full buffer is flushed. -/
def commit (w : IouringWritable) (bytes : ByteString) : Option IouringWritable :=
  if room : bytes.length ≤ w.left then
    let filled : IouringWritable :=
      { w with
        buffered := w.buffered ++ bytes
        fits := by
          have := w.fits
          rw [left] at room
          rw [List.length_append]
          omega }
    some (if filled.left = 0 then filled.flushValid else filled)
  else none

/-- `append`. Without buffering it writes the valid span of the buffer instead of its argument. -/
def append (needBuffered : Bool) (w : IouringWritable) (bytes : ByteString) : Option IouringWritable :=
  if needBuffered then
    if bytes.length ≤ w.left then w.commit bytes
    else
      let flushed := w.flushValid
      if flushed.left ≤ bytes.length then some { flushed with appended := flushed.appended ++ [bytes] }
      else flushed.commit bytes
  else some { w with appended := w.appended ++ [w.buffered] }

@[simp] theorem flushValid_buffered (w : IouringWritable) : w.flushValid.buffered = [] := by
  rw [flushValid]
  split
  · assumption
  · rfl

@[simp] theorem flushValid_capacity (w : IouringWritable) : w.flushValid.capacity = w.capacity := by
  rw [flushValid]
  split <;> rfl

@[simp] theorem flushValid_left (w : IouringWritable) : w.flushValid.left = w.capacity := by
  simp [left]

@[simp] theorem flushValid_contents (w : IouringWritable) : w.flushValid.contents = w.contents := by
  rw [flushValid]
  split
  · rfl
  · simp [contents, file]

theorem flushValid_file (w : IouringWritable) : w.flushValid.file = w.contents := by
  rw [← flushValid_contents, contents, flushValid_buffered, List.append_nil]

/-- `w'` is `w` as it was, or with its buffer appended to the file. -/
def MayFlush (w w' : IouringWritable) : Prop :=
  w'.appended = w.appended ∧ w'.buffered = w.buffered ∨
    w'.appended = w.appended ++ [w.buffered] ∧ w'.buffered = []

theorem mayFlush_refl (w : IouringWritable) : MayFlush w w := .inl ⟨rfl, rfl⟩

theorem mayFlush_flushValid (w : IouringWritable) : MayFlush w w.flushValid := by
  rw [flushValid]
  split
  · exact .inl ⟨rfl, rfl⟩
  · exact .inr ⟨rfl, rfl⟩

/-- The file held `log` at some point between the states `w` and `w'`. -/
def Between (w w' : IouringWritable) (log : ByteString) : Prop :=
  ∃ written, w.appended <+: written ∧ written <+: w'.appended ∧ log = written.flatten

theorem Between.split {u v w : IouringWritable} {log : ByteString} (between : Between u w log)
    (later : v.appended <+: w.appended) :
    Between u v log ∨ Between v w log := by
  obtain ⟨written, low, high, rfl⟩ := between
  cases List.prefix_or_prefix_of_prefix high later with
  | inl below => exact .inl ⟨written, low, below, rfl⟩
  | inr above => exact .inr ⟨written, above, high, rfl⟩

theorem Between.mono {u : IouringWritable} {log : ByteString} (between : Between w w' log)
    (earlier : u.appended <+: w.appended) : Between u w' log := by
  obtain ⟨written, low, high, eq⟩ := between
  exact ⟨written, earlier.trans low, high, eq⟩

theorem Between.extend {u : IouringWritable} {log : ByteString} (between : Between w w' log)
    (later : w'.appended <+: u.appended) : Between w u log := by
  obtain ⟨written, low, high, eq⟩ := between
  exact ⟨written, low, high.trans later, eq⟩

theorem Between.of_same {log : ByteString} (between : Between w w' log)
    (same : w'.appended = w.appended) : log = w.file := by
  obtain ⟨written, low, high, rfl⟩ := between
  rw [same] at high
  rw [file, high.eq_of_length_le low.length_le]

theorem Between.of_append {log : ByteString} (between : Between w w' log)
    (more : w'.appended = w.appended ++ [bytes]) : log = w.file ∨ log = w.file ++ bytes := by
  obtain ⟨written, low, high, rfl⟩ := between
  rw [more, List.prefix_concat_iff] at high
  cases high with
  | inl all => exact .inr (by simp [all, file])
  | inr short => exact .inl (by rw [file, short.eq_of_length_le low.length_le])

theorem MayFlush.appended (may : MayFlush w w') : w.appended <+: w'.appended := by
  cases may with
  | inl same => exact same.1 ▸ List.prefix_rfl
  | inr more => exact more.1 ▸ List.prefix_append _ _

theorem MayFlush.file (may : MayFlush w w') : w'.file = w.file ∨ w'.file = w.contents := by
  cases may with
  | inl same => exact .inl (congrArg List.flatten same.1)
  | inr more => exact .inr (by simp [IouringWritable.file, contents, more.1])

theorem MayFlush.contents (may : MayFlush w w') : w'.contents = w.contents := by
  cases may with
  | inl same => simp [IouringWritable.contents, IouringWritable.file, same.1, same.2]
  | inr more => simp [IouringWritable.contents, IouringWritable.file, more.1, more.2]

theorem MayFlush.between {log : ByteString} (may : MayFlush w w') (between : Between w w' log) :
    log = w.file ∨ log = w.contents := by
  cases may with
  | inl same => exact .inl (between.of_same same.1)
  | inr more => exact between.of_append more.1

theorem commit_eq_none_iff : w.commit bytes = none ↔ w.left < bytes.length := by
  rw [commit]
  split
  · next room => simp only [reduceCtorEq, false_iff]; omega
  · next room => simp only [true_iff]; omega

theorem commit_capacity (done : w.commit bytes = some w') : w'.capacity = w.capacity := by
  rw [commit] at done
  split at done
  · obtain rfl := Option.some.inj done
    split
    · rw [flushValid_capacity]
    · rfl
  · cases done

theorem commit_contents (done : w.commit bytes = some w') : w'.contents = w.contents ++ bytes := by
  rw [commit] at done
  split at done
  · obtain rfl := Option.some.inj done
    split
    · rw [flushValid_contents, contents, contents, List.append_assoc]
      rfl
    · rw [contents, contents, List.append_assoc]
      rfl
  · cases done

/-- Either there is still room in the buffer, or it was filled and everything is in the file. -/
theorem commit_cases (done : w.commit bytes = some w') (nonempty : bytes ≠ []) :
    bytes.length < w.left ∧ w'.appended = w.appended ∧ w'.buffered = w.buffered ++ bytes ∨
      bytes.length = w.left ∧ w'.appended = w.appended ++ [w.buffered ++ bytes] ∧
        w'.buffered = [] := by
  have fits := w.fits
  rw [commit] at done
  split at done
  · next room =>
    obtain rfl := Option.some.inj done
    rw [left] at room ⊢
    by_cases full : w.capacity - (w.buffered ++ bytes).length = 0
    · have filled : w.buffered ++ bytes ≠ [] := by
        intro empty
        exact nonempty (List.append_eq_nil_iff.mp empty).2
      rw [if_pos (by exact full), flushValid, if_neg filled]
      rw [List.length_append] at full
      exact .inr ⟨by omega, rfl, rfl⟩
    · rw [if_neg (by exact full)]
      rw [List.length_append] at full
      exact .inl ⟨by omega, rfl, rfl⟩
  · cases done

/-- A buffered append reaches the buffer or the file. -/
theorem append_buffered (w : IouringWritable) (bytes : ByteString) :
    ∃ w', w.append true bytes = some w' ∧ w'.contents = w.contents ++ bytes := by
  have committed : ∀ {v : IouringWritable}, bytes.length ≤ v.left →
      ∃ w', v.commit bytes = some w' ∧ w'.contents = v.contents ++ bytes := by
    intro v room
    cases done : v.commit bytes with
    | none =>
      rw [commit_eq_none_iff] at done
      omega
    | some w' => exact ⟨w', rfl, commit_contents done⟩
  rw [append, if_pos rfl]
  by_cases room : bytes.length ≤ w.left
  · rw [if_pos room]
    exact committed room
  · rw [if_neg room]
    by_cases large : w.flushValid.left ≤ bytes.length
    · simp only [if_pos large]
      refine ⟨_, rfl, ?_⟩
      rw [← flushValid_contents w]
      simp [contents, file]
    · simp only [if_neg large]
      obtain ⟨w', done, eq⟩ := committed (not_le.mp large).le
      exact ⟨w', done, by rw [eq, flushValid_contents]⟩

/-- Without buffering nothing is written, as the buffer is empty. -/
theorem append_unbuffered {w : IouringWritable} (empty : w.buffered = []) (bytes : ByteString) :
    ∃ w', w.append false bytes = some w' ∧ w'.contents = w.contents ∧ w'.buffered = [] := by
  refine ⟨{ w with appended := w.appended ++ [w.buffered] }, rfl, ?_, empty⟩
  simp [contents, file, empty]

end IouringWritable

end FrenzyKV
