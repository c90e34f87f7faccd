import FrenzyKV.Io.IouringWritable

/-! A file behind its descriptor: what was written to it and what was synced
(`io/iouring_writable.cc`). -/

namespace FrenzyKV

open Bytes

/-- An `iouring_writable` with its descriptor, and the contents of the file when the last
`fdatasync` on the open descriptor completed. -/
structure SeqWritable where
  writable : IouringWritable
  fdOpen : Bool
  synced : ByteString

namespace SeqWritable

variable (opt : WritableOptions)

/-- `get_seq_writable` on a file that is new. -/
def opened : SeqWritable := ⟨openWritable opt [], true, []⟩

/-- What is in the file. -/
def file (f : SeqWritable) : ByteString := f.writable.file

/-- Bytes reach the file through an open descriptor only. -/
def write (f : SeqWritable) (writable : IouringWritable) : Option SeqWritable :=
  if f.fdOpen ∨ writable.appended = f.writable.appended then some { f with writable } else none

def append (f : SeqWritable) (bytes : ByteString) : Option SeqWritable :=
  (f.writable.append opt.needBufferedWrite bytes).bind f.write

def flush (f : SeqWritable) : Option SeqWritable := f.write f.writable.flushValid

/-- `close`, which flushes first. -/
def close (f : SeqWritable) : Option SeqWritable :=
  f.flush.map fun f => { f with fdOpen := false }

/-- `sync`. On a closed descriptor `fdatasync` has no effect. -/
def sync (f : SeqWritable) : Option SeqWritable :=
  f.flush.map fun f => if f.fdOpen then { f with synced := f.file } else f

/-- What reaches a file of the bytes that are handed to `append`. -/
def passed (bytes : ByteString) : ByteString := if opt.needBufferedWrite = true then bytes else []

/-- An open file that was not synced yet, after `bytes` were handed to `append`. -/
structure Receives (f : SeqWritable) (bytes : ByteString) : Prop where
  fdOpen : f.fdOpen = true
  contents : f.writable.contents = passed opt bytes
  empty : opt.needBufferedWrite = false → f.writable.buffered = []
  unsynced : f.synced = []

variable {opt} {f : SeqWritable} {bytes : ByteString}

theorem passed_of_buffered (buffered : opt.needBufferedWrite = true) (bytes : ByteString) :
    passed opt bytes = bytes :=
  if_pos buffered

theorem opened_receives (opt : WritableOptions) : (opened opt).Receives opt [] where
  fdOpen := rfl
  contents := by
    rw [passed, ite_self]
    rfl
  empty _ := rfl
  unsynced := rfl

/-- With an open descriptor every append succeeds. -/
theorem Receives.append (receives : f.Receives opt bytes) (more : ByteString) :
    ∃ f', f.append opt more = some f' ∧ f'.Receives opt (bytes ++ more) := by
  cases buffered : opt.needBufferedWrite with
  | true =>
    obtain ⟨w, appended, contents⟩ := IouringWritable.append_buffered f.writable more
    refine ⟨{ f with writable := w }, ?_, receives.fdOpen, ?_, ?_, receives.unsynced⟩
    · rw [SeqWritable.append, buffered, appended, Option.bind_some, write, if_pos (.inl receives.fdOpen)]
    · rw [contents, receives.contents, passed, passed, if_pos buffered, if_pos buffered]
    · intro off
      cases buffered.symm.trans off
  | false =>
    obtain ⟨w, appended, contents, empty⟩ :=
      IouringWritable.append_unbuffered (receives.empty buffered) more
    refine ⟨{ f with writable := w }, ?_, receives.fdOpen, ?_, fun _ => empty, receives.unsynced⟩
    · rw [SeqWritable.append, buffered, appended, Option.bind_some, write, if_pos (.inl receives.fdOpen)]
    · rw [contents, receives.contents, passed, passed, buffered]
      rfl

theorem Receives.flush (receives : f.Receives opt bytes) :
    f.flush = some { f with writable := f.writable.flushValid } :=
  if_pos (.inl receives.fdOpen)

theorem Receives.flushed {f' : SeqWritable} (receives : f.Receives opt bytes)
    (flushed : f.flush = some f') : f'.Receives opt bytes := by
  obtain rfl := Option.some.inj (receives.flush.symm.trans flushed)
  exact ⟨receives.fdOpen, (IouringWritable.flushValid_contents _).trans receives.contents,
    fun _ => IouringWritable.flushValid_buffered _, receives.unsynced⟩

/-- A sync of the open file covers everything that passed. -/
theorem Receives.sync (receives : f.Receives opt bytes) :
    ∃ f', f.sync = some f' ∧ f'.file = passed opt bytes ∧ f'.synced = passed opt bytes := by
  have file : f.writable.flushValid.file = passed opt bytes := by
    rw [IouringWritable.flushValid_file, receives.contents]
  refine ⟨⟨f.writable.flushValid, f.fdOpen, f.writable.flushValid.file⟩, ?_, file, file⟩
  rw [SeqWritable.sync, receives.flush, Option.map_some]
  exact congrArg some (if_pos receives.fdOpen)

/-- Everything that passed is in a file that is closed, and a sync behind that does nothing. -/
theorem Receives.close (receives : f.Receives opt bytes) :
    ∃ f', f.close = some f' ∧ f'.sync = some f' ∧ f'.file = passed opt bytes ∧ f'.synced = [] := by
  let closed : SeqWritable := ⟨f.writable.flushValid, false, f.synced⟩
  have none_left : closed.writable.flushValid = closed.writable :=
    if_pos (IouringWritable.flushValid_buffered f.writable)
  refine ⟨closed, ?_, ?_, ?_, receives.unsynced⟩
  · rw [SeqWritable.close, receives.flush]
    rfl
  · rw [SeqWritable.sync, SeqWritable.flush, write, none_left, if_pos (.inr rfl)]
    rfl
  · exact (IouringWritable.flushValid_file f.writable).trans receives.contents

end SeqWritable

end FrenzyKV
