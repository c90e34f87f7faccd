import FrenzyKV.Io.SeqWritable
import Mathlib.Data.List.Induction

/-! Sequences of calls on an `iouring_writable`: what is in the file and the buffer after them
(`io/iouring_writable.cc`). -/

namespace FrenzyKV

open Bytes

namespace SeqWritable

/-- `commit` of bytes that were written to `writable_span`. -/
def commit (f : SeqWritable) (bytes : ByteString) : Option SeqWritable :=
  (f.writable.commit bytes).bind f.write

inductive Call
  | append (bytes : ByteString)
  | commit (bytes : ByteString)
  | flush
  | sync
  | close

namespace Call

/-- What the call hands over. -/
def bytes : Call → ByteString
  | append bytes => bytes
  | commit bytes => bytes
  | _ => []

/-- What of it passes the buffer. -/
def passed (opt : WritableOptions) : Call → ByteString
  | append bytes => SeqWritable.passed opt bytes
  | commit bytes => bytes
  | _ => []

def empties : Call → Bool
  | append _ => false
  | commit _ => false
  | _ => true

end Call

/-- One call; no result stands for an exception or an assertion. -/
def call (opt : WritableOptions) (f : SeqWritable) : Call → Option SeqWritable
  | .append bytes => f.append opt bytes
  | .commit bytes => f.commit bytes
  | .flush => f.flush
  | .sync => f.sync
  | .close => f.close

def calls (opt : WritableOptions) (f : SeqWritable) : List Call → Option SeqWritable
  | [] => some f
  | c :: cs => (f.call opt c).bind fun f => f.calls opt cs

variable {opt : WritableOptions} {f f' : SeqWritable} {c : Call} {cs : List Call}

theorem calls_concat (f : SeqWritable) (cs : List Call) (c : Call) :
    f.calls opt (cs ++ [c]) = (f.calls opt cs).bind fun f => f.call opt c := by
  induction cs generalizing f with
  | nil => exact Option.bind_fun_some _
  | cons d cs ih =>
    rw [List.cons_append, calls, calls, Option.bind_assoc]
    exact Option.bind_congr fun g _ => ih g

theorem write_eq_some {w : IouringWritable} (written : f.write w = some f') : f'.writable = w := by
  rw [write] at written
  split at written
  · rw [← Option.some.inj written]
  · cases written

theorem flush_writable (flushed : f.flush = some f') : f'.writable = f.writable.flushValid :=
  write_eq_some flushed

/-- A call that empties the buffer moves it to the file. -/
theorem call_of_empties (empties : c.empties = true) (done : f.call opt c = some f') :
    f'.writable = f.writable.flushValid ∧ c.passed opt = [] := by
  cases c with
  | append bytes => cases empties
  | commit bytes => cases empties
  | flush => exact ⟨flush_writable done, rfl⟩
  | sync =>
    obtain ⟨g, flushed, rfl⟩ := Option.map_eq_some_iff.mp done
    have moved := flush_writable flushed
    refine ⟨?_, rfl⟩
    split
    · exact moved
    · exact moved
  | close =>
    obtain ⟨g, flushed, rfl⟩ := Option.map_eq_some_iff.mp done
    have moved := flush_writable flushed
    exact ⟨moved, rfl⟩

/-- Without buffering there is no room for bytes in the buffer. -/
def Unbuffered (opt : WritableOptions) (f : SeqWritable) : Prop :=
  opt.needBufferedWrite = false → f.writable.capacity = 0

theorem Unbuffered.empty (unbuffered : f.Unbuffered opt) (off : opt.needBufferedWrite = false) :
    f.writable.buffered = [] := by
  have fits := f.writable.fits
  rw [unbuffered off] at fits
  exact List.length_eq_zero_iff.mp (Nat.le_zero.mp fits)

/-- One call adds what passes to the file and the buffer. -/
theorem call_spec (unbuffered : f.Unbuffered opt) (done : f.call opt c = some f') :
    f'.writable.contents = f.writable.contents ++ c.passed opt ∧ f'.Unbuffered opt := by
  by_cases empties : c.empties = true
  · obtain ⟨moved, none_passed⟩ := call_of_empties empties done
    rw [moved, none_passed, List.append_nil, Unbuffered, moved, IouringWritable.flushValid_capacity]
    exact ⟨IouringWritable.flushValid_contents _, unbuffered⟩
  · cases c with
    | append bytes =>
      obtain ⟨w, appended, written⟩ := Option.bind_eq_some_iff.mp done
      rw [write_eq_some written, Unbuffered, write_eq_some written, Call.passed, SeqWritable.passed]
      cases buffered : opt.needBufferedWrite with
      | true =>
        rw [buffered] at appended
        obtain ⟨w', done', contents⟩ := IouringWritable.append_buffered f.writable bytes
        obtain rfl := Option.some.inj (appended.symm.trans done')
        exact ⟨contents, fun off => absurd off (by decide)⟩
      | false =>
        rw [buffered] at appended
        obtain rfl := Option.some.inj appended
        refine ⟨?_, fun _ => unbuffered buffered⟩
        simp [IouringWritable.contents, IouringWritable.file, unbuffered.empty buffered]
    | commit bytes =>
      obtain ⟨w, committed, written⟩ := Option.bind_eq_some_iff.mp done
      rw [write_eq_some written, Unbuffered, write_eq_some written,
        IouringWritable.commit_capacity committed]
      exact ⟨IouringWritable.commit_contents committed, unbuffered⟩
    | flush => exact absurd rfl empties
    | sync => exact absurd rfl empties
    | close => exact absurd rfl empties

theorem commit_eq_nil {bytes : ByteString} (unbuffered : f.Unbuffered opt)
    (off : opt.needBufferedWrite = false) (done : f.commit bytes = some f') : bytes = [] := by
  obtain ⟨w, committed, -⟩ := Option.bind_eq_some_iff.mp done
  have room : ¬ f.writable.left < bytes.length := by
    rw [← IouringWritable.commit_eq_none_iff, committed]
    exact Option.some_ne_none w
  rw [IouringWritable.left, unbuffered off] at room
  exact List.length_eq_zero_iff.mp (by omega)

/-- After the calls the file and the buffer hold what passed, and a call that empties the buffer has
done so. -/
structure Holds (opt : WritableOptions) (f : SeqWritable) (cs : List Call) : Prop where
  contents : f.writable.contents = cs.flatMap (Call.passed opt)
  unbuffered : f.Unbuffered opt
  commits : opt.needBufferedWrite = false → ∀ bytes, Call.commit bytes ∈ cs → bytes = []
  emptied : ∀ c ∈ cs.getLast?, c.empties = true → f.writable.buffered = []

theorem calls_holds (done : (opened opt).calls opt cs = some f) : f.Holds opt cs := by
  induction cs using List.reverseRecOn generalizing f with
  | nil =>
    obtain rfl := Option.some.inj done
    refine ⟨rfl, ?_, fun _ _ mem => absurd mem List.not_mem_nil, fun _ none_last => by cases none_last⟩
    intro off
    change (if opt.needBufferedWrite = true then _ else 0) = 0
    rw [off]
    rfl
  | append_singleton cs c ih =>
    rw [calls_concat] at done
    obtain ⟨g, before, last⟩ := Option.bind_eq_some_iff.mp done
    have held := ih before
    obtain ⟨contents, unbuffered⟩ := call_spec held.unbuffered last
    refine ⟨?_, unbuffered, ?_, ?_⟩
    · rw [contents, held.contents, List.flatMap_append, List.flatMap_singleton]
    · intro off bytes mem
      cases List.mem_append.mp mem with
      | inl earlier => exact held.commits off bytes earlier
      | inr now =>
        obtain rfl := List.mem_singleton.mp now
        exact commit_eq_nil held.unbuffered off last
    · intro d is_last empties
      rw [List.getLast?_concat, Option.mem_some_iff] at is_last
      subst is_last
      rw [(call_of_empties empties last).1, IouringWritable.flushValid_buffered]

/-- The file and the buffer hold all that was appended and committed, and the buffer is empty behind a
call that empties it, if and only if writes are buffered or no bytes are appended. -/
theorem calls_keep_iff (done : (opened opt).calls opt cs = some f) :
    (f.file ++ f.writable.buffered = cs.flatMap Call.bytes ∧
      ∀ c ∈ cs.getLast?, c.empties = true → f.writable.buffered = []) ↔
      opt.needBufferedWrite = true ∨ ∀ bytes, Call.append bytes ∈ cs → bytes = [] := by
  have held := calls_holds done
  have all : f.file ++ f.writable.buffered = cs.flatMap (Call.passed opt) := held.contents
  rw [all, and_iff_left held.emptied]
  cases buffered : opt.needBufferedWrite with
  | true =>
    refine iff_of_true (List.flatMap_congr fun c _ => ?_) (.inl rfl)
    cases c with
    | append bytes => exact if_pos buffered
    | commit bytes => rfl
    | flush => rfl
    | sync => rfl
    | close => rfl
  | false =>
    have nothing : cs.flatMap (Call.passed opt) = [] := by
      refine List.flatMap_eq_nil_iff.mpr fun c mem => ?_
      cases c with
      | append bytes => exact if_neg (by rw [buffered]; decide)
      | commit bytes => exact held.commits buffered bytes mem
      | flush => rfl
      | sync => rfl
      | close => rfl
    rw [nothing, eq_comm, List.flatMap_eq_nil_iff]
    constructor
    · exact fun empty => .inr fun bytes mem => empty (.append bytes) mem
    · rintro (on | none_appended) c mem
      · cases on
      · cases c with
        | append bytes => exact none_appended bytes mem
        | commit bytes => exact held.commits buffered bytes mem
        | flush => rfl
        | sync => rfl
        | close => rfl

/-- Buffered calls that take each of the paths of `append`. -/
theorem calls_keep_buffered :
    let opt : WritableOptions := ⟨true, 4⟩
    let cs := [.append [1, 2], .append [3, 4, 5], .append [6, 7, 8, 9, 10], .commit [11], .sync]
    ∃ f, (opened opt).calls opt cs = some f ∧ f.file ++ f.writable.buffered = cs.flatMap Call.bytes := by
  intro opt cs
  have runs : ((opened opt).calls opt cs).isSome = true := by decide +kernel
  obtain ⟨f, done⟩ := Option.isSome_iff_exists.mp runs
  exact ⟨f, done, ((calls_keep_iff done).mpr (.inl rfl)).1⟩

/-- One append without buffering: nothing reaches the file. -/
theorem calls_lose_unbuffered :
    let opt : WritableOptions := ⟨false, 4096⟩
    ∃ f, (opened opt).calls opt [.append [1, 2], .sync] = some f ∧
      f.file ++ f.writable.buffered = [] ∧ [.append [1, 2], .sync].flatMap Call.bytes = [1, 2] := by
  intro opt
  have runs : ((opened opt).calls opt [.append [1, 2], .sync]).any
      (fun f => f.file ++ f.writable.buffered = []) = true := by decide +kernel
  obtain ⟨f, done, lost⟩ := (Option.any_eq_true _ _).mp runs
  exact ⟨f, done, of_decide_eq_true lost, rfl⟩

end SeqWritable

end FrenzyKV
