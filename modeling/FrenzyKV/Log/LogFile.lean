import FrenzyKV.Io.IouringWritable
import FrenzyKV.Log.EntryBuffer
import Mathlib.Algebra.Order.BigOperators.Group.List
import Mathlib.Order.Bounds.Basic

namespace FrenzyKV

open Bytes

namespace KvEntry

/-- What `serialize_to` returns for a span of `room` bytes: the total length in its 32 bits. -/
def serializeTo (e : KvEntry) (room : Nat) : Nat :=
  let totalLen := e.serializedBytesSize % 2 ^ 32
  if room < totalLen then 0 else totalLen

/-- The layout of a serialized entry: every length field holds the length that it stands for, and
the number is the entry's. -/
structure FollowsLayout (e : KvEntry) : Prop where
  totalLength : decodeBigEndian (e.serialize.take totalLengthBytesSize) = e.serialize.length
  userKeyLength : decodeBigEndian ((e.serialize.drop totalLengthBytesSize).take
    userKeyLengthBytesSize) = e.userKey.size
  seq : decodeBigEndian ((e.serialize.drop (totalLengthBytesSize + userKeyLengthBytesSize +
    e.userKey.size)).take seqBytesSize) = e.seq
  valueLength : decodeBigEndian ((e.serialize.drop (totalLengthBytesSize +
    e.key.serializedBytesSize)).take userValueLengthBytesSize) = KvUserValue.size e.value

variable {e : KvEntry}

/-- A field that stands behind `front` bytes. -/
theorem decode_field {front rest bytes : ByteString} {offset width n : Nat}
    (eq : bytes = front ++ (encodeBigEndian width n ++ rest)) (size : front.length = offset) :
    decodeBigEndian ((bytes.drop offset).take width) = n % 256 ^ width := by
  rw [eq, List.drop_left' size, List.take_left' (encodeBigEndian_length _ _), decode_encodeBigEndian]

theorem decode_totalLength (e : KvEntry) :
    decodeBigEndian (e.serialize.take totalLengthBytesSize) = e.serializedBytesSize % 2 ^ 32 := by
  have front : e.serialize = encodeBigEndian totalLengthBytesSize e.serializedBytesSize ++
      (e.key.serialize ++ KvUserValue.serialize e.value) := by simp [serialize]
  rw [front, List.take_left' (encodeBigEndian_length _ _), decode_encodeBigEndian]
  rfl

theorem decode_userKeyLength (e : KvEntry) :
    decodeBigEndian ((e.serialize.drop totalLengthBytesSize).take userKeyLengthBytesSize) =
      e.userKey.size % 2 ^ 16 := by
  have split : e.serialize = encodeBigEndian totalLengthBytesSize e.serializedBytesSize ++
      (encodeBigEndian userKeyLengthBytesSize e.userKey.size ++ (e.userKey.bytes ++
        (encodeBigEndian seqBytesSize e.seq ++ KvUserValue.serialize e.value))) := by
    simp [serialize, SequencedKey.serialize, SequencedKey.serializeUserKey, userKey, seq]
  exact decode_field split (encodeBigEndian_length _ _)

theorem decode_seq (e : KvEntry) :
    decodeBigEndian ((e.serialize.drop (totalLengthBytesSize + userKeyLengthBytesSize +
      e.userKey.size)).take seqBytesSize) = e.seq % 2 ^ 32 := by
  have split : e.serialize = (encodeBigEndian totalLengthBytesSize e.serializedBytesSize ++
      e.key.serializeUserKey) ++ (encodeBigEndian seqBytesSize e.seq ++
        KvUserValue.serialize e.value) := by
    simp [serialize, SequencedKey.serialize, seq]
  apply decode_field split
  simp [SequencedKey.serializeUserKey, userKey, UserKey.size, Nat.add_assoc]

theorem decode_valueLength (e : KvEntry) :
    decodeBigEndian ((e.serialize.drop (totalLengthBytesSize + e.key.serializedBytesSize)).take
      userValueLengthBytesSize) = KvUserValue.size e.value % 2 ^ 32 := by
  have split : e.serialize = (encodeBigEndian totalLengthBytesSize e.serializedBytesSize ++
      e.key.serialize) ++ (encodeBigEndian userValueLengthBytesSize (KvUserValue.size e.value) ++
        e.value.copied) := by
    simp [serialize, KvUserValue.serialize]
  apply decode_field split
  simp [SequencedKey.serialize, SequencedKey.serializeUserKey, SequencedKey.serializedBytesSize,
    UserKey.size]
  omega

/-- The layout is kept exactly by the entries that fit the widths of their fields. -/
theorem followsLayout_iff_fits (e : KvEntry) : e.FollowsLayout ↔ e.Fits := by
  constructor
  · intro layout
    have total := layout.totalLength
    have key := layout.userKeyLength
    have number := layout.seq
    rw [decode_totalLength, serialize_length] at total
    rw [decode_userKeyLength] at key
    rw [decode_seq] at number
    have short : e.seq % 2 ^ 32 < 2 ^ 32 := Nat.mod_lt _ (by decide)
    exact ⟨by omega, by omega, by rw [sequenceNumberModulus]; omega⟩
  · intro fits
    have total := fits.total
    have key := fits.key
    have number := fits.number
    rw [sequenceNumberModulus] at number
    have value : KvUserValue.size e.value < 2 ^ 32 := by
      simp only [serializedBytesSize, KvUserValue.serializedBytesSize] at total
      omega
    exact {
      totalLength := by rw [decode_totalLength, serialize_length, Nat.mod_eq_of_lt total]
      userKeyLength := by rw [decode_userKeyLength, Nat.mod_eq_of_lt key]
      seq := by rw [decode_seq, Nat.mod_eq_of_lt number]
      valueLength := by rw [decode_valueLength, Nat.mod_eq_of_lt value] }

end KvEntry

/-- A log holds these entries: their serialized forms follow one another, and recovery returns
them with the greatest of their numbers. -/
structure LogHolds (es : List KvEntry) (log : ByteString) : Prop where
  concatenated : log = es.flatMap KvEntry.serialize
  layout : ∀ e ∈ es, e.FollowsLayout
  recovered : ∃ maxSeq, EntryBuffer.recover log = .ok (⟨0, es⟩, maxSeq) ∧
    IsLUB {n | ∃ e ∈ es, e.seq = n} maxSeq

theorem isLUB_maxSequenceNumber (es : List KvEntry) :
    IsLUB {n | ∃ e ∈ es, e.seq = n} (maxSequenceNumber es) := by
  constructor
  · intro n mem
    obtain ⟨e, mem, rfl⟩ := mem
    exact le_maxSequenceNumber mem
  · intro bound all
    exact maxSequenceNumber_le fun e mem => all ⟨e, mem, rfl⟩

/-- A log holds entries exactly when it is their concatenation and they can be logged. -/
theorem logHolds_iff {es : List KvEntry} {log : ByteString} :
    LogHolds es log ↔ log = es.flatMap KvEntry.serialize ∧ ∀ e ∈ es, e.Loggable := by
  have nil := EntryBuffer.kvEntriesFromBuffer_nil
  constructor
  · intro holds
    have fits : ∀ e ∈ es, e.Fits := fun e mem => (e.followsLayout_iff_fits).mp (holds.layout e mem)
    obtain ⟨maxSeq, recovered, _⟩ := holds.recovered
    have read : EntryBuffer.kvEntriesFromBuffer log = (es, none) := by
      exact EntryBuffer.read_of_recover recovered
    rw [holds.concatenated, ← List.append_nil (es.flatMap KvEntry.serialize)] at read
    have back := (EntryBuffer.kvEntriesFromBuffer_eq_iff fits nil).mp read
    exact ⟨holds.concatenated, fun e mem => ⟨fits e mem, back e mem⟩⟩
  · intro holds
    obtain ⟨rfl, loggable⟩ := holds
    have read := (EntryBuffer.kvEntriesFromBuffer_eq_iff (fun e mem => (loggable e mem).1) nil).mpr
      fun e mem => (loggable e mem).2
    rw [List.append_nil] at read
    exact ⟨rfl, fun e mem => (e.followsLayout_iff_fits).mpr (loggable e mem).1,
      _, EntryBuffer.recover_of_read read, isLUB_maxSequenceNumber es⟩

namespace WriteAheadLogger

/-- How a call ends: it returns, throws, or an assertion stops the process. -/
inductive CallEnd
  | returned
  | threw
  | aborted
deriving DecidableEq, Repr

/-- The buffer is flushed when it has no room for the item. -/
def makeRoom (file : IouringWritable) (item : KvEntry) : IouringWritable :=
  if file.left < item.serializedBytesSize then file.flushValid else file

/-- The item is serialized into the writable span and committed. -/
def writeItem (file : IouringWritable) (item : KvEntry) : IouringWritable × CallEnd :=
  if item.serializeTo file.left = 0 then (file, .threw)
  else match file.commit item.serialize with
    | none => (file, .aborted)
    | some file' => (file', .returned)

/-- One turn of the loop of `insert`. -/
def insertItem (file : IouringWritable) (item : KvEntry) : IouringWritable × CallEnd :=
  writeItem (makeRoom file item) item

def insertItems : IouringWritable → List KvEntry → IouringWritable × CallEnd
  | file, [] => (file, .returned)
  | file, item :: items =>
    match insertItem file item with
    | (file', .returned) => insertItems file' items
    | (file', stop) => (file', stop)

/-- `may_flush_impl`; `flush` is what the statistics decide. -/
def mayFlush (file : IouringWritable) (flush : Bool) : IouringWritable :=
  if flush then file.flushValid else file

def insert (file : IouringWritable) (b : WriteBatch) (flush : Bool) : IouringWritable × CallEnd :=
  match insertItems file b.entries with
  | (file', .returned) => (mayFlush file' flush, .returned)
  | (file', stop) => (file', stop)

/-- A call to the logger. -/
inductive Call
  | insert (b : WriteBatch) (flush : Bool)
  | mayFlush (force : Bool)

def Call.entries : Call → List KvEntry
  | insert b _ => b.entries
  | mayFlush _ => []

def call (file : IouringWritable) : Call → IouringWritable × CallEnd
  | .insert b flush => insert file b flush
  | .mayFlush force => (mayFlush file force, .returned)

/-- Calls one after another, up to the first that does not return. -/
def calls : IouringWritable → List Call → IouringWritable × CallEnd
  | file, [] => (file, .returned)
  | file, c :: cs =>
    match call file c with
    | (file', .returned) => calls file' cs
    | (file', stop) => (file', stop)

/-- The entries that the logger writes: they fit the buffer, and the length that
`serialize_to` returns is not zero. -/
def Accepts (capacity : Nat) (e : KvEntry) : Prop :=
  e.serializedBytesSize ≤ capacity ∧ e.serializedBytesSize % 2 ^ 32 ≠ 0

instance (capacity : Nat) (e : KvEntry) : Decidable (Accepts capacity e) :=
  inferInstanceAs (Decidable (_ ∧ _))

variable {file file' : IouringWritable} {e : KvEntry} {es : List KvEntry} {cs : List Call}

@[simp] theorem makeRoom_capacity : (makeRoom file e).capacity = file.capacity := by
  rw [makeRoom]
  split
  · exact file.flushValid_capacity
  · rfl

@[simp] theorem makeRoom_contents : (makeRoom file e).contents = file.contents := by
  rw [makeRoom]
  split
  · exact file.flushValid_contents
  · rfl

theorem le_left_makeRoom (small : e.serializedBytesSize ≤ file.capacity) :
    e.serializedBytesSize ≤ (makeRoom file e).left := by
  rw [makeRoom]
  split
  · rw [IouringWritable.flushValid_left]
    exact small
  · omega

/-- An accepted item is committed whole. -/
theorem insertItem_of_accepts (accepts : Accepts file.capacity e) :
    ∃ file', insertItem file e = (file', .returned) ∧
      (makeRoom file e).commit e.serialize = some file' := by
  have room := le_left_makeRoom accepts.1
  have enough : ¬ (makeRoom file e).left < e.serializedBytesSize % 2 ^ 32 := by
    have := Nat.mod_le e.serializedBytesSize (2 ^ 32)
    omega
  have written : e.serializeTo (makeRoom file e).left ≠ 0 := by
    rw [KvEntry.serializeTo, if_neg enough]
    exact accepts.2
  cases done : (makeRoom file e).commit e.serialize with
  | none =>
    rw [IouringWritable.commit_eq_none_iff, KvEntry.serialize_length] at done
    omega
  | some file' =>
    refine ⟨file', ?_, rfl⟩
    rw [insertItem, writeItem, if_neg written, done]

theorem commit_makeRoom_capacity {next : IouringWritable} {item : ByteString}
    (done : (makeRoom file e).commit item = some next) : next.capacity = file.capacity := by
  rw [IouringWritable.commit_capacity done, makeRoom_capacity]

theorem commit_makeRoom_contents {next : IouringWritable} {item : ByteString}
    (done : (makeRoom file e).commit item = some next) : next.contents = file.contents ++ item := by
  rw [IouringWritable.commit_contents done, makeRoom_contents]

/-- A file with a buffer of the same size accepts the items that are left. -/
theorem accepts_tail {next : IouringWritable} (capacity : next.capacity = file.capacity)
    (accepts : ∀ x ∈ e :: es, Accepts file.capacity x) : ∀ x ∈ es, Accepts next.capacity x := by
  intro x mem
  rw [capacity]
  exact accepts x (List.mem_cons_of_mem _ mem)

/-- An item that is not accepted ends the call, and nothing of it is written. When an assertion
fails, everything before it is in the file. -/
theorem insertItem_of_not_accepts (refuses : ¬ Accepts file.capacity e) :
    ∃ stop, stop ≠ .returned ∧ insertItem file e = (makeRoom file e, stop) ∧
      (stop = .aborted → (makeRoom file e).file = file.contents) := by
  by_cases written : e.serializeTo (makeRoom file e).left = 0
  · refine ⟨.threw, by decide, ?_, fun aborted => by cases aborted⟩
    rw [insertItem, writeItem, if_pos written]
  · have unfit : (makeRoom file e).left < e.serializedBytesSize := by
      by_contra room
      have small : e.serializedBytesSize ≤ file.capacity := by
        have : (makeRoom file e).left ≤ (makeRoom file e).capacity := Nat.sub_le _ _
        rw [makeRoom_capacity] at this
        omega
      have zero : e.serializedBytesSize % 2 ^ 32 = 0 := by
        by_contra positive
        exact refuses ⟨small, positive⟩
      apply written
      rw [KvEntry.serializeTo, zero]
      split <;> rfl
    have refused : (makeRoom file e).commit e.serialize = none := by
      rw [IouringWritable.commit_eq_none_iff, KvEntry.serialize_length]
      exact unfit
    refine ⟨.aborted, by decide, by rw [insertItem, writeItem, if_neg written, refused], fun _ => ?_⟩
    rw [makeRoom] at unfit ⊢
    split at unfit
    · next short =>
      rw [if_pos short]
      exact file.flushValid_file
    · contradiction

/-- Accepted items are all committed, in order. -/
theorem insertItems_of_accepts (accepts : ∀ e ∈ es, Accepts file.capacity e) :
    ∃ file', insertItems file es = (file', .returned) ∧ file'.capacity = file.capacity ∧
      file'.contents = file.contents ++ es.flatMap KvEntry.serialize := by
  induction es generalizing file with
  | nil => exact ⟨file, rfl, rfl, by simp⟩
  | cons e es ih =>
    obtain ⟨next, item, done⟩ := insertItem_of_accepts (accepts e List.mem_cons_self)
    have capacity := commit_makeRoom_capacity done
    obtain ⟨last, items, same, contents⟩ := ih (accepts_tail capacity accepts)
    refine ⟨last, by rw [insertItems, item]; exact items, same.trans capacity, ?_⟩
    rw [contents, commit_makeRoom_contents done, List.flatMap_cons, List.append_assoc]

@[simp] theorem mayFlush_capacity (flush : Bool) :
    (mayFlush file flush).capacity = file.capacity := by
  cases flush
  · rfl
  · exact file.flushValid_capacity

@[simp] theorem mayFlush_contents (flush : Bool) :
    (mayFlush file flush).contents = file.contents := by
  cases flush
  · rfl
  · exact file.flushValid_contents

theorem call_of_accepts {c : Call} (accepts : ∀ e ∈ c.entries, Accepts file.capacity e) :
    ∃ file', call file c = (file', .returned) ∧ file'.capacity = file.capacity ∧
      file'.contents = file.contents ++ c.entries.flatMap KvEntry.serialize := by
  cases c with
  | insert b flush =>
    obtain ⟨next, items, capacity, contents⟩ := insertItems_of_accepts accepts
    have items : insertItems file b.entries = (next, .returned) := items
    refine ⟨mayFlush next flush, ?_, by rw [mayFlush_capacity, capacity], by
      rw [mayFlush_contents, contents]⟩
    change insert file b flush = _
    rw [insert, items]
  | mayFlush force => exact ⟨_, rfl, mayFlush_capacity force, by simp [Call.entries]⟩

theorem calls_of_accepts (accepts : ∀ c ∈ cs, ∀ e ∈ c.entries, Accepts file.capacity e) :
    ∃ file', calls file cs = (file', .returned) ∧ file'.capacity = file.capacity ∧
      file'.contents =
        file.contents ++ (cs.flatMap Call.entries).flatMap KvEntry.serialize := by
  induction cs generalizing file with
  | nil => exact ⟨file, rfl, rfl, by simp⟩
  | cons c cs ih =>
    obtain ⟨next, first, capacity, contents⟩ := call_of_accepts (accepts c List.mem_cons_self)
    have accepts' : ∀ c ∈ cs, ∀ e ∈ c.entries, Accepts next.capacity e := by
      rw [capacity]
      exact fun x mem => accepts x (List.mem_cons_of_mem _ mem)
    obtain ⟨last, later, same, all⟩ := ih accepts'
    refine ⟨last, by rw [calls, first]; exact later, same.trans capacity, ?_⟩
    rw [all, contents, List.flatMap_cons, List.flatMap_append, List.append_assoc]

/-- Whatever is inserted into an empty log, and wherever it is flushed, the log holds it after a
last flush, exactly when every total length fits its field. -/
theorem log_holds_inserted_iff (capacity : Nat)
    (key : ∀ e ∈ cs.flatMap Call.entries, 1 ≤ e.userKey.size ∧ e.userKey.size ≤ 65535)
    (value : ∀ e ∈ cs.flatMap Call.entries, e.value ≠ some [])
    (number : ∀ e ∈ cs.flatMap Call.entries, e.seq < sequenceNumberModulus)
    (small : ∀ e ∈ cs.flatMap Call.entries, e.serializedBytesSize ≤ capacity) :
    (∃ file, calls (.opened capacity) cs = (file, .returned) ∧
      LogHolds (cs.flatMap Call.entries) file.flushValid.file) ↔
      ∀ e ∈ cs.flatMap Call.entries, e.serializedBytesSize < 2 ^ 32 := by
  constructor
  · intro returns e mem
    obtain ⟨file, _, holds⟩ := returns
    exact ((e.followsLayout_iff_fits).mp (holds.layout e mem)).total
  · intro total
    have accepts : ∀ c ∈ cs, ∀ e ∈ c.entries,
        Accepts (IouringWritable.opened capacity).capacity e := by
      intro c hc e he
      have mem : e ∈ cs.flatMap Call.entries := List.mem_flatMap.mpr ⟨c, hc, he⟩
      refine ⟨small e mem, ?_⟩
      rw [Nat.mod_eq_of_lt (total e mem)]
      exact (serializedBytesSize_pos e).ne'
    obtain ⟨file, run, _, contents⟩ := calls_of_accepts accepts
    refine ⟨file, run, logHolds_iff.mpr ⟨?_, fun e mem => ?_⟩⟩
    · rw [IouringWritable.flushValid_file, contents]
      rfl
    · have size := key e mem
      exact ⟨⟨by omega, total e mem, number e mem⟩, by omega, value e mem⟩

/-- Two batches of three entries of 16 bytes, a forced flush between them. -/
def threeEntries : List Call :=
  [.insert ⟨7, [KvEntry.brief 1 7 2, KvEntry.brief 3 8 4]⟩ false, .mayFlush true,
    .insert ⟨9, [KvEntry.brief 5 9 6]⟩ false]

theorem log_holds_threeEntries :
    ∃ file, calls (.opened 40) threeEntries = (file, .returned) ∧
      LogHolds [KvEntry.brief 1 7 2, KvEntry.brief 3 8 4, KvEntry.brief 5 9 6]
        file.flushValid.file :=
  (@log_holds_inserted_iff threeEntries 40 (by decide) (by decide) (by decide)
    (by decide)).mpr (by decide)

/-- An entry with a one-byte key and a value of `n` zero bytes. -/
def longValue (n : Nat) : KvEntry := ⟨⟨7, ⟨[1]⟩⟩, some (List.replicate n 0)⟩

theorem longValue_size (n : Nat) : (longValue n).serializedBytesSize = n + 15 := by
  simp only [longValue, KvEntry.serializedBytesSize, SequencedKey.serializedBytesSize, UserKey.size,
    KvUserValue.serializedBytesSize, KvUserValue.size, totalLengthBytesSize, userKeyLengthBytesSize,
    seqBytesSize, List.length_singleton, Option.map_some, List.length_replicate, Option.getD_some]
  omega

theorem longValue_value {n : Nat} (positive : 0 < n) : (longValue n).value ≠ some [] := by
  intro empty
  have length := congrArg KvUserValue.size empty
  simp only [longValue, KvUserValue.size, Option.map_some, List.length_replicate,
    Option.getD_some, List.length_nil] at length
  omega

theorem insert_wrapped {n : Nat} (b : WriteBatch) (only : b.entries = [longValue n])
    (wraps : (n + 15) % 2 ^ 32 = 0) {capacity : Nat} (fits : n + 15 ≤ capacity) (flush : Bool) :
    insert (.opened capacity) b flush = (.opened capacity, .threw) := by
  have room : ¬ (IouringWritable.opened capacity).left < (longValue n).serializedBytesSize := by
    rw [longValue_size]
    change ¬ capacity - 0 < _
    omega
  have item : insertItem (.opened capacity) (longValue n) = (.opened capacity, .threw) := by
    have zero : (longValue n).serializeTo (IouringWritable.opened capacity).left = 0 := by
      rw [KvEntry.serializeTo, longValue_size, wraps]
      split <;> rfl
    rw [insertItem, makeRoom, if_neg room, writeItem, if_pos zero]
  rw [insert, only, insertItems, item]

/-- The total length of an entry of 2 ^ 32 bytes is taken for zero, and its insertion throws
although it fits the buffer. -/
theorem wrapped_length_not_logged :
    let e := longValue (2 ^ 32 - 15)
    (1 ≤ e.userKey.size ∧ e.userKey.size ≤ 65535) ∧ e.value ≠ some [] ∧
    e.seq < sequenceNumberModulus ∧ e.serializedBytesSize ≤ 2 ^ 33 ∧
    calls (.opened (2 ^ 33)) [.insert ⟨7, [e]⟩ true] = (.opened (2 ^ 33), .threw) ∧
    ¬ ∃ file, calls (.opened (2 ^ 33)) [.insert ⟨7, [e]⟩ true] = (file, .returned) ∧
      LogHolds [e] file.flushValid.file := by
  intro e
  have throws : calls (.opened (2 ^ 33)) [.insert ⟨7, [e]⟩ true] = (.opened (2 ^ 33), .threw) := by
    rw [calls, call, insert_wrapped ⟨7, [e]⟩ rfl (by omega) (by omega)]
  have key : e.userKey.size = 1 := rfl
  have small : e.serializedBytesSize ≤ 2 ^ 33 := by
    rw [longValue_size]
    omega
  refine ⟨by omega, longValue_value (by omega), by
    change 7 < sequenceNumberModulus; decide, small, throws, ?_⟩
  · intro returns
    obtain ⟨file, run, _⟩ := returns
    rw [throws] at run
    cases (Prod.mk.inj run).2

end WriteAheadLogger

end FrenzyKV
