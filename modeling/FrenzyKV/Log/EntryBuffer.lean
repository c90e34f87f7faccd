import FrenzyKV.Framework.ByteReader
import FrenzyKV.Log.WriteAheadLogger

/-! Serialized entries as bytes of a buffer with an end: what `kv_entries_from_buffer` reads,
and where it reads past the buffer (`db/kv_entry.cc`, `db/kv_entry.h`). -/

namespace FrenzyKV

open Bytes Framework

namespace KvEntry

/-- What the fields of a serialized entry can hold. -/
structure Fits (e : KvEntry) : Prop where
  key : e.userKey.size < 2 ^ 16
  total : e.serializedBytesSize < 2 ^ 32
  number : e.seq < sequenceNumberModulus

/-- The entries that the reader takes for what they are: the key is not empty, and an empty
value does not pass for a tombstone. -/
def ReadsBack (e : KvEntry) : Prop := 0 < e.userKey.size ∧ e.value ≠ some []

instance (e : KvEntry) : Decidable e.ReadsBack := inferInstanceAs (Decidable (_ ∧ _))

/-- The entries that a log can hold. -/
def Loggable (e : KvEntry) : Prop := e.Fits ∧ e.ReadsBack

theorem stored_eq_iff {e : KvEntry} : e.stored = e ↔ e.value ≠ some [] := by
  rcases e with ⟨k, _ | _ | _⟩ <;> simp [stored, KvUserValue.stored]

theorem map_stored_iff {es : List KvEntry} :
    es.map stored = es ↔ ∀ e ∈ es, e.value ≠ some [] := by
  induction es with
  | nil => simp
  | cons e es ih => rw [List.map_cons, List.cons.injEq, List.forall_mem_cons, stored_eq_iff, ih]

end KvEntry

namespace EntryBuffer

/-- A read past the end of the buffer, or a failed assertion. -/
inductive ReadFault
  | outside
  | assertion
deriving DecidableEq, Repr

open ByteReader

def bytes (n : Nat) : ByteReader ReadFault ByteString := ByteReader.take .outside n

def number (width : Nat) : ByteReader ReadFault Nat := ByteReader.number .outside width

/-- `serialized_sequenced_key` and the constructor that reads it. -/
def sequencedKey : ByteReader ReadFault SequencedKey := do
  let userKeyLen ← number userKeyLengthBytesSize
  let size := userKeyLengthBytesSize + userKeyLen + seqBytesSize
  if size ≤ userKeyLengthBytesSize + seqBytesSize then throw .assertion
  else
    let userKey ← bytes userKeyLen
    let seq ← number seqBytesSize
    return ⟨seq, ⟨userKey⟩⟩

/-- `serialized_user_value` and `kv_user_value::parse`. -/
def userValue : ByteReader ReadFault KvUserValue := do
  let valueLen ← number userValueLengthBytesSize
  if valueLen = 0 then return none
  else
    let value ← bytes valueLen
    return some value

/-- The constructor of `kv_entry` from serialized bytes. -/
def kvEntry : ByteReader ReadFault KvEntry := do
  let _ ← bytes totalLengthBytesSize
  let key ← sequencedKey
  let value ← userValue
  return ⟨key, value⟩

/-- The entries that `kv_entries_from_buffer` yields, and the fault that ends it early. -/
def kvEntriesFromBuffer (buffer : ByteString) : List KvEntry × Option ReadFault :=
  if buffer = [] then ([], none)
  else match (number totalLengthBytesSize).run buffer with
    | .error fault => ([], some fault)
    | .ok (size, _) =>
      if size = 0 then ([], none)
      else match kvEntry.run buffer with
        | .error fault => ([], some fault)
        | .ok (e, _) =>
          -- `next_serialized_entry_beg`: the next entry has to begin inside the buffer
          if buffer.length ≤ size then ([e], none)
          else
            let later := kvEntriesFromBuffer (buffer.drop size)
            (e :: later.1, later.2)
termination_by buffer.length
decreasing_by
  rw [List.length_drop]
  omega

/-- `append_eof_to_string`. -/
def eofBytes : ByteString := List.replicate totalLengthBytesSize 0

/-- `recover`, with the reads that leave the file's contents. -/
def recover (log : ByteString) : Except ReadFault (WriteBatch × Nat) :=
  if log.isEmpty then .ok (WriteBatch.empty, 0)
  else match kvEntriesFromBuffer log with
    | (_, some fault) => .error fault
    | (es, none) => .ok (⟨0, es⟩, maxSequenceNumber es)

theorem framed_sequencedKey : Framed .outside sequencedKey :=
  (framed_number _ _).bind fun _ =>
    (framed_throw _ _).ite ((framed_take _ _).bind fun _ => (framed_number _ _).bind fun _ =>
      framed_pure _ _)

theorem framed_userValue : Framed .outside userValue :=
  (framed_number _ _).bind fun _ =>
    (framed_pure _ _).ite ((framed_take _ _).bind fun _ => framed_pure _ _)

theorem framed_kvEntry : Framed .outside kvEntry :=
  (framed_take _ _).bind fun _ => framed_sequencedKey.bind fun _ => framed_userValue.bind fun _ =>
    framed_pure _ _

section Unbounded

variable {bytes rest : ByteString}

theorem sequencedKey_eq_ok {k : SequencedKey} (run : sequencedKey.run bytes = .ok (k, rest)) :
    let userKeyLen := decodeBigEndian (bytes.take userKeyLengthBytesSize)
    let left := (bytes.drop userKeyLengthBytesSize).drop userKeyLen
    userKeyLen ≠ 0 ∧ rest = left.drop seqBytesSize ∧
      k = ⟨decodeBigEndian (left.take seqBytesSize),
        ⟨(bytes.drop userKeyLengthBytesSize).take userKeyLen⟩⟩ := by
  obtain ⟨userKeyLen, left, length, run⟩ := bind_eq_ok run
  obtain ⟨rfl, rfl⟩ := number_eq_ok length
  by_cases empty : decodeBigEndian (bytes.take userKeyLengthBytesSize) = 0
  · rw [if_pos (by omega)] at run
    cases run
  · rw [if_neg (by omega)] at run
    obtain ⟨key, left, taken, run⟩ := bind_eq_ok run
    obtain ⟨rfl, rfl⟩ := take_eq_ok taken
    obtain ⟨seq, left, read, run⟩ := bind_eq_ok run
    obtain ⟨rfl, rfl⟩ := number_eq_ok read
    obtain ⟨rfl, rfl⟩ := Prod.mk.inj (Except.ok.inj run)
    exact ⟨empty, rfl, rfl⟩

theorem userValue_eq_ok {v : KvUserValue} (run : userValue.run bytes = .ok (v, rest)) :
    v = KvUserValue.parse bytes := by
  obtain ⟨valueLen, left, length, run⟩ := bind_eq_ok run
  obtain ⟨rfl, rfl⟩ := number_eq_ok length
  have nonempty : bytes ≠ [] := by
    intro empty
    subst empty
    cases length
  rw [KvUserValue.parse, if_neg nonempty]
  by_cases zero : decodeBigEndian (bytes.take userValueLengthBytesSize) = 0
  · rw [if_pos zero] at run ⊢
    exact (Prod.mk.inj (Except.ok.inj run)).1.symm
  · rw [if_neg zero] at run ⊢
    obtain ⟨value, left, taken, run⟩ := bind_eq_ok run
    obtain ⟨rfl, rfl⟩ := take_eq_ok taken
    exact (Prod.mk.inj (Except.ok.inj run)).1.symm

/-- A value that is read stands behind its length. -/
theorem userValue_eq_some {v : ByteString} (run : userValue.run bytes = .ok (some v, rest)) :
    let valueLen := decodeBigEndian (bytes.take userValueLengthBytesSize)
    valueLen ≠ 0 ∧ userValueLengthBytesSize + valueLen ≤ bytes.length ∧
      v = (bytes.drop userValueLengthBytesSize).take valueLen := by
  obtain ⟨valueLen, left, length, run⟩ := bind_eq_ok run
  obtain ⟨rfl, rfl⟩ := number_eq_ok length
  split at run
  · cases run
  · rename_i present
    obtain ⟨value, left, taken, run⟩ := bind_eq_ok run
    have size := length_of_take taken
    obtain ⟨rfl, rfl⟩ := take_eq_ok taken
    rw [List.length_take, List.length_drop] at size
    exact ⟨present, by omega, (Option.some.inj (Prod.mk.inj (Except.ok.inj run)).1).symm⟩

/-- What is read inside the buffer is what `KvEntry.parse` reads. -/
theorem parse_of_kvEntry {e : KvEntry} (run : kvEntry.run bytes = .ok (e, rest)) :
    KvEntry.parse bytes = some e := by
  obtain ⟨total, left, taken, run⟩ := bind_eq_ok run
  obtain ⟨rfl, rfl⟩ := take_eq_ok taken
  obtain ⟨key, left, read, run⟩ := bind_eq_ok run
  obtain ⟨present, rfl, rfl⟩ := sequencedKey_eq_ok read
  obtain ⟨value, left, read, run⟩ := bind_eq_ok run
  obtain rfl := userValue_eq_ok read
  obtain ⟨rfl, rfl⟩ := Prod.mk.inj (Except.ok.inj run)
  rw [KvEntry.parse, if_neg present]

theorem kvEntriesFromBuffer_unbounded {log : ByteString} {es : List KvEntry}
    (read : kvEntriesFromBuffer log = (es, none)) {fuel : Nat} (enough : log.length ≤ fuel) :
    FrenzyKV.kvEntriesFromBuffer fuel log = some es := by
  induction fuel generalizing log es with
  | zero =>
    obtain rfl := List.length_eq_zero_iff.mp (Nat.le_zero.mp enough)
    rw [kvEntriesFromBuffer, if_pos rfl] at read
    obtain ⟨rfl, _⟩ := Prod.mk.inj read
    rfl
  | succ fuel ih =>
    cases log with
    | nil =>
      rw [kvEntriesFromBuffer, if_pos rfl] at read
      obtain ⟨rfl, _⟩ := Prod.mk.inj read
      rfl
    | cons b bs =>
      rw [kvEntriesFromBuffer, if_neg (List.cons_ne_nil b bs)] at read
      cases total : (number totalLengthBytesSize).run (b :: bs) with
      | error fault =>
        rw [total] at read
        cases (Prod.mk.inj read).2
      | ok field =>
        obtain ⟨size, left⟩ := field
        obtain ⟨rfl, rfl⟩ := number_eq_ok total
        rw [total] at read
        change (if KvEntry.serializedEntrySize (b :: bs) = 0 then _ else _) = _ at read
        simp only [FrenzyKV.kvEntriesFromBuffer]
        by_cases zero : KvEntry.serializedEntrySize (b :: bs) = 0
        · rw [if_pos zero] at read ⊢
          exact congrArg some (Prod.mk.inj read).1
        · rw [if_neg zero] at read ⊢
          cases entry : kvEntry.run (b :: bs) with
          | error fault =>
            rw [entry] at read
            cases (Prod.mk.inj read).2
          | ok result =>
            obtain ⟨e, left⟩ := result
            rw [entry] at read
            change (if (b :: bs).length ≤ KvEntry.serializedEntrySize (b :: bs) then _ else _) = _ at read
            rw [parse_of_kvEntry entry, Option.bind_some]
            by_cases last : (b :: bs).length ≤ KvEntry.serializedEntrySize (b :: bs)
            · rw [if_pos last] at read
              rw [List.drop_of_length_le last]
              obtain ⟨rfl, _⟩ := Prod.mk.inj read
              cases fuel <;> rfl
            · rw [if_neg last] at read
              obtain ⟨rfl, ends⟩ := Prod.mk.inj read
              have short : ((b :: bs).drop (KvEntry.serializedEntrySize (b :: bs))).length ≤ fuel := by
                rw [List.length_drop]
                omega
              have later := ih (Prod.ext rfl ends) short
              rw [KvEntry.serializedEntrySize, later]
              rfl

/-- A log that is read without a fault is read the same by the model that ignores its end. -/
theorem recover_unbounded {log : ByteString} {result : WriteBatch × Nat}
    (read : recover log = .ok result) : FrenzyKV.recover log = some result := by
  rw [recover] at read
  rw [FrenzyKV.recover]
  by_cases empty : log.isEmpty
  · rw [if_pos empty] at read ⊢
    exact congrArg some (Except.ok.inj read)
  · rw [if_neg empty] at read ⊢
    cases entries : kvEntriesFromBuffer log with
    | mk es fault =>
      rw [entries] at read
      cases fault with
      | none =>
        rw [kvEntriesFromBuffer_unbounded entries le_rfl]
        exact congrArg some (Except.ok.inj read)
      | some fault => cases read

end Unbounded

section Serialized

variable {e : KvEntry} {es : List KvEntry}

theorem number_encode {width n : Nat} (small : n < 256 ^ width) (tail : ByteString) :
    (number width).run (encodeBigEndian width n ++ tail) = .ok (n, tail) := by
  rw [number, number_append (encodeBigEndian_length width n), decode_encodeBigEndian,
    Nat.mod_eq_of_lt small]

theorem bytes_append {n : Nat} {field : ByteString} (width : field.length = n) (tail : ByteString) :
    (bytes n).run (field ++ tail) = .ok (field, tail) :=
  ByteReader.take_append width tail

theorem sequencedKey_serialize {k : SequencedKey} (key : k.userKey.size < 2 ^ 16)
    (seq : k.seq < sequenceNumberModulus) (nonempty : 0 < k.userKey.size) (tail : ByteString) :
    sequencedKey.run (k.serialize ++ tail) = .ok (k, tail) := by
  have split : k.serialize ++ tail = encodeBigEndian userKeyLengthBytesSize k.userKey.size ++
      (k.userKey.bytes ++ (encodeBigEndian seqBytesSize k.seq ++ tail)) := by
    simp [SequencedKey.serialize, SequencedKey.serializeUserKey]
  have big : ¬ userKeyLengthBytesSize + k.userKey.size + seqBytesSize ≤
      userKeyLengthBytesSize + seqBytesSize := by omega
  have width : k.userKey.bytes.length = k.userKey.size := rfl
  rw [split, sequencedKey, bind_ok (number_encode key _), if_neg big,
    bind_ok (bytes_append width _), bind_ok (number_encode seq _)]
  rfl

theorem sequencedKey_empty {k : SequencedKey} (empty : k.userKey.size = 0) (tail : ByteString) :
    sequencedKey.run (k.serialize ++ tail) = .error .assertion := by
  have split : k.serialize ++ tail = encodeBigEndian userKeyLengthBytesSize 0 ++
      (k.userKey.bytes ++ (encodeBigEndian seqBytesSize k.seq ++ tail)) := by
    simp [SequencedKey.serialize, SequencedKey.serializeUserKey, empty]
  rw [split, sequencedKey, bind_ok (number_encode (by decide) _)]
  rfl

theorem userValue_serialize {v : KvUserValue} (small : KvUserValue.size v < 2 ^ 32)
    (tail : ByteString) : userValue.run (KvUserValue.serialize v ++ tail) = .ok (v.stored, tail) := by
  have split : KvUserValue.serialize v ++ tail =
      encodeBigEndian userValueLengthBytesSize (KvUserValue.size v) ++ (v.getD [] ++ tail) := by
    rw [KvUserValue.serialize, KvUserValue.copied_of_lt small, List.append_assoc]
  rw [split, userValue, bind_ok (number_encode small _)]
  cases v with
  | none => rfl
  | some value =>
    cases value with
    | nil => rfl
    | cons b bs =>
      have long : KvUserValue.size (some (b :: bs)) ≠ 0 := Nat.succ_ne_zero _
      have width : (b :: bs).length = KvUserValue.size (some (b :: bs)) := rfl
      rw [if_neg long, Option.getD_some, bind_ok (bytes_append width tail)]
      rfl

/-- The total length is skipped, then the key is read. -/
theorem kvEntry_serialize_append (e : KvEntry) (tail : ByteString) :
    kvEntry.run (e.serialize ++ tail) = (do
      let key ← sequencedKey
      let value ← userValue
      return KvEntry.mk key value : ByteReader ReadFault KvEntry).run
        (e.key.serialize ++ (KvUserValue.serialize e.value ++ tail)) := by
  have split : e.serialize ++ tail = encodeBigEndian totalLengthBytesSize e.serializedBytesSize ++
      (e.key.serialize ++ (KvUserValue.serialize e.value ++ tail)) := by simp [KvEntry.serialize]
  rw [split, kvEntry, bind_ok (bytes_append (encodeBigEndian_length _ _) _)]

theorem kvEntry_serialize (fits : e.Fits) (nonempty : 0 < e.userKey.size) (tail : ByteString) :
    kvEntry.run (e.serialize ++ tail) = .ok (e.stored, tail) := by
  have small : KvUserValue.size e.value < 2 ^ 32 := by
    have total := fits.total
    simp only [KvEntry.serializedBytesSize, KvUserValue.serializedBytesSize] at total
    omega
  rw [kvEntry_serialize_append, bind_ok (sequencedKey_serialize fits.key fits.number nonempty _),
    bind_ok (userValue_serialize small _)]
  rfl

theorem kvEntry_empty_key (empty : e.userKey.size = 0) (tail : ByteString) :
    kvEntry.run (e.serialize ++ tail) = .error .assertion := by
  rw [kvEntry_serialize_append, bind_error (sequencedKey_empty empty _)]

theorem totalLength_serialize (fits : e.Fits) (tail : ByteString) :
    (number totalLengthBytesSize).run (e.serialize ++ tail) =
      .ok (e.serializedBytesSize, e.key.serialize ++ (KvUserValue.serialize e.value ++ tail)) := by
  have split : e.serialize ++ tail = encodeBigEndian totalLengthBytesSize e.serializedBytesSize ++
      (e.key.serialize ++ (KvUserValue.serialize e.value ++ tail)) := by simp [KvEntry.serialize]
  rw [split, number_encode fits.total]

theorem serialize_append_ne_nil (e : KvEntry) (tail : ByteString) : e.serialize ++ tail ≠ [] := by
  intro empty
  have positive := serializedBytesSize_pos e
  have := congrArg List.length empty
  simp only [List.length_append, KvEntry.serialize_length, List.length_nil] at this
  omega

/-- The entry at the front of a buffer is yielded as it was stored, and reading goes on
behind it. -/
theorem kvEntriesFromBuffer_serialize (fits : e.Fits) (nonempty : 0 < e.userKey.size)
    (tail : ByteString) :
    kvEntriesFromBuffer (e.serialize ++ tail) =
      (e.stored :: (kvEntriesFromBuffer tail).1, (kvEntriesFromBuffer tail).2) := by
  have positive := serializedBytesSize_pos e
  have length : (e.serialize ++ tail).length = e.serializedBytesSize + tail.length := by simp
  rw [kvEntriesFromBuffer, if_neg (serialize_append_ne_nil e tail), totalLength_serialize fits]
  simp only [if_neg positive.ne', kvEntry_serialize fits nonempty]
  by_cases last : tail = []
  · rw [if_pos (by simp [last]), last, kvEntriesFromBuffer, if_pos rfl]
  · have more : ¬ (e.serialize ++ tail).length ≤ e.serializedBytesSize := by
      have := List.length_pos_iff.mpr last
      omega
    rw [if_neg more, List.drop_left' (KvEntry.serialize_length e)]

theorem kvEntriesFromBuffer_empty_key (fits : e.Fits) (empty : e.userKey.size = 0)
    (tail : ByteString) :
    kvEntriesFromBuffer (e.serialize ++ tail) = ([], some .assertion) := by
  have positive := serializedBytesSize_pos e
  rw [kvEntriesFromBuffer, if_neg (serialize_append_ne_nil e tail), totalLength_serialize fits]
  simp only [if_neg positive.ne', kvEntry_empty_key empty]

theorem kvEntriesFromBuffer_nil : kvEntriesFromBuffer [] = ([], none) := by
  rw [kvEntriesFromBuffer, if_pos rfl]

theorem kvEntriesFromBuffer_eofBytes : kvEntriesFromBuffer eofBytes = ([], none) := by
  have zero : (number totalLengthBytesSize).run (encodeBigEndian totalLengthBytesSize 0 ++ []) =
      .ok (0, []) := number_encode (by decide) []
  have eof : eofBytes = encodeBigEndian totalLengthBytesSize 0 ++ [] := by decide
  rw [kvEntriesFromBuffer, if_neg (by decide), eof, zero]
  rfl

/-- Everything in front of a tail is yielded as it was stored. -/
theorem kvEntriesFromBuffer_serialize_append (fits : ∀ e ∈ es, e.Fits)
    (nonempty : ∀ e ∈ es, 0 < e.userKey.size) (tail : ByteString) :
    kvEntriesFromBuffer (es.flatMap KvEntry.serialize ++ tail) =
      (es.map KvEntry.stored ++ (kvEntriesFromBuffer tail).1, (kvEntriesFromBuffer tail).2) := by
  induction es with
  | nil => rfl
  | cons e es ih =>
    have later := ih (fun x hx => fits x (List.mem_cons_of_mem _ hx))
      (fun x hx => nonempty x (List.mem_cons_of_mem _ hx))
    rw [List.flatMap_cons, List.append_assoc,
      kvEntriesFromBuffer_serialize (fits e List.mem_cons_self) (nonempty e List.mem_cons_self), later]
    rfl

/-- The entries come back exactly when each has a key, and none an empty value. -/
theorem kvEntriesFromBuffer_eq_iff (fits : ∀ e ∈ es, e.Fits) {tail : ByteString}
    (ends : kvEntriesFromBuffer tail = ([], none)) :
    kvEntriesFromBuffer (es.flatMap KvEntry.serialize ++ tail) = (es, none) ↔
      ∀ e ∈ es, e.ReadsBack := by
  induction es with
  | nil => simpa using ends
  | cons e es ih =>
    have first := fits e List.mem_cons_self
    have later := ih fun x hx => fits x (List.mem_cons_of_mem _ hx)
    rw [List.flatMap_cons, List.append_assoc, List.forall_mem_cons]
    by_cases empty : e.userKey.size = 0
    · rw [kvEntriesFromBuffer_empty_key first empty]
      simp [KvEntry.ReadsBack, empty]
    · have nonempty : 0 < e.userKey.size := Nat.pos_of_ne_zero empty
      rw [kvEntriesFromBuffer_serialize first nonempty, Prod.mk.injEq, List.cons.injEq,
        KvEntry.stored_eq_iff, and_assoc, ← Prod.mk.injEq, Prod.mk.eta, later]
      simp [KvEntry.ReadsBack, nonempty]

theorem recover_of_read {log : ByteString} (read : kvEntriesFromBuffer log = (es, none)) :
    recover log = .ok (⟨0, es⟩, maxSequenceNumber es) := by
  cases log with
  | nil =>
    rw [kvEntriesFromBuffer_nil] at read
    obtain ⟨rfl, _⟩ := Prod.mk.inj read
    rfl
  | cons b bs =>
    rw [recover, read]
    rfl

theorem recover_of_fault {log : ByteString} {fault : ReadFault}
    (read : kvEntriesFromBuffer log = (es, some fault)) : recover log = .error fault := by
  cases log with
  | nil =>
    rw [kvEntriesFromBuffer_nil] at read
    cases read
  | cons b bs =>
    rw [recover, read]
    rfl

theorem read_of_recover {log : ByteString} {maxSeq : Nat}
    (recovered : recover log = .ok (⟨0, es⟩, maxSeq)) : kvEntriesFromBuffer log = (es, none) := by
  cases read : kvEntriesFromBuffer log with
  | mk found fault =>
    cases fault with
    | none =>
      rw [recover_of_read read] at recovered
      obtain ⟨batch, _⟩ := Prod.mk.inj (Except.ok.inj recovered)
      rw [(WriteBatch.mk.inj batch).2]
    | some fault =>
      rw [recover_of_fault read] at recovered
      cases recovered

/-- Serialized entries, with or without the zero bytes that end a buffer, are read back
exactly when each has a key and none an empty value. -/
theorem serialized_entries_read_back_iff (fits : ∀ e ∈ es, e.Fits) {tail : ByteString}
    (ends : tail = [] ∨ tail = eofBytes) :
    kvEntriesFromBuffer (es.flatMap KvEntry.serialize ++ tail) = (es, none) ↔
      ∀ e ∈ es, e.ReadsBack := by
  apply kvEntriesFromBuffer_eq_iff fits
  cases ends with
  | inl bare => rw [bare, kvEntriesFromBuffer_nil]
  | inr eof => rw [eof, kvEntriesFromBuffer_eofBytes]

theorem serialized_entries_read_back_brief :
    kvEntriesFromBuffer ([KvEntry.brief 1 7 2, KvEntry.brief 3 8 4].flatMap KvEntry.serialize ++
      eofBytes) = ([KvEntry.brief 1 7 2, KvEntry.brief 3 8 4], none) := by
  have fits : ∀ e ∈ [KvEntry.brief 1 7 2, KvEntry.brief 3 8 4], e.Fits := by
    simp only [List.forall_mem_cons, List.not_mem_nil, false_implies, implies_true, and_true]
    exact ⟨⟨by decide, by decide, by decide⟩, ⟨by decide, by decide, by decide⟩⟩
  exact (serialized_entries_read_back_iff fits (.inr rfl)).mpr (by decide)

/-- An entry with a one-byte key and an empty value. -/
def emptyValue : KvEntry := ⟨⟨7, ⟨[1]⟩⟩, some []⟩

/-- An entry whose key is empty. -/
def emptyKey : KvEntry := ⟨⟨7, ⟨[]⟩⟩, some [2]⟩

/-- An empty value comes back as a tombstone, and an empty key fails the assertion. -/
theorem serialized_empty_value_is_tombstone :
    emptyValue.Fits ∧ emptyKey.Fits ∧
    kvEntriesFromBuffer ([emptyValue].flatMap KvEntry.serialize ++ []) =
      ([⟨emptyValue.key, none⟩], none) ∧
    kvEntriesFromBuffer ([emptyValue].flatMap KvEntry.serialize ++ []) ≠ ([emptyValue], none) ∧
    kvEntriesFromBuffer ([emptyKey].flatMap KvEntry.serialize ++ []) = ([], some .assertion) := by
  have valueFits : emptyValue.Fits := ⟨by decide, by decide, by decide⟩
  have keyFits : emptyKey.Fits := ⟨by decide, by decide, by decide⟩
  have value : kvEntriesFromBuffer ([emptyValue].flatMap KvEntry.serialize ++ []) =
      ([⟨emptyValue.key, none⟩], none) := by
    rw [List.flatMap_singleton, kvEntriesFromBuffer_serialize valueFits (by decide),
      kvEntriesFromBuffer_nil]
    rfl
  refine ⟨valueFits, keyFits, value, ?_, ?_⟩
  · rw [value]
    decide
  · rw [List.flatMap_singleton, kvEntriesFromBuffer_empty_key keyFits (by decide)]

end Serialized

end EntryBuffer

end FrenzyKV
