import FrenzyKV.Util.WriteBatch

/-! The write-ahead log: batches are appended in serialized form, and `recover` parses the
whole file back into one batch (`log/write_ahead_logger.cc`, `db/kv_entry.cc`). -/

namespace FrenzyKV

open Bytes

namespace KvEntry

/-- What the fixed-width fields of an entry can hold. A stored user key gets a length field
of 16 bits that also counts the two bytes of its own length. -/
structure WellFormed (e : KvEntry) : Prop where
  keyNonempty : 0 < e.userKey.size
  keyShort : e.userKey.size + userKeyLengthBytesSize < 2 ^ 16
  short : e.serializedBytesSize < 2 ^ 32
  number : e.seq < sequenceNumberModulus
  value : e.stored = e

/-- The part of it that numbering does not change, for an entry that is to be stored. -/
def FitsFields (e : KvEntry) : Prop :=
  0 < e.userKey.size ∧ e.userKey.size + userKeyLengthBytesSize < 2 ^ 16 ∧
    e.serializedBytesSize < 2 ^ 32

instance (e : KvEntry) : Decidable e.FitsFields := inferInstanceAs (Decidable (_ ∧ _ ∧ _))

theorem FitsFields.wellFormed {e : KvEntry} (fits : e.FitsFields) (number : e.seq < sequenceNumberModulus) :
    e.stored.WellFormed where
  keyNonempty := fits.1
  keyShort := fits.2.1
  short := by rw [serializedBytesSize_stored]; exact fits.2.2
  number := number
  value := stored_stored e

/-- The constructor that reads an entry from serialized bytes. It asserts that the user key
is not empty and reads the value where the sequenced key ends. -/
def parse (bytes : ByteString) : Option KvEntry :=
  let fields := bytes.drop totalLengthBytesSize
  let userKeyLen := decodeBigEndian (fields.take userKeyLengthBytesSize)
  let userKey := (fields.drop userKeyLengthBytesSize).take userKeyLen
  let rest := (fields.drop userKeyLengthBytesSize).drop userKeyLen
  if userKeyLen = 0 then none
  else some ⟨⟨decodeBigEndian (rest.take seqBytesSize), ⟨userKey⟩⟩,
    KvUserValue.parse (rest.drop seqBytesSize)⟩

/-- `serialized_entry_size`. -/
def serializedEntrySize (bytes : ByteString) : Nat :=
  decodeBigEndian (bytes.take totalLengthBytesSize)

end KvEntry

/-- `kv_entries_from_buffer`; an entry of length zero ends the buffer. The fuel is the
length of the buffer. -/
def kvEntriesFromBuffer : Nat → ByteString → Option (List KvEntry)
  | _, [] => some []
  | 0, _ => some []
  | fuel + 1, buffer =>
    let size := KvEntry.serializedEntrySize buffer
    if size = 0 then some []
    else (KvEntry.parse buffer).bind fun e =>
      (kvEntriesFromBuffer fuel (buffer.drop size)).map (e :: ·)

/-- `write_ahead_logger::insert`. -/
def appendToLog (log : ByteString) (b : WriteBatch) : ByteString :=
  log ++ b.entries.flatMap KvEntry.serialize

def laterNumber (maxSeq : Nat) (e : KvEntry) : Nat := if maxSeq < e.seq then e.seq else maxSeq

def maxSequenceNumber (es : List KvEntry) : Nat := es.foldl laterNumber 0

/-- `recover`: the whole log as one batch, and the largest number in it. -/
def recover (log : ByteString) : Option (WriteBatch × Nat) :=
  if log.isEmpty then some (WriteBatch.empty, 0)
  else (kvEntriesFromBuffer log.length log).map fun es => (⟨0, es⟩, maxSequenceNumber es)

section RoundTrip

variable {e : KvEntry} {es : List KvEntry}

theorem serializedEntrySize_serialize (wf : e.WellFormed) (rest : ByteString) :
    KvEntry.serializedEntrySize (e.serialize ++ rest) = e.serializedBytesSize := by
  have split : e.serialize ++ rest = encodeBigEndian totalLengthBytesSize e.serializedBytesSize ++
      (e.key.serialize ++ e.value.serialize ++ rest) := by simp [KvEntry.serialize]
  have width : (encodeBigEndian totalLengthBytesSize e.serializedBytesSize).length =
      totalLengthBytesSize := encodeBigEndian_length _ _
  rw [KvEntry.serializedEntrySize, split, List.take_left' width, decode_encodeBigEndian]
  exact Nat.mod_eq_of_lt wf.short

/-- Parsing reads back the entry that starts the buffer. -/
theorem parse_serialize (wf : e.WellFormed) (rest : ByteString) :
    KvEntry.parse (e.serialize ++ rest) = some e := by
  let keyLen := encodeBigEndian userKeyLengthBytesSize e.userKey.size
  let number := encodeBigEndian seqBytesSize e.seq
  have split : e.serialize ++ rest = encodeBigEndian totalLengthBytesSize e.serializedBytesSize ++
      (keyLen ++ (e.userKey.bytes ++ (number ++ (e.value.serialize ++ rest)))) := by
    simp [KvEntry.serialize, SequencedKey.serialize, SequencedKey.serializeUserKey, keyLen, number,
      KvEntry.userKey, KvEntry.seq]
  have total : (encodeBigEndian totalLengthBytesSize e.serializedBytesSize).length =
      totalLengthBytesSize := encodeBigEndian_length _ _
  have keyWidth : keyLen.length = userKeyLengthBytesSize := encodeBigEndian_length _ _
  have numberWidth : number.length = seqBytesSize := encodeBigEndian_length _ _
  have keySize : decodeBigEndian keyLen = e.userKey.bytes.length := by
    have short := wf.keyShort
    rw [decode_encodeBigEndian]
    exact Nat.mod_eq_of_lt (by simp only [userKeyLengthBytesSize] at short ⊢; omega)
  have numberValue : decodeBigEndian number = e.seq := by
    rw [decode_encodeBigEndian]
    exact Nat.mod_eq_of_lt wf.number
  have nonempty : e.userKey.bytes.length ≠ 0 := wf.keyNonempty.ne'
  have valueSize : KvUserValue.size e.value < sequenceNumberModulus := by
    have short := wf.short
    simp only [KvEntry.serializedBytesSize, KvUserValue.serializedBytesSize] at short
    simp only [sequenceNumberModulus]
    omega
  have value : KvUserValue.parse (e.value.serialize ++ rest) = e.value := by
    rw [KvUserValue.parse_serialize_append _ _ valueSize]
    exact congrArg KvEntry.value wf.value
  rw [split]
  simp only [KvEntry.parse, List.drop_left' total, List.take_left' keyWidth,
    List.drop_left' keyWidth, keySize, List.take_left, List.drop_left, List.take_left' numberWidth,
    List.drop_left' numberWidth, numberValue, value, if_neg nonempty]
  rfl

theorem serializedBytesSize_pos (e : KvEntry) : 0 < e.serializedBytesSize := by
  simp only [KvEntry.serializedBytesSize, totalLengthBytesSize]
  omega

/-- A log of well-formed entries is read back entry by entry. -/
theorem kvEntriesFromBuffer_serialize (wf : ∀ e ∈ es, e.WellFormed) {fuel : Nat}
    (enough : (es.flatMap KvEntry.serialize).length ≤ fuel) :
    kvEntriesFromBuffer fuel (es.flatMap KvEntry.serialize) = some es := by
  induction es generalizing fuel with
  | nil => cases fuel <;> rfl
  | cons e es ih =>
    have first := wf e List.mem_cons_self
    have size := serializedEntrySize_serialize first (es.flatMap KvEntry.serialize)
    have positive := serializedBytesSize_pos e
    rw [List.flatMap_cons] at enough ⊢
    rw [List.length_append, KvEntry.serialize_length] at enough
    cases fuel with
    | zero => omega
    | succ fuel =>
      have nonempty : e.serialize ++ es.flatMap KvEntry.serialize ≠ [] := by
        intro empty
        have := congrArg List.length empty
        simp at this
        omega
      obtain ⟨b, bs, eq⟩ := List.exists_cons_of_ne_nil nonempty
      have tail : (e.serialize ++ es.flatMap KvEntry.serialize).drop e.serializedBytesSize =
          es.flatMap KvEntry.serialize := List.drop_left' (KvEntry.serialize_length e)
      have short : (es.flatMap KvEntry.serialize).length ≤ fuel := by omega
      have rest := ih (fun x hx => wf x (List.mem_cons_of_mem _ hx)) short
      have parsed := parse_serialize first (es.flatMap KvEntry.serialize)
      rw [eq] at size tail parsed ⊢
      rw [kvEntriesFromBuffer]
      simp only [size, if_neg positive.ne', parsed, tail, rest, Option.bind_some, Option.map_some]
      simp

theorem foldl_laterNumber (start : Nat) (es : List KvEntry) :
    start ≤ es.foldl laterNumber start ∧ ∀ e ∈ es, e.seq ≤ es.foldl laterNumber start := by
  induction es generalizing start with
  | nil => simp
  | cons x es ih =>
    obtain ⟨low, all⟩ := ih (laterNumber start x)
    have up : start ≤ laterNumber start x ∧ x.seq ≤ laterNumber start x := by
      rw [laterNumber]
      split <;> omega
    rw [List.foldl_cons]
    refine ⟨up.1.trans low, fun e he => ?_⟩
    cases List.mem_cons.mp he with
    | inl eq => exact eq ▸ up.2.trans low
    | inr later => exact all e later

theorem le_maxSequenceNumber (mem : e ∈ es) : e.seq ≤ maxSequenceNumber es :=
  (foldl_laterNumber 0 es).2 e mem

theorem maxSequenceNumber_le {bound : Nat} (all : ∀ e ∈ es, e.seq ≤ bound) :
    maxSequenceNumber es ≤ bound := by
  suffices ∀ start ≤ bound, es.foldl laterNumber start ≤ bound from this 0 (Nat.zero_le _)
  induction es with
  | nil => exact fun start low => low
  | cons x es ih =>
    intro start low
    apply ih fun e he => all e (List.mem_cons_of_mem _ he)
    have := all x List.mem_cons_self
    rw [laterNumber]
    split <;> omega

theorem recover_serialize (wf : ∀ e ∈ es, e.WellFormed) (nonempty : es ≠ []) :
    recover (es.flatMap KvEntry.serialize) = some (⟨0, es⟩, maxSequenceNumber es) := by
  have written : (es.flatMap KvEntry.serialize).isEmpty = false := by
    obtain ⟨e, rest, rfl⟩ := List.exists_cons_of_ne_nil nonempty
    have positive := serializedBytesSize_pos e
    rw [List.isEmpty_eq_false_iff]
    intro empty
    have := congrArg List.length empty
    simp at this
    omega
  rw [recover, written, kvEntriesFromBuffer_serialize wf le_rfl]
  rfl

end RoundTrip

end FrenzyKV
