import Mathlib.Data.Prod.Lex
import FrenzyKV.Math.Bytes
import FrenzyKV.Math.Versioned

/-! Keys, values and entries, their order and their serialized form (`db/kv_entry.cc`). -/

namespace FrenzyKV

open Bytes

/-- `sequence_number_t` has 32 bits. -/
def sequenceNumberModulus : Nat := 2 ^ 32

def totalLengthBytesSize : Nat := 4
def userKeyLengthBytesSize : Nat := 2
def seqBytesSize : Nat := 4
def userValueLengthBytesSize : Nat := 4

/-- A user key, ordered by length first (`user_key_less`). -/
@[ext] structure UserKey where
  bytes : ByteString
deriving DecidableEq, Repr, Inhabited

namespace UserKey

def rank (k : UserKey) : ℕ ×ₗ ByteString := toLex (k.bytes.length, k.bytes)

instance : LinearOrder UserKey := LinearOrder.lift' rank (by
  rintro ⟨a⟩ ⟨b⟩ same
  simp only [rank, EmbeddingLike.apply_eq_iff_eq, Prod.mk.injEq] at same
  simp [same.2])

def size (k : UserKey) : Nat := k.bytes.length

theorem lt_iff {k l : UserKey} : k < l ↔ k.size < l.size ∨ k.size = l.size ∧ k.bytes < l.bytes := by
  change k.rank < l.rank ↔ _
  rw [rank, rank, Prod.Lex.toLex_lt_toLex]
  rfl

end UserKey

structure SequencedKey where
  seq : Nat
  userKey : UserKey
deriving DecidableEq, Repr

namespace SequencedKey

/-- `sequenced_key::logic_lexicographic_simulate_less`: length, then bytes, then number. -/
def logicLexicographicSimulateLess (lhs rhs : SequencedKey) : Bool :=
  let lk := lhs.userKey.bytes
  let rk := rhs.userKey.bytes
  if lk.length < rk.length then true
  else if rk.length < lk.length then false
  else if lk < rk then true
  else if rk < lk then false
  else lhs.seq < rhs.seq

def rank (k : SequencedKey) : UserKey ×ₗ ℕ := toLex (k.userKey, k.seq)

instance : LinearOrder SequencedKey := LinearOrder.lift' rank (by
  rintro ⟨m, k⟩ ⟨n, l⟩ same
  simp only [rank, EmbeddingLike.apply_eq_iff_eq, Prod.mk.injEq] at same
  simp [same])

theorem lt_iff {a b : SequencedKey} :
    a < b ↔ a.userKey < b.userKey ∨ a.userKey = b.userKey ∧ a.seq < b.seq := by
  change rank a < rank b ↔ _
  simp [rank, Prod.Lex.toLex_lt_toLex]

theorem le_iff {a b : SequencedKey} :
    a ≤ b ↔ a.userKey < b.userKey ∨ a.userKey = b.userKey ∧ a.seq ≤ b.seq := by
  change rank a ≤ rank b ↔ _
  simp [rank, Prod.Lex.toLex_le_toLex]

theorem userKey_mono {a b : SequencedKey} (le : a ≤ b) : a.userKey ≤ b.userKey := by
  rcases le_iff.mp le with lt | ⟨eq, _⟩
  · exact lt.le
  · exact eq.le

/-- The order used below is `sequenced_key::operator<`. -/
theorem lt_iff_simulate_less (a b : SequencedKey) :
    a < b ↔ a.logicLexicographicSimulateLess b = true := by
  rw [lt_iff, UserKey.lt_iff, UserKey.size, UserKey.size, UserKey.ext_iff,
    logicLexicographicSimulateLess]
  split_ifs with shorter longer below above
  · simp [shorter]
  · have : ¬ a.userKey.bytes.length = b.userKey.bytes.length := by omega
    have other : a.userKey.bytes ≠ b.userKey.bytes := fun eq => this (congrArg _ eq)
    simp [shorter, this, other]
  · have : a.userKey.bytes.length = b.userKey.bytes.length := by omega
    simp [this, below]
  · simp [shorter, below, above.ne']
  · have same : a.userKey.bytes = b.userKey.bytes :=
      le_antisymm (not_lt.mp above) (not_lt.mp below)
    simp [same]

def serializedBytesSize (k : SequencedKey) : Nat :=
  seqBytesSize + userKeyLengthBytesSize + k.userKey.size

def serializedUserKeyBytesSize (k : SequencedKey) : Nat :=
  userKeyLengthBytesSize + k.userKey.size

/-- `sequenced_key::serialize_user_key_as_string`. -/
def serializeUserKey (k : SequencedKey) : ByteString :=
  encodeBigEndian userKeyLengthBytesSize k.userKey.size ++ k.userKey.bytes

def serialize (k : SequencedKey) : ByteString :=
  k.serializeUserKey ++ encodeBigEndian seqBytesSize k.seq

end SequencedKey

/-- A value, or `none` for a tombstone. -/
abbrev KvUserValue := Option ByteString

namespace KvUserValue

def size (v : KvUserValue) : Nat := (v.map List.length).getD 0

def serializedBytesSize (v : KvUserValue) : Nat := totalLengthBytesSize + size v

/-- What stands behind the length field: the value is copied unless the field is zero, and a new buffer
holds zeros. -/
def copied (v : KvUserValue) : ByteString :=
  if size v % 2 ^ 32 = 0 then List.replicate (size v) 0 else v.getD []

def serialize (v : KvUserValue) : ByteString :=
  encodeBigEndian userValueLengthBytesSize (size v) ++ copied v

@[simp] theorem copied_length (v : KvUserValue) : (copied v).length = size v := by
  rw [copied]
  split
  · exact List.length_replicate
  · cases v <;> rfl

theorem copied_of_lt {v : KvUserValue} (small : size v < 2 ^ 32) : copied v = v.getD [] := by
  rw [copied, Nat.mod_eq_of_lt small]
  split
  · rename_i empty
    rw [empty]
    cases v with
    | none => rfl
    | some bytes => exact (List.length_eq_zero_iff.mp empty).symm
  · rfl

@[simp] theorem serialize_length (v : KvUserValue) : (serialize v).length = serializedBytesSize v := by
  rw [serialize, List.length_append, encodeBigEndian_length, copied_length]
  rfl

/-- `kv_user_value::parse`; the bytes after the value are ignored. -/
def parse (bytes : ByteString) : KvUserValue :=
  if bytes = [] then none
  else
    let valueLen := decodeBigEndian (bytes.take userValueLengthBytesSize)
    if valueLen = 0 then none
    else some ((bytes.drop userValueLengthBytesSize).take valueLen)

/-- The value that is read back after it was serialized: an empty value has the length
field of a tombstone. -/
def stored : KvUserValue → KvUserValue
  | some [] => none
  | v => v

@[simp] theorem stored_stored (v : KvUserValue) : stored (stored v) = stored v := by
  rcases v with _ | _ | _ <;> rfl

@[simp] theorem size_stored (v : KvUserValue) : size (stored v) = size v := by
  rcases v with _ | _ | _ <;> rfl

@[simp] theorem serialize_stored (v : KvUserValue) : serialize (stored v) = serialize v := by
  rcases v with _ | _ | _ <;> rfl

theorem parse_serialize_append (v : KvUserValue) (rest : ByteString)
    (small : size v < sequenceNumberModulus) : parse (serialize v ++ rest) = stored v := by
  have field : (encodeBigEndian userValueLengthBytesSize (size v)).length = 4 := by
    simp [userValueLengthBytesSize]
  have decoded : decodeBigEndian (encodeBigEndian userValueLengthBytesSize (size v)) = size v := by
    rw [decode_encodeBigEndian]
    exact Nat.mod_eq_of_lt small
  have split : serialize v ++ rest =
      encodeBigEndian userValueLengthBytesSize (size v) ++ (v.getD [] ++ rest) := by
    rw [serialize, copied_of_lt small, List.append_assoc]
  have nonempty : serialize v ++ rest ≠ [] := by
    intro empty
    have := congrArg List.length empty
    simp [serialize, userValueLengthBytesSize] at this
  rw [parse, if_neg nonempty, split, show userValueLengthBytesSize = 4 from rfl]
  rw [show userValueLengthBytesSize = 4 from rfl] at field decoded
  rw [List.take_left' field, List.drop_left' field, decoded]
  rcases v with _ | _ | ⟨b, bs⟩ <;> simp [size, stored]

end KvUserValue

structure KvEntry where
  key : SequencedKey
  value : KvUserValue
deriving DecidableEq, Repr

namespace KvEntry

/-- An entry with a one-byte key and a one-byte value. -/
def brief (k : UInt8) (seq : Nat) (v : UInt8) : KvEntry := ⟨⟨seq, ⟨[k]⟩⟩, some [v]⟩

def userKey (e : KvEntry) : UserKey := e.key.userKey
def seq (e : KvEntry) : Nat := e.key.seq
def isTombStone (e : KvEntry) : Bool := e.value.isNone

theorem key_eq {e e' : KvEntry} (userKey : e.userKey = e'.userKey) (seq : e.seq = e'.seq) :
    e.key = e'.key := by
  cases e with | mk key value =>
  cases e' with | mk key' value' =>
  cases key with | mk n uk =>
  cases key' with | mk n' uk' => exact congrArg₂ SequencedKey.mk seq userKey

def setSequenceNumber (e : KvEntry) (seq : Nat) : KvEntry :=
  { e with key := { e.key with seq } }

/-- The entry as it is read back from a file. -/
def stored (e : KvEntry) : KvEntry := { e with value := e.value.stored }

@[simp] theorem stored_key (e : KvEntry) : e.stored.key = e.key := rfl
@[simp] theorem stored_userKey (e : KvEntry) : e.stored.userKey = e.userKey := rfl
@[simp] theorem stored_seq (e : KvEntry) : e.stored.seq = e.seq := rfl
@[simp] theorem stored_stored (e : KvEntry) : e.stored.stored = e.stored := by
  simp [stored]

def serializedBytesSize (e : KvEntry) : Nat :=
  totalLengthBytesSize + e.key.serializedBytesSize + e.value.serializedBytesSize

def serialize (e : KvEntry) : ByteString :=
  encodeBigEndian totalLengthBytesSize e.serializedBytesSize ++ e.key.serialize ++
    e.value.serialize

@[simp] theorem serialize_length (e : KvEntry) :
    e.serialize.length = e.serializedBytesSize := by
  simp [serialize, serializedBytesSize, SequencedKey.serialize, SequencedKey.serializeUserKey,
    SequencedKey.serializedBytesSize, UserKey.size, totalLengthBytesSize]
  omega

@[simp] theorem serializedBytesSize_stored (e : KvEntry) :
    e.stored.serializedBytesSize = e.serializedBytesSize := by
  simp [serializedBytesSize, KvUserValue.serializedBytesSize, stored]

@[simp] theorem serialize_stored (e : KvEntry) : e.stored.serialize = e.serialize := by
  rw [serialize, serialize, serializedBytesSize_stored]
  simp [stored]

end KvEntry

abbrev Covers := Versioned.Covers KvEntry.userKey KvEntry.seq
abbrev Newer := Versioned.Newer KvEntry.userKey KvEntry.seq
abbrev IsNewest := Versioned.IsNewest KvEntry.userKey KvEntry.seq

abbrev Answers := Versioned.Answers KvEntry.userKey KvEntry.seq
abbrev Represents := Versioned.Represents KvEntry.userKey KvEntry.seq KvEntry.value

end FrenzyKV
