import FrenzyKV.Db.KvEntry

/-! The serializers of a key, each with its own buffer (`db/kv_entry.cc`). -/

namespace FrenzyKV

open Bytes

namespace SequencedKey

/-- `serialize_to` into a span: the span afterwards, and the returned size. -/
def serializeTo (k : SequencedKey) (buffer : ByteString) : ByteString × Nat :=
  let serializedSz := k.serializedBytesSize
  if buffer.length < serializedSz then (buffer, 0)
  else
    let userKeyLen := k.userKey.size % 2 ^ 16
    let buffer := store 0 (encodeBigEndian userKeyLengthBytesSize userKeyLen) buffer
    let cursor := userKeyLengthBytesSize
    let buffer := store cursor k.userKey.bytes buffer
    let cursor := cursor + k.userKey.size
    (store cursor (encodeBigEndian seqBytesSize k.seq) buffer, serializedSz)

/-- `serialize_to` into a string, which is cleared and resized. -/
def serializeToString (k : SequencedKey) (_str : ByteString) : ByteString × Nat :=
  k.serializeTo (List.replicate k.serializedBytesSize 0)

def serializeAsString (k : SequencedKey) : ByteString :=
  (k.serializeTo (List.replicate k.serializedBytesSize 0)).1

def serializeUserKeyAsString (k : SequencedKey) : ByteString :=
  let result := List.replicate k.serializedUserKeyBytesSize 0
  let ukl := k.userKey.size % 2 ^ 16
  let result := store 0 (encodeBigEndian userKeyLengthBytesSize ukl) result
  store userKeyLengthBytesSize k.userKey.bytes result

/-- The string afterwards, and the returned size. -/
def serializeSequenceNumberAppendTo (k : SequencedKey) (dst : ByteString) : ByteString × Nat :=
  let buffer := store 0 (encodeBigEndian seqBytesSize k.seq) (List.replicate seqBytesSize 0)
  (dst ++ buffer, buffer.length)

/-- The array of the length has the size of a sequence number, and all of it is appended. -/
def serializeUserKeyAppendTo (k : SequencedKey) (dst : ByteString) : ByteString × Nat :=
  let ukl := k.userKey.size % 2 ^ 16
  let uklBuffer := store 0 (encodeBigEndian userKeyLengthBytesSize ukl) (List.replicate seqBytesSize 0)
  (dst ++ uklBuffer ++ k.userKey.bytes, userKeyLengthBytesSize + k.userKey.size)

/-- The constructor from serialized bytes; no result stands for its assertion and for a subspan
that is out of range. -/
def ofSerialized (serialized : ByteString) : Option SequencedKey :=
  if serialized = [] then some ⟨0, ⟨[]⟩⟩
  else if serialized.length ≤ userKeyLengthBytesSize + seqBytesSize then none
  else
    let userKeyLen := decodeBigEndian (serialized.take userKeyLengthBytesSize)
    let serialized := serialized.drop userKeyLengthBytesSize
    if userKeyLen + seqBytesSize ≤ serialized.length then
      some ⟨decodeBigEndian ((serialized.drop userKeyLen).take seqBytesSize), ⟨serialized.take userKeyLen⟩⟩
    else none

variable (k : SequencedKey)

theorem serializeUserKey_length : k.serializeUserKey.length = k.serializedUserKeyBytesSize := by
  rw [serializeUserKey, List.length_append, encodeBigEndian_length]
  rfl

theorem serialize_length : k.serialize.length = k.serializedBytesSize := by
  rw [serialize, List.length_append, encodeBigEndian_length, serializeUserKey_length,
    serializedUserKeyBytesSize, serializedBytesSize]
  omega

/-- The cast of the length keeps what its field keeps. -/
theorem encode_cast (n : Nat) : encodeBigEndian userKeyLengthBytesSize (n % 2 ^ 16) =
    encodeBigEndian userKeyLengthBytesSize n := encodeBigEndian_mod userKeyLengthBytesSize n

variable {k}

/-- A large enough span gets the bytes of the key at its front, and keeps the others. -/
theorem serializeTo_eq {buffer : ByteString} (room : k.serializedBytesSize ≤ buffer.length) :
    k.serializeTo buffer = (k.serialize ++ buffer.drop k.serializedBytesSize, k.serializedBytesSize) := by
  have length := encodeBigEndian_length userKeyLengthBytesSize k.userKey.size
  have number := encodeBigEndian_length seqBytesSize k.seq
  have key : (encodeBigEndian userKeyLengthBytesSize k.userKey.size ++ k.userKey.bytes).length =
      userKeyLengthBytesSize + k.userKey.size := by
    rw [List.length_append, length]
    rfl
  have size : k.userKey.bytes.length = k.userKey.size := rfl
  have sum : userKeyLengthBytesSize + (k.userKey.size + seqBytesSize) = k.serializedBytesSize := by
    rw [serializedBytesSize]
    omega
  rw [serializeTo, if_neg (by omega)]
  dsimp only
  rw [encode_cast, store_front, store_behind length.symm, store_behind key.symm, length, number,
    List.drop_drop, List.drop_drop, size, sum]
  rfl

theorem serializeAsString_eq (k : SequencedKey) : k.serializeAsString = k.serialize := by
  rw [serializeAsString, serializeTo_eq List.length_replicate.ge, List.drop_replicate, Nat.sub_self]
  exact List.append_nil _

theorem serializeToString_eq (k : SequencedKey) (str : ByteString) :
    k.serializeToString str = (k.serialize, k.serializedBytesSize) := by
  rw [serializeToString, serializeTo_eq List.length_replicate.ge, List.drop_replicate, Nat.sub_self]
  exact congrArg (·, _) (List.append_nil _)

theorem serializeUserKeyAsString_eq (k : SequencedKey) : k.serializeUserKeyAsString = k.serializeUserKey := by
  have length := encodeBigEndian_length userKeyLengthBytesSize k.userKey.size
  have rest : k.serializedUserKeyBytesSize - userKeyLengthBytesSize - k.userKey.bytes.length = 0 := by
    rw [serializedUserKeyBytesSize, UserKey.size]
    omega
  rw [serializeUserKeyAsString]
  rw [encode_cast, store_front, store_behind length.symm, length, List.drop_replicate, List.drop_replicate, rest]
  exact List.append_nil _

theorem serializeSequenceNumberAppendTo_eq (k : SequencedKey) (dst : ByteString) :
    k.serializeSequenceNumberAppendTo dst = (dst ++ encodeBigEndian seqBytesSize k.seq, seqBytesSize) := by
  have number := encodeBigEndian_length seqBytesSize k.seq
  have buffer : store 0 (encodeBigEndian seqBytesSize k.seq) (List.replicate seqBytesSize 0) =
      encodeBigEndian seqBytesSize k.seq := by
    rw [store_front, List.drop_replicate, number, Nat.sub_self]
    exact List.append_nil _
  rw [serializeSequenceNumberAppendTo]
  rw [buffer, number]

/-- Two bytes that no other serializer has stand between the length and the key. -/
theorem serializeUserKeyAppendTo_eq (k : SequencedKey) (dst : ByteString) :
    k.serializeUserKeyAppendTo dst =
      (dst ++ (encodeBigEndian userKeyLengthBytesSize k.userKey.size ++ [0, 0] ++ k.userKey.bytes),
        k.serializedUserKeyBytesSize) := by
  have length := encodeBigEndian_length userKeyLengthBytesSize k.userKey.size
  rw [serializeUserKeyAppendTo]
  rw [encode_cast, store_front, length, List.append_assoc]
  rfl

/-- The bytes of a key that is not empty are read back. -/
theorem ofSerialized_serialize (short : k.userKey.size < 2 ^ 16) (number : k.seq < sequenceNumberModulus)
    (nonempty : k.userKey.bytes ≠ []) : ofSerialized k.serialize = some k := by
  have length := encodeBigEndian_length userKeyLengthBytesSize k.userKey.size
  have width := encodeBigEndian_length seqBytesSize k.seq
  have whole := k.serialize_length
  have positive : 0 < k.userKey.size := List.length_pos_of_ne_nil nonempty
  have field : k.userKey.size < 256 ^ userKeyLengthBytesSize := short
  have numberField : k.seq < 256 ^ seqBytesSize := number
  have size : k.userKey.bytes.length = k.userKey.size := rfl
  have long : ¬ k.serialize.length ≤ userKeyLengthBytesSize + seqBytesSize := by
    rw [whole, serializedBytesSize]
    omega
  have present : k.serialize ≠ [] := by
    intro empty
    rw [empty] at long
    exact long (Nat.zero_le _)
  have split : k.serialize = encodeBigEndian userKeyLengthBytesSize k.userKey.size ++
      (k.userKey.bytes ++ encodeBigEndian seqBytesSize k.seq) := List.append_assoc _ _ _
  rw [ofSerialized, if_neg present, if_neg long, split]
  dsimp only
  rw [List.take_left' length, List.drop_left' length, decode_encodeBigEndian, Nat.mod_eq_of_lt field]
  rw [if_pos (by rw [List.length_append, width]; rfl), List.drop_left' size, List.take_left' size,
    List.take_of_length_le width.le, decode_encodeBigEndian, Nat.mod_eq_of_lt numberField]

/-- All serializers but the one that appends the user key produce the same bytes, with their sizes. -/
structure LayoutsAgree (k : SequencedKey) : Prop where
  span : ∀ buffer : ByteString, k.serializedBytesSize ≤ buffer.length → k.serializeTo buffer =
    (k.serializeAsString ++ buffer.drop k.serializeAsString.length, k.serializeAsString.length)
  string : ∀ str, k.serializeToString str = (k.serializeAsString, k.serializeAsString.length)
  size : k.serializedBytesSize = k.serializeAsString.length
  userKeySize : k.serializedUserKeyBytesSize = k.serializeUserKeyAsString.length
  numberBehindUserKey : (k.serializeSequenceNumberAppendTo k.serializeUserKeyAsString).1 = k.serializeAsString
  numberSize : ∀ dst, (k.serializeSequenceNumberAppendTo dst).1.length =
    dst.length + (k.serializeSequenceNumberAppendTo dst).2
  back : k.userKey.bytes ≠ [] → ofSerialized k.serializeAsString = some k

/-- The serializer that appends the user key produces these bytes too, with their size. -/
structure AppendAgrees (k : SequencedKey) : Prop where
  bytes : ∀ dst, (k.serializeSequenceNumberAppendTo (k.serializeUserKeyAppendTo dst).1).1 =
    dst ++ k.serializeAsString
  size : ∀ dst, (k.serializeUserKeyAppendTo dst).1.length = dst.length + (k.serializeUserKeyAppendTo dst).2

def SerializersAgree (k : SequencedKey) : Prop := k.LayoutsAgree ∧ k.AppendAgrees

theorem layoutsAgree (short : k.userKey.size < 2 ^ 16) (number : k.seq < sequenceNumberModulus) :
    k.LayoutsAgree where
  span buffer room := by
    rw [serializeAsString_eq, serialize_length]
    exact serializeTo_eq room
  string str := by
    rw [serializeAsString_eq, serialize_length]
    exact k.serializeToString_eq str
  size := by rw [serializeAsString_eq, serialize_length]
  userKeySize := by rw [serializeUserKeyAsString_eq, serializeUserKey_length]
  numberBehindUserKey := by
    rw [serializeAsString_eq, serializeUserKeyAsString_eq, serializeSequenceNumberAppendTo_eq]
    rfl
  numberSize dst := by
    rw [serializeSequenceNumberAppendTo_eq, List.length_append, encodeBigEndian_length]
  back nonempty := by
    rw [serializeAsString_eq]
    exact ofSerialized_serialize short number nonempty

/-- What is appended is two bytes longer than the other layouts, for every key. -/
theorem length_appended (k : SequencedKey) (dst : ByteString) :
    (k.serializeUserKeyAppendTo dst).1.length = dst.length + (k.serializedUserKeyBytesSize + 2) := by
  rw [serializeUserKeyAppendTo_eq, List.length_append, List.length_append, List.length_append,
    encodeBigEndian_length, serializedUserKeyBytesSize, UserKey.size]
  change _ + (_ + 2 + _) = _
  omega

/-- The serializers agree on no key, because of the two bytes; all others agree on every key whose length
its field can hold. -/
theorem serializers_disagree (short : k.userKey.size < 2 ^ 16) (number : k.seq < sequenceNumberModulus) :
    k.LayoutsAgree ∧ ¬ k.SerializersAgree := by
  refine ⟨layoutsAgree short number, fun agree => ?_⟩
  have size := agree.2.size []
  have returned : (k.serializeUserKeyAppendTo []).2 = k.serializedUserKeyBytesSize := by
    rw [serializeUserKeyAppendTo_eq]
  rw [length_appended, returned] at size
  omega

/-- The key `b` with number 5. -/
theorem serializers_disagree_brief : (⟨5, ⟨[98]⟩⟩ : SequencedKey).LayoutsAgree ∧
    ¬ (⟨5, ⟨[98]⟩⟩ : SequencedKey).SerializersAgree :=
  serializers_disagree (by decide) (by decide)

/-- Its serialized bytes, and those that are appended. -/
theorem appended_brief :
    let k : SequencedKey := ⟨5, ⟨[98]⟩⟩
    k.serializeAsString = [0, 1, 98, 0, 0, 0, 5] ∧ k.serializeUserKeyAppendTo [] = ([0, 1, 0, 0, 98], 3) ∧
      (k.serializeSequenceNumberAppendTo [0, 1, 0, 0, 98]).1 = [0, 1, 0, 0, 98, 0, 0, 0, 5] ∧
        ¬ k.SerializersAgree := by
  intro k
  refine ⟨by decide, by decide, by decide, fun agree => ?_⟩
  have size := agree.2.size []
  revert size
  decide

end SequencedKey

end FrenzyKV
