import FrenzyKV.Log.EntryBuffer
import FrenzyKV.Persistent.Block
import FrenzyKV.Util.Comp

/-! The bytes of a block segment: how they are built and parsed (`persistent/block.cc`). -/

namespace FrenzyKV

open Bytes Framework

def bsPpl : Nat := 2
def bsRil : Nat := 4

namespace BlockSegment

/-- The bytes of an item behind its length. -/
def itemBody (item : Nat × KvUserValue) : ByteString :=
  encodeBigEndian seqBytesSize item.1 ++ KvUserValue.serialize item.2

/-- What `block_segment_builder::add` appends. -/
def itemBytes (item : Nat × KvUserValue) : ByteString :=
  encodeBigEndian bsRil (seqBytesSize + KvUserValue.serializedBytesSize item.2) ++ itemBody item

/-- What the constructor of `block_segment_builder` appends. -/
def openBytes (publicPrefix : ByteString) : ByteString :=
  encodeBigEndian bsPpl publicPrefix.length ++ publicPrefix

/-- A segment up to its last item. -/
def unfinishedBytes (seg : BlockSegment) : ByteString :=
  openBytes seg.userKey.serialize ++ seg.items.flatMap itemBytes

/-- A segment ends with an empty item. -/
def bytes (seg : BlockSegment) : ByteString := seg.unfinishedBytes ++ encodeBigEndian bsRil 0

/-- What the length fields of a segment and the type of the numbers can hold. -/
structure Fits (seg : BlockSegment) : Prop where
  key : bsPpl + seg.userKey.size < 2 ^ 16
  items : ∀ item ∈ seg.items, item.1 < sequenceNumberModulus ∧
    seqBytesSize + KvUserValue.serializedBytesSize item.2 < 2 ^ 32

end BlockSegment

/-- What `block_segment::parse` takes from the memory behind a pointer. -/
structure RawSegment where
  publicPrefix : ByteString
  items : List ByteString
  size : Nat
deriving DecidableEq, Repr

/-- `parse_result_t`; the public prefix can be used before the items are complete. -/
inductive SegmentResult
  | incomplete (publicPrefix : ByteString)
  | success (seg : RawSegment)
deriving DecidableEq, Repr

namespace SegmentResult

def publicPrefix : SegmentResult → ByteString
  | incomplete publicPrefix => publicPrefix
  | success seg => seg.publicPrefix

end SegmentResult

namespace RawSegment

/-- The loop over the items: `room` bytes are left before the sentinel. It returns the items and
how far they reach; there is no result when a length stands outside the memory. -/
def parseItems (mem : ByteString) (room : Nat) : Option (List ByteString × Nat) :=
  if room = 0 then some ([], 0)
  else match readBigEndian bsRil mem with
    | none => none
    | some ril =>
      if ril = 0 then some ([], 0)
      else (parseItems (mem.drop (bsRil + ril)) (room - (bsRil + ril))).map fun rest =>
        ((mem.drop bsRil).take ril :: rest.1, bsRil + ril + rest.2)
termination_by room
decreasing_by
  rw [bsRil]
  omega

/-- `block_segment::parse` on `room` bytes of the memory, and the exception of the constructor. -/
def parse (mem : ByteString) (room : Nat) : Option SegmentResult :=
  (readBigEndian bsPpl mem).bind fun ppl =>
    if ppl = 0 then none
    else
      let publicPrefix := (mem.drop bsPpl).take ppl
      (parseItems (mem.drop (bsPpl + ppl)) (room - (bsPpl + ppl))).bind fun items =>
        let consumed := bsPpl + ppl + items.2
        if room < consumed then some (.incomplete publicPrefix)
        else (readBigEndian bsRil (mem.drop consumed)).map fun eof =>
          .success ⟨publicPrefix, items.1, if eof = 0 then consumed + bsRil else room⟩

theorem size_pos_of_parse {mem : ByteString} {room : Nat} {seg : RawSegment}
    (parsed : parse mem room = some (.success seg)) : 0 < seg.size := by
  rw [parse] at parsed
  obtain ⟨ppl, _, parsed⟩ := Option.bind_eq_some_iff.mp parsed
  split at parsed
  · cases parsed
  · obtain ⟨items, _, parsed⟩ := Option.bind_eq_some_iff.mp parsed
    dsimp only at parsed
    split at parsed
    · cases parsed
    · obtain ⟨eof, _, parsed⟩ := Option.map_eq_some_iff.mp parsed
      cases parsed
      simp only [bsPpl, bsRil] at *
      split <;> omega

/-- The entry that an item stands for: its number, and the value behind it. -/
def entryOf (userKey : ByteString) (item : ByteString) : Option KvEntry :=
  let reader : ByteReader EntryBuffer.ReadFault KvEntry := do
    let seq ← EntryBuffer.number seqBytesSize
    let value ← EntryBuffer.userValue
    return ⟨⟨seq, ⟨userKey⟩⟩, value⟩
  match reader.run item with
  | .ok (e, _) => some e
  | .error _ => none

/-- The prefix without the two bytes of the key's length. -/
def userKey (seg : RawSegment) : ByteString := seg.publicPrefix.drop userKeyLengthBytesSize

/-- `entries_from_block_segment`. -/
def entries (seg : RawSegment) : Option (List KvEntry) := seg.items.mapM (entryOf seg.userKey)

/-- `fit_public_prefix`. -/
def fitPublicPrefix (userPrefix publicPrefix : ByteString) : Bool :=
  if publicPrefix.length < userPrefix.length then false
  else memcmpComparator userPrefix (publicPrefix.take userPrefix.length) = .eq

/-- `larger_equal_than_this_public_prefix`. -/
def largerEqualThanPublicPrefix (userPrefix publicPrefix : ByteString) : Bool :=
  let cmpRet := memcmpComparator userPrefix (publicPrefix.take userPrefix.length)
  cmpRet = .gt || cmpRet = .eq

/-- `less_than_this_public_prefix`. -/
def lessThanPublicPrefix (userPrefix publicPrefix : ByteString) : Bool :=
  memcmpComparator userPrefix (publicPrefix.take userPrefix.length) = .lt

end RawSegment

namespace BlockSegment

variable {seg : BlockSegment}

/-- What is parsed from the bytes of a segment. -/
def raw (seg : BlockSegment) : RawSegment :=
  ⟨seg.userKey.serialize, seg.items.map itemBody, seg.bytes.length⟩

theorem itemBody_length (item : Nat × KvUserValue) :
    (itemBody item).length = seqBytesSize + KvUserValue.serializedBytesSize item.2 := by
  rw [itemBody, List.length_append, encodeBigEndian_length, KvUserValue.serialize_length]

theorem itemBytes_length (item : Nat × KvUserValue) :
    (itemBytes item).length = bsRil + (seqBytesSize + KvUserValue.serializedBytesSize item.2) := by
  rw [itemBytes, List.length_append, encodeBigEndian_length, itemBody_length]

/-- The loop takes whole items, and goes on behind them. -/
theorem parseItems_append {items : List (Nat × KvUserValue)}
    (small : ∀ item ∈ items, seqBytesSize + KvUserValue.serializedBytesSize item.2 < 2 ^ 32)
    (rest : ByteString) (room : Nat) :
    RawSegment.parseItems (items.flatMap itemBytes ++ rest) ((items.flatMap itemBytes).length + room) =
      (RawSegment.parseItems rest room).map fun later =>
        (items.map itemBody ++ later.1, (items.flatMap itemBytes).length + later.2) := by
  induction items with
  | nil =>
    rw [List.flatMap_nil, List.nil_append, List.length_nil, Nat.zero_add]
    cases RawSegment.parseItems rest room with
    | none => rfl
    | some later => rw [Option.map_some, List.map_nil, List.nil_append, Nat.zero_add]
  | cons item items ih =>
    have body := itemBody_length item
    have whole := itemBytes_length item
    have length : ((item :: items).flatMap itemBytes).length =
        (itemBytes item).length + (items.flatMap itemBytes).length := by
      rw [List.flatMap_cons, List.length_append]
    have later := ih fun x mem => small x (List.mem_cons_of_mem _ mem)
    have ril : readBigEndian bsRil ((item :: items).flatMap itemBytes ++ rest) =
        some (itemBody item).length := by
      rw [List.flatMap_cons, itemBytes, List.append_assoc, List.append_assoc, body]
      exact readBigEndian_encode (small item List.mem_cons_self) _
    have present : (itemBody item).length ≠ 0 := by
      rw [body, seqBytesSize]
      omega
    have width := encodeBigEndian_length bsRil (seqBytesSize + KvUserValue.serializedBytesSize item.2)
    have behind : ((item :: items).flatMap itemBytes ++ rest).drop (bsRil + (itemBody item).length) =
        items.flatMap itemBytes ++ rest := by
      rw [List.flatMap_cons, List.append_assoc, List.drop_left' (by rw [whole, body])]
    have front : (((item :: items).flatMap itemBytes ++ rest).drop bsRil).take (itemBody item).length =
        itemBody item := by
      rw [List.flatMap_cons, itemBytes, List.append_assoc, List.append_assoc, List.drop_left' width,
        List.take_left]
    have left : ((item :: items).flatMap itemBytes).length + room - (bsRil + (itemBody item).length) =
        (items.flatMap itemBytes).length + room := by omega
    rw [RawSegment.parseItems, if_neg (by omega), ril]
    simp only [if_neg present, behind, front, left, later, Option.map_map]
    congr 1
    funext done
    simp only [Function.comp_apply, List.map_cons, List.cons_append, length, whole, ← body, Nat.add_assoc]

theorem bytes_length (seg : BlockSegment) : seg.bytes.length =
    bsPpl + seg.userKey.serialize.length + (seg.items.flatMap itemBytes).length + bsRil := by
  simp only [bytes, unfinishedBytes, openBytes, List.length_append, encodeBigEndian_length]

theorem unfinishedBytes_length (seg : BlockSegment) : seg.unfinishedBytes.length =
    bsPpl + seg.userKey.serialize.length + (seg.items.flatMap itemBytes).length := by
  simp only [unfinishedBytes, openBytes, List.length_append, encodeBigEndian_length]

/-- A segment up to its last item is parsed back where the items stop behind it. -/
theorem parse_unfinishedBytes (fits : seg.Fits) {rest : ByteString} {room eof : Nat}
    (inside : seg.unfinishedBytes.length ≤ room)
    (stops : RawSegment.parseItems rest (room - seg.unfinishedBytes.length) = some ([], 0))
    (behind : readBigEndian bsRil rest = some eof) :
    RawSegment.parse (seg.unfinishedBytes ++ rest) room = some (.success ⟨seg.userKey.serialize,
      seg.items.map itemBody, if eof = 0 then seg.unfinishedBytes.length + bsRil else room⟩) := by
  let key := seg.userKey.serialize
  let items := seg.items.flatMap itemBytes
  have length : seg.unfinishedBytes.length = bsPpl + key.length + items.length :=
    unfinishedBytes_length seg
  have short : key.length < 256 ^ bsPpl := by
    have := fits.key
    rw [UserKey.serialize_length]
    exact this
  have present : key.length ≠ 0 := by
    rw [UserKey.serialize_length, userKeyLengthBytesSize]
    omega
  have width := encodeBigEndian_length bsPpl key.length
  have split : seg.unfinishedBytes ++ rest =
      encodeBigEndian bsPpl key.length ++ (key ++ (items ++ rest)) := by
    simp only [unfinishedBytes, openBytes, List.append_assoc, key, items]
  have opened : (encodeBigEndian bsPpl key.length ++ key).length = bsPpl + key.length := by
    rw [List.length_append, width]
  have behindKey : (seg.unfinishedBytes ++ rest).drop (bsPpl + key.length) = items ++ rest := by
    rw [split, ← List.append_assoc, List.drop_left' opened]
  have behindItems : (seg.unfinishedBytes ++ rest).drop (bsPpl + key.length + items.length) = rest := by
    rw [← List.drop_drop, behindKey, List.drop_left]
  have front : ((seg.unfinishedBytes ++ rest).drop bsPpl).take key.length = key := by
    rw [split, List.drop_left' width, List.take_left]
  have parsed : RawSegment.parseItems (items ++ rest) (room - (bsPpl + key.length)) =
      some (seg.items.map itemBody, items.length) := by
    have left : room - (bsPpl + key.length) = items.length + (room - seg.unfinishedBytes.length) := by
      omega
    rw [left, parseItems_append fun item mem => (fits.items item mem).2, stops, Option.map_some,
      List.append_nil, Nat.add_zero]
  have enough : ¬ room < bsPpl + key.length + items.length := by omega
  rw [RawSegment.parse, split, readBigEndian_encode short, ← split]
  simp only [Option.bind_some, if_neg present, behindKey, parsed, if_neg enough, behindItems]
  rw [behind, front, Option.map_some, ← length]

/-- The bytes of a segment are parsed back, whatever follows them. -/
theorem parse_bytes (fits : seg.Fits) (rest : ByteString) {room : Nat}
    (inside : seg.bytes.length ≤ room) :
    RawSegment.parse (seg.bytes ++ rest) room = some (.success seg.raw) := by
  have length : seg.bytes.length = seg.unfinishedBytes.length + bsRil := by
    rw [bytes, List.length_append, encodeBigEndian_length]
  have eof : readBigEndian bsRil (encodeBigEndian bsRil 0 ++ rest) = some 0 :=
    readBigEndian_encode (by decide) rest
  have stops : RawSegment.parseItems (encodeBigEndian bsRil 0 ++ rest)
      (room - seg.unfinishedBytes.length) = some ([], 0) := by
    rw [bsRil] at length
    rw [RawSegment.parseItems, if_neg (by omega), eof]
    rfl
  rw [bytes, List.append_assoc, parse_unfinishedBytes fits (by omega) stops eof, if_pos rfl, ← length]
  rfl

/-- What is parsed from a segment that ends with the room, without its terminator. -/
def openRaw (seg : BlockSegment) : RawSegment :=
  ⟨seg.userKey.serialize, seg.items.map itemBody, seg.unfinishedBytes.length⟩

theorem parse_open (fits : seg.Fits) {rest : ByteString} {eof : Nat} (present : eof ≠ 0)
    (behind : readBigEndian bsRil rest = some eof) :
    RawSegment.parse (seg.unfinishedBytes ++ rest) seg.unfinishedBytes.length =
      some (.success seg.openRaw) := by
  have stops : RawSegment.parseItems rest
      (seg.unfinishedBytes.length - seg.unfinishedBytes.length) = some ([], 0) := by
    rw [Nat.sub_self, RawSegment.parseItems, if_pos rfl]
  rw [parse_unfinishedBytes fits le_rfl stops behind, if_neg present]
  rfl

theorem entryOf_itemBody {item : Nat × KvUserValue} (number : item.1 < sequenceNumberModulus)
    (small : seqBytesSize + KvUserValue.serializedBytesSize item.2 < 2 ^ 32) (uk : ByteString) :
    RawSegment.entryOf uk (itemBody item) = some ⟨⟨item.1, ⟨uk⟩⟩, item.2.stored⟩ := by
  have size : KvUserValue.size item.2 < 2 ^ 32 := by
    rw [KvUserValue.serializedBytesSize] at small
    omega
  have value := EntryBuffer.userValue_serialize size []
  rw [List.append_nil] at value
  have seq : (EntryBuffer.number seqBytesSize).run (itemBody item) =
      .ok (item.1, KvUserValue.serialize item.2) :=
    EntryBuffer.number_encode number _
  rw [RawSegment.entryOf, ByteReader.bind_ok seq, ByteReader.bind_ok value]
  rfl

theorem userKey_raw (seg : BlockSegment) : seg.raw.userKey = seg.userKey.bytes := by
  rw [RawSegment.userKey, raw, UserKey.serialize, List.drop_left' (encodeBigEndian_length _ _)]

/-- The entries of a segment are read back as they were stored. -/
theorem entries_raw (fits : seg.Fits) : seg.raw.entries = some seg.entries := by
  rw [RawSegment.entries, userKey_raw, raw, entries]
  have items := fits.items
  generalize seg.items = all at items
  induction all with
  | nil => rfl
  | cons item rest ih =>
    have first := items item List.mem_cons_self
    rw [List.map_cons, List.mapM_cons, entryOf_itemBody first.1 first.2,
      ih fun x mem => items x (List.mem_cons_of_mem _ mem)]
    rfl

end BlockSegment

end FrenzyKV
