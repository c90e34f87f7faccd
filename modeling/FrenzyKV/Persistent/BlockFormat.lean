import FrenzyKV.Persistent.BlockBuilder
import FrenzyKV.Persistent.SegmentFormat
import FrenzyKV.Util.Compressor

/-! The bytes of a block: `block_builder` on its storage (`persistent/block.cc`). -/

namespace FrenzyKV

open Bytes

abbrev btlSize : Nat := BlockBuilder.blockLengthBytesSize
def sbsoSize : Nat := 4
def nsbsSize : Nat := 2
def wcSize : Nat := 1
def crc32Size : Nat := 4

/-- Largest value of `btl_t`, the type of block lengths. -/
def maxBtl : Nat := 2 ^ 32 - 1

/-- The members of `block_builder`. Of the current segment builder there are the prefix, and whether
it is detached: it refers to the storage of another builder, from which this one was moved. -/
structure RawBlockBuilder where
  storage : ByteString
  publicPrefix : Option ByteString
  segCount : Nat
  sbsos : List Nat
  detached : Bool

/-- A block in a file: length, stored content, whether it is compressed, and checksum. -/
def sealBlock (crc32c : ByteString → UInt32) (wc : Nat) (stored : ByteString) : ByteString :=
  encodeBigEndian btlSize (btlSize + (stored.length + (wcSize + crc32Size))) ++ stored ++
    (encodeBigEndian wcSize wc ++ encodeBigEndian crc32Size (crc32c stored).toNat)

/-- The content is compressed when there is a compressor and the options ask for it. -/
def storeContent (opt : StorageOptions) (compressor : Option CompressorPolicy)
    (crc32c : ByteString → UInt32) (content : ByteString) : ByteString :=
  match compressor, opt.needCompress with
  | some compressor, true => sealBlock crc32c 1 (compressor.compressAppendTo content)
  | _, _ => sealBlock crc32c 0 content

theorem storeContent_plain {opt : StorageOptions} {compressor : Option CompressorPolicy}
    (plain : (compressor.isSome && opt.needCompress) = false) (crc32c : ByteString → UInt32)
    (content : ByteString) : storeContent opt compressor crc32c content = sealBlock crc32c 0 content := by
  unfold storeContent
  cases compressor with
  | none => rfl
  | some writer =>
    have off : opt.needCompress = false := plain
    rw [off]

theorem storeContent_compressed {opt : StorageOptions} (need : opt.needCompress = true)
    (writer : CompressorPolicy) (crc32c : ByteString → UInt32) (content : ByteString) :
    storeContent opt (some writer) crc32c content =
      sealBlock crc32c 1 (writer.compressAppendTo content) := by
  unfold storeContent
  rw [need]

namespace RawBlockBuilder

def fresh : RawBlockBuilder := ⟨encodeBigEndian btlSize 0, none, 0, [], false⟩

/-- At the very beginning there is no segment builder: the first key makes one. -/
def opened (b : RawBlockBuilder) (userKeyRep : ByteString) : RawBlockBuilder × ByteString :=
  match b.publicPrefix with
  | some publicPrefix => (b, publicPrefix)
  | none => ({
      storage := b.storage ++ BlockSegment.openBytes userKeyRep
      publicPrefix := some userKeyRep
      segCount := b.segCount + 1
      sbsos := b.sbsos ++ [btlSize]
      detached := false }, userKeyRep)

/-- `block_builder::add` on a builder that was not moved; no result means that the order assertion
fails. -/
def add (opt : Options) (b : RawBlockBuilder) (e : KvEntry) : Option RawBlockBuilder :=
  let userKeyRep := e.key.serializeUserKey
  let item := BlockSegment.itemBytes (e.seq, e.value)
  let (b, lastPrefix) := b.opened userKeyRep
  if userKeyRep = lastPrefix then some { b with storage := b.storage ++ item }
  else
    -- `block_segment_builder::finish` ends the segment
    let storage := b.storage ++ encodeBigEndian bsRil 0
    if memcmpComparator userKeyRep lastPrefix = .gt then
      let segCount := b.segCount + 1
      some {
        storage := storage ++ BlockSegment.openBytes userKeyRep ++ item
        publicPrefix := some userKeyRep
        segCount
        sbsos := b.sbsos ++
          if (segCount + 1) % opt.maxBlockSegmentsNumber = 0 then [storage.length % 2 ^ 32] else []
        detached := false }
    else none

/-- The builder that a move leaves in the target: the storage moves along, the reference of the
segment builder does not. -/
def moved (b : RawBlockBuilder) : RawBlockBuilder := { b with detached := true }

/-- The data that `block_builder::finish` completes, and its meta data. -/
def content (b : RawBlockBuilder) : ByteString :=
  -- a detached segment builder writes its terminator elsewhere
  let storage := b.storage ++ if b.detached then [] else encodeBigEndian bsRil 0
  -- an offset at the end of the data area would be deleted
  let sbsos := if b.sbsos.getLast? = some storage.length then b.sbsos.dropLast else b.sbsos
  let storage := storage ++ sbsos.flatMap (encodeBigEndian sbsoSize) ++
    encodeBigEndian nsbsSize sbsos.length
  storage.drop btlSize

/-- `block_builder::finish`; no result means that an assertion fails. -/
def finish (opt : StorageOptions) (compressor : Option CompressorPolicy)
    (crc32c : ByteString → UInt32) (b : RawBlockBuilder) : Option ByteString :=
  if b.publicPrefix = none then none
  else
    let storage := storeContent opt compressor crc32c b.content
    if storage.length ≤ maxBtl then some storage else none

/-- Entries added one after another. -/
def addAll (opt : Options) : RawBlockBuilder → List KvEntry → Option RawBlockBuilder
  | b, [] => some b
  | b, e :: es => (b.add opt e).bind fun b => b.addAll opt es

end RawBlockBuilder

namespace BlockSegment

/-- Where the special segments stand, when the first segment stands at `offset`. -/
def specialOffsets (offset : Nat) : List BlockSegment → List Nat
  | [] => []
  | seg :: rest =>
    (if seg.special then [offset] else []) ++ specialOffsets (offset + seg.bytes.length) rest

theorem specialOffsets_append (offset : Nat) (front back : List BlockSegment) :
    specialOffsets offset (front ++ back) = specialOffsets offset front ++
      specialOffsets (offset + (front.flatMap bytes).length) back := by
  induction front generalizing offset with
  | nil => rfl
  | cons seg front ih =>
    rw [List.cons_append, specialOffsets, specialOffsets, ih, List.flatMap_cons, List.length_append,
      List.append_assoc, Nat.add_assoc]

/-- Special segments stand in the data area, before the terminator of the last segment. -/
theorem lt_of_mem_specialOffsets {offset pos : Nat} {segs : List BlockSegment}
    (mem : pos ∈ specialOffsets offset segs) :
    offset ≤ pos ∧ pos + 4 < offset + (segs.flatMap bytes).length := by
  induction segs generalizing offset with
  | nil => cases mem
  | cons seg rest ih =>
    have length := bytes_length seg
    rw [bsRil, bsPpl] at length
    rw [List.flatMap_cons, List.length_append]
    cases List.mem_append.mp mem with
    | inl here =>
      by_cases special : seg.special = true
      · rw [if_pos special, List.mem_singleton] at here
        omega
      · rw [if_neg special] at here
        cases here
    | inr later =>
      have := ih later
      omega

/-- The interval that a special segment opens has room for it. -/
theorem length_le_interval {pos stop : Nat} (seg : BlockSegment) (later : List BlockSegment)
    (inside : pos + seg.bytes.length ≤ stop) :
    seg.bytes.length ≤ (specialOffsets (pos + seg.bytes.length) later).headD stop - pos := by
  cases eq : specialOffsets (pos + seg.bytes.length) later with
  | nil =>
    rw [List.headD_nil]
    omega
  | cons next rest =>
    have mem : next ∈ specialOffsets (pos + seg.bytes.length) later := eq ▸ List.mem_cons_self
    have behind := (lt_of_mem_specialOffsets mem).1
    rw [List.headD_cons]
    omega

theorem specialOffsets_singleton (offset : Nat) (seg : BlockSegment) :
    specialOffsets offset [seg] = if seg.special then [offset] else [] :=
  List.append_nil _

end BlockSegment

namespace Block

/-- The data area of a block. -/
def data (b : Block) : ByteString := b.segments.flatMap BlockSegment.bytes

/-- The special segment offsets of a block. -/
def sbsos (b : Block) : List Nat :=
  (BlockSegment.specialOffsets btlSize b.segments).map (· % 2 ^ 32)

/-- Data and meta data of a block. -/
def content (b : Block) : ByteString :=
  b.data ++ (b.sbsos.flatMap (encodeBigEndian sbsoSize) ++ encodeBigEndian nsbsSize b.sbsos.length)

/-- The data area of a block whose last segment is not ended. -/
def openData (b : Block) : ByteString :=
  b.segments.dropLast.flatMap BlockSegment.bytes ++
    (b.segments.getLast?.map BlockSegment.unfinishedBytes).getD []

def openContent (b : Block) : ByteString :=
  b.openData ++ (b.sbsos.flatMap (encodeBigEndian sbsoSize) ++ encodeBigEndian nsbsSize b.sbsos.length)

end Block

theorem UserKey.serialize_inj {k l : UserKey} (same : k.serialize = l.serialize) : k = l := by
  apply UserKey.ext
  exact List.append_inj_right same (by rw [encodeBigEndian_length, encodeBigEndian_length])

/-- The storage of a builder is the bytes of its segments. -/
structure BlockBuilder.Stores (b : BlockBuilder) (r : RawBlockBuilder) : Prop where
  storage : r.storage = encodeBigEndian btlSize 0 ++ b.finished.flatMap BlockSegment.bytes ++
    (b.current.map BlockSegment.unfinishedBytes).getD []
  size : r.storage.length = b.storageSize
  publicPrefix : r.publicPrefix = b.current.map fun seg => seg.userKey.serialize
  segCount : r.segCount = b.segCount
  sbsos : r.sbsos = (BlockSegment.specialOffsets btlSize b.finish.segments).map (· % 2 ^ 32)
  start : b.current = none → b.finished = []
  attached : r.detached = false

namespace BlockBuilder

variable {b : BlockBuilder} {r : RawBlockBuilder} {e : KvEntry}

theorem fresh_stores : fresh.Stores .fresh where
  storage := rfl
  size := rfl
  publicPrefix := rfl
  segCount := rfl
  sbsos := rfl
  start _ := rfl
  attached := rfl

theorem length_itemBytes (e : KvEntry) :
    (BlockSegment.itemBytes (e.seq, e.value)).length = itemBytes e :=
  BlockSegment.itemBytes_length (e.seq, e.value)

theorem length_openBytes (e : KvEntry) :
    (BlockSegment.openBytes e.userKey.serialize).length = prefixBytes e := by
  rw [BlockSegment.openBytes, List.length_append, encodeBigEndian_length, UserKey.serialize_length]
  rfl

/-- The builder on bytes does what the builder on segments does. -/
theorem add_stores (opt : Options) (stores : b.Stores r) (short : e.userKey.size < 2 ^ 16)
    (shortLast : ∀ seg, b.current = some seg → seg.userKey.size < 2 ^ 16) :
    Option.Rel Stores (b.add opt e) (r.add opt e) := by
  have size := stores.size
  have key : e.key.serializeUserKey = e.userKey.serialize := UserKey.serializeUserKey_eq e.key
  have item := length_itemBytes e
  have opening := length_openBytes e
  have publicPrefix := stores.publicPrefix
  have segCount := stores.segCount
  have storage := stores.storage
  have sbsos := stores.sbsos
  cases current : b.current with
  | none =>
    have finished := stores.start current
    rw [current, Option.map_none] at publicPrefix
    rw [current, finished] at storage
    rw [BlockBuilder.finish, current, finished] at sbsos
    rw [BlockBuilder.add, current, RawBlockBuilder.add, RawBlockBuilder.opened, publicPrefix, key]
    simp only [if_true]
    refine .some ⟨?_, ?_, rfl, by rw [segCount], ?_, (fun empty => by cases empty), rfl⟩
    · simp [storage, finished, BlockSegment.unfinishedBytes]
    · simp only [List.length_append, item, opening, size]
    · rw [sbsos, finish, finished]
      rfl
  | some seg =>
    rw [current, Option.map_some] at publicPrefix
    rw [current, Option.map_some, Option.getD_some] at storage
    rw [BlockBuilder.finish, current, Option.toList_some, BlockSegment.specialOffsets_append] at sbsos
    rw [BlockBuilder.add, current, RawBlockBuilder.add, RawBlockBuilder.opened, publicPrefix, key]
    simp only
    by_cases same : e.userKey = seg.userKey
    · rw [if_pos same, if_pos (congrArg _ same)]
      refine .some ⟨?_, ?_, publicPrefix, segCount, ?_, (fun empty => by cases empty), stores.attached⟩
      · simp [storage, BlockSegment.unfinishedBytes]
      · simp only [List.length_append, item, size]
      · rw [sbsos, finish, Option.toList_some, BlockSegment.specialOffsets_append]
        rfl
    · have other : e.userKey.serialize ≠ seg.userKey.serialize := fun eq =>
        same (UserKey.serialize_inj eq)
      rw [if_neg same, if_neg other]
      by_cases larger : seg.userKey < e.userKey
      · rw [if_pos larger, if_pos (UserKey.memcmpComparator_serialize_of_gt larger short)]
        refine .some ⟨?_, ?_, rfl, by rw [segCount], ?_, (fun empty => by cases empty), rfl⟩
        · simp [storage, BlockSegment.unfinishedBytes, BlockSegment.bytes]
        · simp only [List.length_append, item, opening, size, encodeBigEndian_length]
          rfl
        · have ended : (r.storage ++ encodeBigEndian bsRil 0).length =
              btlSize + ((b.finished ++ [seg]).flatMap BlockSegment.bytes).length := by
            rw [storage, List.flatMap_append, List.flatMap_singleton, BlockSegment.bytes]
            simp only [List.length_append, encodeBigEndian_length]
            omega
          rw [sbsos, finish, Option.toList_some, BlockSegment.specialOffsets_append,
            BlockSegment.specialOffsets_append, segCount, ended, List.map_append, List.map_append,
            List.map_append]
          rw [BlockSegment.specialOffsets_singleton _ ⟨e.userKey, _, _⟩]
          by_cases special : (b.segCount + 1 + 1) % opt.maxBlockSegmentsNumber = 0
          · simp only [special, if_true, decide_true, List.map_singleton]
          · simp only [special, if_false, decide_false, Bool.false_eq_true, List.map_nil]
      · have less : e.userKey < seg.userKey := lt_of_le_of_ne (not_lt.mp larger) same
        rw [if_neg larger, UserKey.memcmpComparator_serialize_of_lt less (shortLast seg current),
          if_neg (by decide)]
        exact .none

/-- No special segment stands at the end of the data area, where `finish` would delete it. -/
theorem offset_kept (stores : b.Stores r) (storage : ByteString)
    (long : btlSize + b.finish.data.length ≤ storage.length + bsRil) :
    r.sbsos.getLast? ≠ some storage.length := by
  intro last
  have mem := List.mem_of_getLast? last
  rw [stores.sbsos] at mem
  obtain ⟨pos, at_pos, eq⟩ := List.mem_map.mp mem
  have inside := (BlockSegment.lt_of_mem_specialOffsets at_pos).2
  have cut := Nat.mod_le pos (2 ^ 32)
  rw [Block.data, bsRil] at long
  omega

theorem content_eq (stores : b.Stores r) (nonempty : b.current ≠ none) :
    r.content = b.finish.content := by
  obtain ⟨seg, current⟩ := Option.ne_none_iff_exists'.mp nonempty
  have data : r.storage ++ encodeBigEndian bsRil 0 = encodeBigEndian btlSize 0 ++ b.finish.data := by
    rw [stores.storage, current, Block.data, finish, current, Option.toList_some, List.flatMap_append,
      List.flatMap_singleton, BlockSegment.bytes]
    simp only [Option.map_some, Option.getD_some, List.append_assoc]
  have kept := offset_kept stores (encodeBigEndian btlSize 0 ++ b.finish.data)
    (by rw [List.length_append, encodeBigEndian_length]; exact Nat.le_add_right _ _)
  have sbsos : r.sbsos = b.finish.sbsos := stores.sbsos
  rw [sbsos] at kept
  rw [RawBlockBuilder.content, stores.attached, if_neg Bool.false_ne_true, sbsos, data]
  simp only [if_neg kept]
  rw [List.append_assoc, List.append_assoc, List.drop_left' (encodeBigEndian_length _ _), Block.content]

/-- A moved builder leaves the last segment open. -/
theorem content_moved (stores : b.Stores r) (nonempty : b.current ≠ none) :
    r.moved.content = b.finish.openContent := by
  obtain ⟨seg, current⟩ := Option.ne_none_iff_exists'.mp nonempty
  have segments : b.finish.segments = b.finished ++ [seg] := by
    rw [finish, current, Option.toList_some]
  have data : r.storage = encodeBigEndian btlSize 0 ++ b.finish.openData := by
    rw [stores.storage, current, Block.openData, segments, List.dropLast_concat, List.getLast?_concat,
      List.append_assoc]
  have ended : b.finish.data = b.finish.openData ++ encodeBigEndian bsRil 0 := by
    rw [Block.data, Block.openData, segments, List.dropLast_concat, List.getLast?_concat,
      List.flatMap_append, List.flatMap_singleton, BlockSegment.bytes, ← List.append_assoc]
    rfl
  have kept := offset_kept stores (encodeBigEndian btlSize 0 ++ b.finish.openData)
    (by rw [ended]; simp only [List.length_append, encodeBigEndian_length]; omega)
  have sbsos : r.sbsos = b.finish.sbsos := stores.sbsos
  rw [sbsos] at kept
  rw [RawBlockBuilder.content]
  simp only [RawBlockBuilder.moved, if_true, List.append_nil, sbsos, data, if_neg kept]
  rw [List.append_assoc, List.append_assoc, List.drop_left' (encodeBigEndian_length _ _),
    Block.openContent]

/-- Whole runs of the builder on bytes do what those of the builder on segments do. -/
theorem addAll_stores (opt : Options) {es : List KvEntry} (stores : b.Stores r)
    (short : ∀ e ∈ es, e.userKey.size < 2 ^ 16)
    (shortLast : ∀ seg, b.current = some seg → seg.userKey.size < 2 ^ 16) :
    Option.Rel Stores (b.addAll opt es) (r.addAll opt es) := by
  induction es generalizing b r with
  | nil => exact .some stores
  | cons e es ih =>
    have first := short e List.mem_cons_self
    have step := add_stores opt stores first shortLast
    rw [addAll, RawBlockBuilder.addAll]
    cases added : b.add opt e with
    | none =>
      rw [added] at step
      cases stored : r.add opt e with
      | none => exact .none
      | some r' =>
        rw [stored] at step
        cases step
    | some b' =>
      rw [added] at step
      cases stored : r.add opt e with
      | none =>
        rw [stored] at step
        cases step
      | some r' =>
        rw [stored] at step
        cases step with
        | some step =>
          apply ih step fun x mem => short x (List.mem_cons_of_mem _ mem)
          intro seg current
          obtain ⟨last, now, key⟩ := add_current added
          rw [now] at current
          rw [← Option.some.inj current, key]
          exact first

end BlockBuilder

end FrenzyKV
