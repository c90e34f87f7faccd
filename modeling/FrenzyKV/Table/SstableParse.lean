import FrenzyKV.Persistent.BlockLimits
import FrenzyKV.Persistent.BlockRoundTrip
import FrenzyKV.Table.SstableFormat

/-! The readers of a table's file (`table/sstable.cc`). A failed assertion, an exception and a
block that fails its check give no result. -/

namespace FrenzyKV

open Bytes

/-- An opened table: the members of `sstable`. -/
structure RawSstable where
  deps : TableDeps
  compressor : CompressorPolicy
  file : ByteString
  filterRep : ByteString
  firstUk : ByteString
  lastUk : ByteString
  blockOffsets : List (Nat × Nat)

namespace MetaBlock

/-- The members that `parse_meta_data` takes from the meta block. -/
structure Fields where
  filterRep : ByteString
  firstUk : ByteString
  lastUk : ByteString

/-- The value of the first item of a segment; a tombstone throws. -/
def frontValue (seg : RawSegment) : Option ByteString :=
  seg.items.head?.bind fun item =>
    match EntryBuffer.userValue.run (item.drop seqBytesSize) with
    | .ok (uv, _) => uv
    | .error _ => none

def readSegment (fields : Fields) (seg : RawSegment) : Option Fields :=
  if seg.publicPrefix = bloomFilterKey.serialize then
    (frontValue seg).map fun uv => { fields with filterRep := uv }
  else if seg.publicPrefix = lastUkKey.serialize then
    (frontValue seg).map fun uv => { fields with lastUk := uv }
  else if seg.publicPrefix = firstUkKey.serialize then
    (frontValue seg).map fun uv => { fields with firstUk := uv }
  else some fields

end MetaBlock

namespace RawSstable

/-- The meta block offset of the footer, behind which stands the magic number. -/
def footerMbo (file : ByteString) : Option Nat :=
  if file.length < mboSize + mgnSize then none
  else
    (readBigEndianAt mboSize (file.length - (mboSize + mgnSize)) file).bind fun mbo =>
      (readBigEndianAt mgnSize (file.length - mgnSize) file).bind fun magicNum =>
        if magicNum = magicNumber then some mbo else none

/-- `generate_block_offsets_impl`, from an offset on. -/
def generateBlockOffsets (file : ByteString) (mbo offset : Nat) : Option (List (Nat × Nat)) :=
  if mbo ≤ offset then some []
  else
    (readBigEndianAt btlSize offset file).bind fun currentBtl =>
      if _zero : currentBtl = 0 then none
      else (generateBlockOffsets file mbo (offset + currentBtl)).map ((offset, currentBtl) :: ·)
termination_by mbo - offset

/-- The meta block of a file: its check, its only interval, and the members it fills. -/
def parseMetaBlock (crc32c : ByteString → UInt32) (storage : ByteString) : Option MetaBlock.Fields :=
  if BlockStorage.blockIntegrityCheck storage crc32c = some true then
    (RawBlock.parse storage).bind fun metaBlock =>
      match metaBlock.specialSegs with
      | [beg] =>
        let interval := RawBlock.segmentsInSingleInterval storage beg metaBlock.metaDataBeg
        if interval.2 then
          (interval.1.foldlM MetaBlock.readSegment ⟨[], [], []⟩).bind fun fields =>
            if fields.filterRep = [] ∨ fields.lastUk = [] ∨ fields.firstUk = [] then none
            else some fields
        else none
      | _ => none
  else none

/-- `sstable::make`: the constructor and `parse_meta_data`. -/
def make (d : TableDeps) (file : ByteString) : Option RawSstable :=
  (getCompressor d.zstd d.opt d.opt.compressorName).bind fun compressor =>
    (footerMbo file).bind fun mbo =>
      (slice mbo (file.length - (mboSize + mgnSize)) file).bind fun storage =>
        (parseMetaBlock d.crc32c storage).bind fun fields =>
          (generateBlockOffsets file mbo 0).map fun blockOffsets => {
            deps := d
            compressor
            file
            filterRep := fields.filterRep
            firstUk := fields.firstUk
            lastUk := fields.lastUk
            blockOffsets }

/-- `sstable::parse_meta_data`: the members it fills, and the offsets of the data blocks. -/
def parseMetaData (crc32c : ByteString → UInt32) (file : ByteString) :
    Option (MetaBlock.Fields × List (Nat × Nat)) :=
  (footerMbo file).bind fun mbo =>
    (slice mbo (file.length - (mboSize + mgnSize)) file).bind fun storage =>
      (parseMetaBlock crc32c storage).bind fun fields =>
        (generateBlockOffsets file mbo 0).map fun blockOffsets => (fields, blockOffsets)

theorem make_eq (d : TableDeps) (file : ByteString) : make d file =
    (getCompressor d.zstd d.opt d.opt.compressorName).bind fun compressor =>
      (parseMetaData d.crc32c file).map fun p =>
        ⟨d, compressor, file, p.1.filterRep, p.1.firstUk, p.1.lastUk, p.2⟩ := by
  simp only [make, parseMetaData, Option.map_bind, Function.comp_def, Option.map_map]

/-- What `get_block` does with the bytes it has read. New buffers are taken as zeros; what is
read back does not depend on them. -/
def openBlock (d : TableDeps) (compressor : CompressorPolicy) (bs : ByteString) : Option RawBlock :=
  if BlockStorage.blockIntegrityCheck bs d.crc32c = some true then
    (BlockStorage.blockContentWasCompressed bs).bind fun compressed =>
      if compressed then
        (BlockStorage.approxBlockDecompressSize bs compressor).bind fun minimumBufferSz =>
          (BlockStorage.blockDecompressTo bs (List.replicate minimumBufferSz 0) compressor).bind
            RawBlock.parse
      else RawBlock.parse bs
  else none

variable (t : RawSstable)

/-- `sstable::get_block`; the ten extra bytes of its buffer are added in the type of lengths. -/
def getBlock (p : Nat × Nat) : Option RawBlock :=
  if maxBtl < p.2 + 10 then none
  else (slice p.1 (p.1 + p.2) t.file).bind (openBlock t.deps t.compressor)

/-- `get_entries_from_sstable`. -/
def getEntries : Option (List KvEntry) :=
  (t.blockOffsets.mapM fun p => (t.getBlock p).bind RawBlock.entries).map List.flatten

/-- `get_entries_from_sstable_at_once`: all blocks, then their entries, in front of one another
when it goes backwards. -/
def getEntriesAtOnce (backwards : Bool) : Option (List KvEntry) :=
  (t.blockOffsets.mapM t.getBlock).bind fun blocks =>
    (blocks.mapM RawBlock.entries).map fun entries =>
      if backwards then entries.flatten.reverse else entries.flatten

/-- The key behind serialized bytes: its length, itself, and its number. -/
def keyOf (bytes : ByteString) : Option SequencedKey :=
  (readBigEndian userKeyLengthBytesSize bytes).bind fun userKeyLen =>
    (slice userKeyLengthBytesSize (userKeyLengthBytesSize + userKeyLen) bytes).bind fun userKey =>
      (readBigEndianAt seqBytesSize (userKeyLengthBytesSize + userKeyLen) bytes).map fun seq =>
        ⟨seq, ⟨userKey⟩⟩

/-- `first_user_key_without_seq`, behind whose key eight zero bytes are appended. -/
def firstUserKeyWithoutSeq : Option SequencedKey := keyOf (t.firstUk ++ List.replicate 8 0)

/-- `last_user_key_without_seq`. -/
def lastUserKeyWithoutSeq : Option SequencedKey := keyOf (t.lastUk ++ List.replicate 8 0)

theorem keyOf_serialize {k : UserKey} (short : k.size < 2 ^ 16) :
    keyOf (k.serialize ++ List.replicate 8 0) = some ⟨0, k⟩ := by
  have zeros : List.replicate 8 (0 : UInt8) =
      encodeBigEndian seqBytesSize 0 ++ encodeBigEndian seqBytesSize 0 := rfl
  have width := encodeBigEndian_length userKeyLengthBytesSize k.size
  have length : k.bytes.length = k.size := rfl
  rw [keyOf, UserKey.serialize, List.append_assoc, readBigEndian_encode (by exact short),
    Option.bind_some, slice_of_eq rfl width.symm (by rw [width, length]), Option.bind_some,
    readBigEndianAt_of_eq (by rw [zeros, ← List.append_assoc])
      (by rw [List.length_append, width, length]) (by decide)]
  rfl

end RawSstable

/-- A stored block begins with its length. -/
theorem storeContent_front (opt : StorageOptions) (compressor : Option CompressorPolicy)
    (crc32c : ByteString → UInt32) (content : ByteString) :
    ∃ more, storeContent opt compressor crc32c content =
      encodeBigEndian btlSize (storeContent opt compressor crc32c content).length ++ more := by
  have sealed : ∃ wc stored, storeContent opt compressor crc32c content = sealBlock crc32c wc stored := by
    unfold storeContent
    split
    · exact ⟨_, _, rfl⟩
    · exact ⟨_, _, rfl⟩
  obtain ⟨wc, stored, eq⟩ := sealed
  rw [eq, BlockStorage.sealBlock_length, sealBlock, List.append_assoc]
  exact ⟨_, rfl⟩

/-- The bytes of a block whose length its first field can tell. -/
structure StoredBytes (part : ByteString) : Prop where
  front : ∃ more, part = encodeBigEndian btlSize part.length ++ more
  small : part.length ≤ maxBtl

theorem StoredBytes.pos {part : ByteString} (stored : StoredBytes part) : 0 < part.length := by
  obtain ⟨more, eq⟩ := stored.front
  have length := congrArg List.length eq
  rw [List.length_append, encodeBigEndian_length] at length
  change _ = 4 + _ at length
  omega

namespace TableDeps

/-- A block as the builder hands it to the file. -/
structure Written (d : TableDeps) (x : Block) : Prop where
  wf : x.Wf
  special : x.segments.head?.all (·.special) = true
  encodable : ∀ e ∈ x.entries, e.Encodable
  small : (d.image x).length ≤ maxBtl

/-- The data blocks that the reader takes: their special segments can be counted, the length of
the content and, with the ten bytes added to it, that of the stored block can be told. -/
structure BlockFits (d : TableDeps) (x : Block) : Prop where
  few : x.sbsos.length < 2 ^ 16
  total : btlSize + (x.content.length + (wcSize + crc32Size)) ≤ maxBtl
  stored : (d.image x).length + 10 ≤ maxBtl

instance (d : TableDeps) (x : Block) : Decidable (d.BlockFits x) :=
  decidable_of_iff (x.sbsos.length < 2 ^ 16 ∧
      btlSize + (x.content.length + (wcSize + crc32Size)) ≤ maxBtl ∧ (d.image x).length + 10 ≤ maxBtl)
    ⟨fun all => ⟨all.1, all.2.1, all.2.2⟩, fun fits => ⟨fits.few, fits.total, fits.stored⟩⟩

/-- The reader's codec undoes the builder's, where it is used. -/
def CodecInverts (d : TableDeps) (compressor : CompressorPolicy) : Prop :=
  d.opt.needCompress = true → compressor.Inverts (zstdCompressor d.zstd)

variable {d : TableDeps} {compressor : CompressorPolicy} {x : Block}

theorem CodecInverts.writers (inverts : d.CodecInverts compressor) :
    d.opt.needCompress = true →
      ∀ writer, getCompressor d.zstd d.opt "zstd" = some writer → compressor.Inverts writer := by
  intro need writer eq
  rw [getCompressor_zstd] at eq
  rw [← Option.some.inj eq]
  exact inverts need

theorem image_compressed (need : d.opt.needCompress = true) (x : Block) :
    d.image x = sealBlock d.crc32c 1 (d.zstd.compress x.content) := by
  rw [image, getCompressor_zstd]
  exact storeContent_compressed need _ _ _

theorem image_front (d : TableDeps) (x : Block) :
    ∃ more, d.image x = encodeBigEndian btlSize (d.image x).length ++ more :=
  storeContent_front _ _ _ _

theorem image_pos (d : TableDeps) (x : Block) : 0 < (d.image x).length := by
  obtain ⟨more, eq⟩ := d.image_front x
  rw [eq, List.length_append, encodeBigEndian_length]
  exact Nat.add_pos_left (by decide) _

theorem Written.segments_fit (written : d.Written x)
    (total : btlSize + (x.content.length + (wcSize + crc32Size)) ≤ maxBtl) :
    ∀ seg ∈ x.segments, seg.Fits :=
  Block.segments_fit written.wf.items written.encodable total

theorem Written.fits (written : d.Written x) (fits : d.BlockFits x) : x.Fits where
  segments := written.segments_fit fits.total
  first := by
    obtain ⟨first, later, segments⟩ := List.exists_cons_of_ne_nil written.wf.nonempty
    have special := written.special
    rw [segments] at special
    exact ⟨first, later, segments, special⟩
  few := fits.few
  total := fits.total

end TableDeps

namespace RawSstable

open BlockStorage TableDeps

variable {d : TableDeps} {compressor : CompressorPolicy} {x : Block}

variable {reader writer : CompressorPolicy} {content : ByteString}

/-- A content that was compressed is decompressed and parsed. -/
theorem openBlock_compressed (inverts : reader.Inverts writer)
    (small : (sealBlock d.crc32c 1 (writer.compressAppendTo content)).length ≤ maxBtl)
    (total : btlSize + (content.length + (wcSize + crc32Size)) ≤ maxBtl) :
    ∃ storage, openBlock d reader (sealBlock d.crc32c 1 (writer.compressAppendTo content)) =
      RawBlock.parse storage ∧ Holds storage content := by
  let n := reader.decompressedMinimumSize (writer.compressAppendTo content) + btlSize + crc32Size + wcSize
  have room : n ≤ (List.replicate n (0 : UInt8)).length := List.length_replicate.ge
  obtain ⟨storage, decompressed, holds⟩ := blockDecompressTo_holds inverts small total room
  refine ⟨storage, ?_, holds⟩
  rw [openBlock, if_pos (sealBlock_integrity small), blockContentWasCompressed,
    sealBlock_wcValue small (by decide), Option.bind_some, if_pos rfl, Option.bind_some, if_pos rfl,
    approxBlockDecompressSize_seal small, Option.bind_some]
  exact congrArg (·.bind RawBlock.parse) decompressed

variable {written : Option CompressorPolicy}

/-- The content of a stored block is opened. -/
theorem openBlock_stored (small : (storeContent d.opt written d.crc32c content).length ≤ maxBtl)
    (inverts : d.opt.needCompress = true → ∀ writer, written = some writer → reader.Inverts writer)
    (total : btlSize + (content.length + (wcSize + crc32Size)) ≤ maxBtl) :
    ∃ storage, openBlock d reader (storeContent d.opt written d.crc32c content) =
      RawBlock.parse storage ∧ Holds storage content := by
  cases how : written.isSome && d.opt.needCompress with
  | false =>
    rw [storeContent_plain how] at small ⊢
    refine ⟨sealBlock d.crc32c 0 content, ?_, sealBlock_holds small⟩
    rw [openBlock, if_pos (sealBlock_integrity small), blockContentWasCompressed,
      sealBlock_wcValue small (by decide)]
    rfl
  | true =>
    obtain ⟨present, need⟩ := Bool.and_eq_true_iff.mp how
    obtain ⟨writer, rfl⟩ := Option.isSome_iff_exists.mp present
    rw [storeContent_compressed need] at small ⊢
    exact openBlock_compressed (inverts need writer rfl) small total

/-- A content that is too long only shows when it is decompressed. -/
theorem openBlock_long (small : (storeContent d.opt written d.crc32c content).length ≤ maxBtl)
    (inverts : d.opt.needCompress = true → ∀ writer, written = some writer → reader.Inverts writer)
    (long : maxBtl < btlSize + (content.length + (wcSize + crc32Size))) :
    openBlock d reader (storeContent d.opt written d.crc32c content) = none := by
  cases how : written.isSome && d.opt.needCompress with
  | false =>
    rw [storeContent_plain how, sealBlock_length] at small
    omega
  | true =>
    obtain ⟨present, need⟩ := Bool.and_eq_true_iff.mp how
    obtain ⟨writer, rfl⟩ := Option.isSome_iff_exists.mp present
    rw [storeContent_compressed need] at small ⊢
    let n := reader.decompressedMinimumSize (writer.compressAppendTo content) + btlSize + crc32Size + wcSize
    have room : n ≤ (List.replicate n (0 : UInt8)).length := List.length_replicate.ge
    have refused := blockDecompressTo_long (inverts need writer rfl) small long room
    rw [openBlock, if_pos (sealBlock_integrity small), blockContentWasCompressed,
      sealBlock_wcValue small (by decide), Option.bind_some, if_pos rfl, Option.bind_some, if_pos rfl,
      approxBlockDecompressSize_seal small, Option.bind_some]
    exact congrArg (·.bind RawBlock.parse) refused

/-- A block stands in the file where its offset and its length say. -/
structure Stands (t : RawSstable) (p : Nat × Nat) (x : Block) : Prop where
  length : p.2 = (t.deps.image x).length
  bytes : slice p.1 (p.1 + p.2) t.file = some (t.deps.image x)

variable {t : RawSstable} {p : Nat × Nat}

theorem getBlock_of_fits (written : t.deps.Written x) (fits : t.deps.BlockFits x)
    (inverts : t.deps.CodecInverts t.compressor) (stands : t.Stands p x) :
    ∃ storage, t.getBlock p = some (x.parsed storage) ∧ Holds storage x.content := by
  obtain ⟨storage, opened, holds⟩ := openBlock_stored written.small inverts.writers fits.total
  have room : ¬ maxBtl < p.2 + 10 := by
    have := fits.stored
    have := stands.length
    omega
  refine ⟨storage, ?_, holds⟩
  rw [getBlock, if_neg room, stands.bytes, Option.bind_some, image, opened,
    Block.parse_of_holds (written.fits fits) holds]

/-- A block that does not fit is refused, or it passes for one that starts late and cannot be
walked to its end. -/
theorem getBlock_of_unfit (written : t.deps.Written x) (unfit : ¬ t.deps.BlockFits x)
    (inverts : t.deps.CodecInverts t.compressor) (stands : t.Stands p x) :
    t.getBlock p = none ∨ ∃ raw front seg back, t.getBlock p = some raw ∧ raw.entries = none ∧
      x.segments = front ++ seg :: back ∧ 2 ^ 16 ≤ front.length ∧
      raw.firstSegPublicPrefix = seg.userKey.serialize := by
  have length := stands.length
  by_cases room : maxBtl < p.2 + 10
  · exact .inl (if_pos room)
  · rw [getBlock, if_neg room, stands.bytes, Option.bind_some]
    by_cases total : btlSize + (x.content.length + (wcSize + crc32Size)) ≤ maxBtl
    · have many : 2 ^ 16 ≤ x.sbsos.length := by
        by_contra few
        exact unfit ⟨by omega, total, by omega⟩
      obtain ⟨storage, opened, holds⟩ := openBlock_stored written.small inverts.writers total
      rw [image, opened]
      exact Block.parse_of_overflow (written.segments_fit total) written.special many total holds
    · exact .inl (openBlock_long written.small inverts.writers (by omega))

theorem entries_iff (written : t.deps.Written x) (inverts : t.deps.CodecInverts t.compressor)
    (stands : t.Stands p x) {es : List KvEntry} :
    (t.getBlock p).bind RawBlock.entries = some es ↔ t.deps.BlockFits x ∧ es = x.entries := by
  by_cases fits : t.deps.BlockFits x
  · obtain ⟨storage, found, holds⟩ := getBlock_of_fits written fits inverts stands
    rw [found, Option.bind_some, Block.entries_of_holds (written.fits fits) holds]
    constructor
    · intro eq
      exact ⟨fits, (Option.some.inj eq).symm⟩
    · intro same
      rw [same.2]
  · apply iff_of_false _ fun both => fits both.1
    cases getBlock_of_unfit written fits inverts stands with
    | inl refused =>
      rw [refused]
      exact fun eq => by cases eq
    | inr late =>
      obtain ⟨raw, _, _, _, found, stuck, _⟩ := late
      rw [found, Option.bind_some, stuck]
      exact fun eq => by cases eq

/-- Where blocks stand that are stored one behind another, and how long they are. -/
def offsetsOf (d : TableDeps) (offset : Nat) : List Block → List (Nat × Nat)
  | [] => []
  | x :: xs => (offset, (d.image x).length) :: offsetsOf d (offset + (d.image x).length) xs

/-- The same for any stored bytes. -/
def partOffsets (offset : Nat) : List ByteString → List (Nat × Nat)
  | [] => []
  | part :: parts => (offset, part.length) :: partOffsets (offset + part.length) parts

theorem offsetsOf_eq (d : TableDeps) (offset : Nat) (blocks : List Block) :
    offsetsOf d offset blocks = partOffsets offset (blocks.map d.image) := by
  induction blocks generalizing offset with
  | nil => rfl
  | cons x xs ih => rw [offsetsOf, List.map_cons, partOffsets, ih]

variable {front rest file : ByteString} {parts : List ByteString} {blocks : List Block} {mbo : Nat}

/-- A block that stands in front of the meta block is found, and the walk goes on behind it. -/
theorem generateBlockOffsets_part {part : ByteString} (stored : StoredBytes part)
    (layout : file = front ++ (part ++ rest)) (before : front.length < mbo) :
    generateBlockOffsets file mbo front.length =
      (generateBlockOffsets file mbo (front ++ part).length).map ((front.length, part.length) :: ·) := by
  obtain ⟨more, eq⟩ := stored.front
  have smallBtl : part.length < 256 ^ btlSize := by
    have small := stored.small
    change _ < 2 ^ 32
    rw [maxBtl] at small
    omega
  have split : file = front ++ (encodeBigEndian btlSize part.length ++ (more ++ rest)) := by
    rw [layout, ← List.append_assoc _ more, ← eq]
  rw [generateBlockOffsets, if_neg before.not_ge, readBigEndianAt_of_eq split rfl smallBtl,
    Option.bind_some, dif_neg stored.pos.ne', List.length_append]

/-- The chain of lengths finds the blocks up to the meta block offset. -/
theorem generateBlockOffsets_parts (stored : ∀ part ∈ parts, StoredBytes part)
    (layout : file = front ++ (parts.flatten ++ rest))
    (last : mbo = front.length + parts.flatten.length) :
    generateBlockOffsets file mbo front.length = some (partOffsets front.length parts) := by
  induction parts generalizing front with
  | nil =>
    rw [generateBlockOffsets, if_pos (by rw [last]; exact le_rfl)]
    rfl
  | cons part parts ih =>
    have here := stored part List.mem_cons_self
    have positive := here.pos
    rw [List.flatten_cons, List.append_assoc] at layout
    rw [List.flatten_cons, List.length_append] at last
    have behind : file = (front ++ part) ++ (parts.flatten ++ rest) := by
      rw [layout, List.append_assoc]
    have later := ih (fun y mem => stored y (List.mem_cons_of_mem _ mem)) behind
      (by rw [last, List.length_append, Nat.add_assoc])
    rw [generateBlockOffsets_part here layout (by omega), later, List.length_append]
    rfl

/-- Blocks that follow one another in the file stand where their lengths put them. -/
theorem stands_of_layout (layout : t.file = front ++ (blocks.flatMap t.deps.image ++ rest)) :
    List.Forall₂ t.Stands (offsetsOf t.deps front.length blocks) blocks := by
  induction blocks generalizing front with
  | nil => exact .nil
  | cons x xs ih =>
    have there : slice front.length (front.length + (t.deps.image x).length) t.file =
        some (t.deps.image x) := by
      apply slice_of_eq _ rfl rfl
      · exact xs.flatMap t.deps.image ++ rest
      · rw [layout, List.flatMap_cons, List.append_assoc]
    have behind : t.file = (front ++ t.deps.image x) ++ (xs.flatMap t.deps.image ++ rest) := by
      rw [layout, List.flatMap_cons, List.append_assoc, List.append_assoc]
    have later := ih behind
    rw [List.length_append] at later
    exact .cons ⟨rfl, there⟩ later

/-- Blocks can be read exactly when they fit, and yield their entries. -/
theorem mapM_entries_iff {offsets : List (Nat × Nat)} (stands : List.Forall₂ t.Stands offsets blocks)
    (written : ∀ x ∈ blocks, t.deps.Written x) (inverts : t.deps.CodecInverts t.compressor)
    {ess : List (List KvEntry)} :
    offsets.mapM (fun p => (t.getBlock p).bind RawBlock.entries) = some ess ↔
      (∀ x ∈ blocks, t.deps.BlockFits x) ∧ ess = blocks.map Block.entries := by
  induction stands generalizing ess with
  | nil =>
    constructor
    · intro eq
      exact ⟨fun x mem => (List.not_mem_nil mem).elim, (Option.some.inj eq).symm⟩
    · intro both
      rw [both.2]
      rfl
  | @cons p x offsets xs here there ih =>
    have first : ∀ es, (t.getBlock p).bind RawBlock.entries = some es ↔
        t.deps.BlockFits x ∧ es = x.entries :=
      fun es => entries_iff (written x List.mem_cons_self) inverts here
    have later : ∀ ess', offsets.mapM (fun p => (t.getBlock p).bind RawBlock.entries) = some ess' ↔
        (∀ y ∈ xs, t.deps.BlockFits y) ∧ ess' = xs.map Block.entries :=
      fun ess' => ih fun y mem => written y (List.mem_cons_of_mem _ mem)
    rw [List.mapM_cons]
    constructor
    · intro eq
      obtain ⟨es, read, eq⟩ := Option.bind_eq_some_iff.mp eq
      obtain ⟨ess', readLater, eq⟩ := Option.bind_eq_some_iff.mp eq
      obtain ⟨fitsFirst, rfl⟩ := (first es).mp read
      obtain ⟨fitsLater, rfl⟩ := (later ess').mp readLater
      refine ⟨fun y mem => ?_, (Option.some.inj eq).symm⟩
      cases List.mem_cons.mp mem with
      | inl same => exact same ▸ fitsFirst
      | inr mem => exact fitsLater y mem
    · intro both
      rw [(first x.entries).mpr ⟨both.1 x List.mem_cons_self, rfl⟩,
        (later (xs.map Block.entries)).mpr
          ⟨fun y mem => both.1 y (List.mem_cons_of_mem _ mem), rfl⟩, both.2]
      rfl

end RawSstable

namespace MetaBlock

variable {opt : Options} {metaBuilder : BlockBuilder} {lastUk firstUk filterRep : ByteString}

/-- The counter that picks the special segments stands at three and at four behind the first one. -/
theorem finish_segments
    (added : BlockBuilder.fresh.addAll opt (entries lastUk firstUk filterRep) = some metaBuilder) :
    metaBuilder.finish.segments = [⟨lastUkKey, [(0, some lastUk)], true⟩,
      ⟨firstUkKey, [(0, some firstUk)], 3 % opt.maxBlockSegmentsNumber = 0⟩,
      ⟨bloomFilterKey, [(0, some filterRep)], 4 % opt.maxBlockSegmentsNumber = 0⟩] := by
  have lastFirst : ¬ firstUkKey = lastUkKey := by decide
  have firstBloom : ¬ bloomFilterKey = firstUkKey := by decide
  have lastLess : lastUkKey < firstUkKey := by decide
  have firstLess : firstUkKey < bloomFilterKey := by decide
  simp only [entries, BlockBuilder.addAll, BlockBuilder.fresh, BlockBuilder.add, Option.bind_some,
    KvEntry.userKey, KvEntry.seq, lastFirst, firstBloom, lastLess, firstLess, if_true, if_false,
    Nat.zero_add, Nat.reduceAdd] at added
  rw [← Option.some.inj added]
  rfl

end MetaBlock

end FrenzyKV
