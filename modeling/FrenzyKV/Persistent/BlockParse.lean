import FrenzyKV.Persistent.BlockFormat

/-! The readers of a block's bytes (`persistent/block.cc`). A failed assertion, an exception and
a read outside the storage give no result. -/

namespace FrenzyKV

open Bytes

namespace BlockStorage

variable (storage : ByteString)

def crc32Beg : Option Nat :=
  (readBigEndian btlSize storage).bind fun btl =>
    if crc32Size ≤ btl then some (btl - crc32Size) else none

def wcBeg : Option Nat :=
  (crc32Beg storage).bind fun beg => if wcSize ≤ beg then some (beg - wcSize) else none

def wcValue : Option Nat := (wcBeg storage).bind fun beg => readBigEndianAt wcSize beg storage

def undecompressedBlockContent : Option ByteString :=
  (wcBeg storage).bind fun wcBeg => slice btlSize wcBeg storage

def embededCrc32Value : Option Nat :=
  (crc32Beg storage).bind fun beg => readBigEndianAt crc32Size beg storage

def blockIntegrityCheck (crc32c : ByteString → UInt32) : Option Bool :=
  (undecompressedBlockContent storage).bind fun bc =>
    (embededCrc32Value storage).map fun ecrc32 => (crc32c bc).toNat = ecrc32

def blockContentWasCompressed : Option Bool :=
  (wcValue storage).bind fun wc => if wc = 1 then some true else if wc = 0 then some false else none

/-- `block_decompress`, which does not check that the new length fits. -/
def blockDecompress (compressor : CompressorPolicy) : Option ByteString :=
  (wcValue storage).bind fun wc =>
    if wc = 1 then
      (undecompressedBlockContent storage).bind fun compressedPart =>
        (compressor.decompressAppendTo compressedPart).map fun content =>
          encodeBigEndian btlSize (btlSize + (content.length + (wcSize + crc32Size))) ++ content ++
            List.replicate (wcSize + crc32Size) 0
    else none

def approxBlockDecompressSize (compressor : CompressorPolicy) : Option Nat :=
  (undecompressedBlockContent storage).map fun compressedPart =>
    compressor.decompressedMinimumSize compressedPart + btlSize + crc32Size + wcSize

/-- `block_decompress_to`. Behind the content stays what was in the destination; with an error
of the compressor the new length would leave the destination. -/
def blockDecompressTo (dst : ByteString) (compressor : CompressorPolicy) : Option ByteString :=
  if dst.length < btlSize then none
  else
    (undecompressedBlockContent storage).bind fun compressedPart =>
      (compressor.decompress (dst.length - btlSize) compressedPart).bind fun content =>
        let newBtl := btlSize + (content.length + (wcSize + crc32Size))
        if newBtl ≤ maxBtl ∧ newBtl ≤ dst.length then
          some (encodeBigEndian btlSize newBtl ++ content ++
            (dst.drop (btlSize + content.length)).take (wcSize + crc32Size))
        else none

/-- The length must not be zero. -/
def nsbsBeg : Option Nat :=
  (readBigEndian btlSize storage).bind fun btl =>
    if nsbsSize + wcSize + crc32Size ≤ btl then some (btl - (nsbsSize + wcSize + crc32Size)) else none

def nsbsValue : Option Nat := (nsbsBeg storage).bind fun beg => readBigEndianAt nsbsSize beg storage

def metaDataBeg : Option Nat :=
  (nsbsBeg storage).bind fun beg => (nsbsValue storage).bind fun nsbs =>
    if nsbs * sbsoSize ≤ beg then some (beg - nsbs * sbsoSize) else none

end BlockStorage

/-- A block on its storage; pointers are positions. -/
structure RawBlock where
  storage : ByteString
  specialSegs : List Nat
  metaDataBeg : Nat
  firstSegPublicPrefix : ByteString

namespace RawBlock

/-- The loop of `parse_meta_data` over the special segment offsets. -/
def readSbsos : Nat → ByteString → Option (List Nat)
  | 0, _ => some []
  | n + 1, mem =>
    (readBigEndian sbsoSize mem).bind fun sbso => (readSbsos n (mem.drop sbsoSize)).map (sbso :: ·)

/-- The segments that stand one behind another in the first `room` bytes, and whether the walk
ends without a failure. A segment that is cut off ends it; `tolerant` says that this is no failure. -/
def walkSegments (tolerant : Bool) (mem : ByteString) (room : Nat) : List RawSegment × Bool :=
  if room = 0 then ([], true)
  else match _parsed : RawSegment.parse mem room with
    | none => ([], false)
    | some (.incomplete _) => ([], tolerant)
    | some (.success seg) =>
      let later := walkSegments tolerant (mem.drop seg.size) (room - seg.size)
      (seg :: later.1, later.2)
termination_by room
decreasing_by
  have := RawSegment.size_pos_of_parse _parsed
  omega

def segmentsInSingleInterval (storage : ByteString) (beg sentinel : Nat) : List RawSegment × Bool :=
  walkSegments true (storage.drop beg) (sentinel - beg)

/-- The constructor of `block`. -/
def parse (storage : ByteString) : Option RawBlock :=
  (BlockStorage.metaDataBeg storage).bind fun metaDataBeg =>
    (BlockStorage.nsbsValue storage).bind fun nsbs =>
      (readSbsos nsbs (storage.drop metaDataBeg)).bind fun specialSegs =>
        match specialSegs with
        | [] => none
        | beg :: later =>
          let interval := segmentsInSingleInterval storage beg (later.headD metaDataBeg)
          interval.1.head?.map fun seg => ⟨storage, specialSegs, metaDataBeg, seg.publicPrefix⟩

variable (b : RawBlock)

/-- `block::segments`, which starts at the first special segment. -/
def segments : Option (List RawSegment) :=
  b.specialSegs.head?.bind fun beg =>
    let walk := walkSegments false (b.storage.drop beg) (b.metaDataBeg - beg)
    if walk.2 then some walk.1 else none

/-- `block::entries`. -/
def entries : Option (List KvEntry) :=
  b.segments.bind fun segs => (segs.mapM RawSegment.entries).map List.flatten

/-- The first segment of an interval with the key, unless the walk fails before it. -/
def findFit (userPrefix : ByteString) (beg sentinel : Nat) : Option (Option RawSegment) :=
  let interval := segmentsInSingleInterval b.storage beg sentinel
  match interval.1.find? fun seg => RawSegment.fitPublicPrefix userPrefix seg.publicPrefix with
  | some seg => some (some seg)
  | none => if interval.2 then some none else none

/-- The constructor of `block_segment` on all that is left of the storage. -/
def segmentAt (pos : Nat) : Option SegmentResult :=
  RawSegment.parse (b.storage.drop pos) (b.storage.length - pos)

/-- The loop of `block::get` over adjacent special segments, and its last interval. -/
def getFrom (userPrefix : ByteString) : List Nat → Option (Option RawSegment)
  | [] => none
  | [lastSegp] => (b.segmentAt lastSegp).bind fun lastSeg =>
      if RawSegment.largerEqualThanPublicPrefix userPrefix lastSeg.publicPrefix then
        b.findFit userPrefix lastSegp b.metaDataBeg
      else some none
  | seg1p :: seg2p :: rest =>
    (b.segmentAt seg1p).bind fun seg1 => (b.segmentAt seg2p).bind fun seg2 =>
      if RawSegment.largerEqualThanPublicPrefix userPrefix seg1.publicPrefix &&
          RawSegment.lessThanPublicPrefix userPrefix seg2.publicPrefix then
        (b.findFit userPrefix seg1p seg2p).bind fun found =>
          match found with
          | some seg => some (some seg)
          | none => getFrom userPrefix (seg2p :: rest)
      else getFrom userPrefix (seg2p :: rest)

/-- `larger_equal_than_this_first_segment_public_prefix`. -/
def largerEqualThanFirst (userPrefix : ByteString) : Bool :=
  let compRet := memcmpComparator userPrefix b.firstSegPublicPrefix
  compRet = .eq || compRet = .gt

/-- `less_than_this_first_segment_public_prefix`. -/
def lessThanFirst (userPrefix : ByteString) : Bool :=
  memcmpComparator userPrefix b.firstSegPublicPrefix = .lt

/-- `block::get`; the outer option is a failure. -/
def get (userPrefix : ByteString) : Option (Option RawSegment) :=
  if b.largerEqualThanFirst userPrefix then b.getFrom userPrefix b.specialSegs else some none

/-- The walk finds whole segments, and goes on behind them. -/
theorem walkSegments_append (tolerant : Bool) {segs : List BlockSegment}
    (fits : ∀ seg ∈ segs, seg.Fits) (rest : ByteString) (room : Nat) :
    walkSegments tolerant (segs.flatMap BlockSegment.bytes ++ rest)
        ((segs.flatMap BlockSegment.bytes).length + room) =
      (segs.map BlockSegment.raw ++ (walkSegments tolerant rest room).1,
        (walkSegments tolerant rest room).2) := by
  induction segs with
  | nil => rw [List.flatMap_nil, List.nil_append, List.length_nil, Nat.zero_add, List.map_nil, List.nil_append]
  | cons seg segs ih =>
    have later := ih fun x mem => fits x (List.mem_cons_of_mem _ mem)
    have length := BlockSegment.bytes_length seg
    rw [bsRil] at length
    have whole : ((seg :: segs).flatMap BlockSegment.bytes).length =
        seg.bytes.length + (segs.flatMap BlockSegment.bytes).length := by
      rw [List.flatMap_cons, List.length_append]
    have parsed := BlockSegment.parse_bytes (fits seg List.mem_cons_self)
      (segs.flatMap BlockSegment.bytes ++ rest)
      (show seg.bytes.length ≤ ((seg :: segs).flatMap BlockSegment.bytes).length + room by omega)
    rw [← List.append_assoc, ← List.flatMap_cons] at parsed
    have size : seg.raw.size = seg.bytes.length := rfl
    have behind : ((seg :: segs).flatMap BlockSegment.bytes ++ rest).drop seg.bytes.length =
        segs.flatMap BlockSegment.bytes ++ rest := by
      rw [List.flatMap_cons, List.append_assoc, List.drop_left]
    have left : ((seg :: segs).flatMap BlockSegment.bytes).length + room - seg.bytes.length =
        (segs.flatMap BlockSegment.bytes).length + room := by omega
    rw [walkSegments, if_neg (by omega)]
    split
    · rename_i missing
      rw [parsed] at missing
      cases missing
    · rename_i cut
      rw [parsed] at cut
      cases cut
    · rename_i found
      rw [parsed] at found
      cases found
      simp only [size, behind, left, later, List.map_cons, List.cons_append]

/-- The walk over whole segments finds them all, whatever stands behind them. -/
theorem walkSegments_bytes (tolerant : Bool) {segs : List BlockSegment}
    (fits : ∀ seg ∈ segs, seg.Fits) (rest : ByteString) :
    walkSegments tolerant (segs.flatMap BlockSegment.bytes ++ rest)
      (segs.flatMap BlockSegment.bytes).length = (segs.map BlockSegment.raw, true) := by
  have walk := walkSegments_append tolerant fits rest 0
  have done : walkSegments tolerant rest 0 = ([], true) := by rw [walkSegments, if_pos rfl]
  rw [done, Nat.add_zero, List.append_nil] at walk
  exact walk

/-- The first segment of an interval that has room for it. -/
theorem head_segmentsInSingleInterval {storage rest : ByteString} {beg sentinel : Nat}
    {seg : BlockSegment} (at_beg : storage.drop beg = seg.bytes ++ rest) (fits : seg.Fits)
    (enough : seg.bytes.length ≤ sentinel - beg) :
    (segmentsInSingleInterval storage beg sentinel).1.head? = some seg.raw := by
  have parsed := BlockSegment.parse_bytes fits rest enough
  have length := BlockSegment.bytes_length seg
  rw [bsRil] at length
  rw [segmentsInSingleInterval, at_beg, walkSegments, if_neg (by omega)]
  split
  · rename_i missing
    rw [parsed] at missing
    cases missing
  · rename_i cut
    rw [parsed] at cut
    cases cut
  · rename_i found
    rw [parsed] at found
    cases found
    rfl

theorem length_flatMap_sbso (sbsos : List Nat) :
    (sbsos.flatMap (encodeBigEndian sbsoSize)).length = sbsos.length * sbsoSize := by
  rw [List.length_flatMap]
  simp only [encodeBigEndian_length, List.map_const', List.sum_replicate_nat]

theorem readSbsos_encode {sbsos : List Nat} (small : ∀ sbso ∈ sbsos, sbso < 2 ^ 32) (rest : ByteString) :
    readSbsos sbsos.length (sbsos.flatMap (encodeBigEndian sbsoSize) ++ rest) = some sbsos := by
  induction sbsos with
  | nil => rfl
  | cons sbso sbsos ih =>
    have first : sbso < 256 ^ sbsoSize := small sbso List.mem_cons_self
    rw [List.length_cons, readSbsos, List.flatMap_cons, List.append_assoc, readBigEndian_encode first,
      Option.bind_some, List.drop_left' (encodeBigEndian_length _ _),
      ih fun x mem => small x (List.mem_cons_of_mem _ mem), Option.map_some]

end RawBlock

namespace BlockStorage

/-- Stored bytes behind their length and before the two last fields, in a block that is not too
long. -/
structure Holds (storage stored : ByteString) : Prop where
  layout : ∃ tail, tail.length = wcSize + crc32Size ∧ storage =
    encodeBigEndian btlSize (btlSize + (stored.length + (wcSize + crc32Size))) ++ (stored ++ tail)
  small : btlSize + (stored.length + (wcSize + crc32Size)) ≤ maxBtl

variable {storage stored : ByteString} {crc32c : ByteString → UInt32} {wc : Nat}

theorem Holds.length (holds : Holds storage stored) :
    storage.length = btlSize + (stored.length + (wcSize + crc32Size)) := by
  obtain ⟨tail, width, eq⟩ := holds.layout
  rw [eq, List.length_append, List.length_append, encodeBigEndian_length, width]

theorem Holds.btl (holds : Holds storage stored) :
    readBigEndian btlSize storage = some storage.length := by
  have length := holds.length
  obtain ⟨tail, width, eq⟩ := holds.layout
  have small := holds.small
  rw [length, eq]
  apply readBigEndian_encode
  change _ < 2 ^ 32
  rw [maxBtl] at small
  omega

theorem Holds.crc32Beg (holds : Holds storage stored) :
    crc32Beg storage = some (btlSize + stored.length + wcSize) := by
  have length := holds.length
  rw [BlockStorage.crc32Beg, holds.btl, Option.bind_some, if_pos (by omega)]
  exact congrArg some (by omega)

theorem Holds.wcBeg (holds : Holds storage stored) :
    wcBeg storage = some (btlSize + stored.length) := by
  rw [BlockStorage.wcBeg, holds.crc32Beg, Option.bind_some, if_pos (by omega), Nat.add_sub_cancel]

theorem Holds.content (holds : Holds storage stored) :
    undecompressedBlockContent storage = some stored := by
  obtain ⟨tail, _, eq⟩ := holds.layout
  rw [undecompressedBlockContent, holds.wcBeg, Option.bind_some]
  have width := encodeBigEndian_length btlSize (btlSize + (stored.length + (wcSize + crc32Size)))
  exact slice_of_eq eq width.symm (by rw [width])

theorem Holds.nsbsBeg {front : ByteString} {n : Nat}
    (holds : Holds storage (front ++ encodeBigEndian nsbsSize n)) :
    nsbsBeg storage = some (btlSize + front.length) := by
  have length := holds.length
  rw [List.length_append, encodeBigEndian_length] at length
  rw [BlockStorage.nsbsBeg, holds.btl, Option.bind_some, if_pos (by omega)]
  exact congrArg some (by omega)

theorem Holds.nsbsValue {front : ByteString} {n : Nat}
    (holds : Holds storage (front ++ encodeBigEndian nsbsSize n)) (few : n < 2 ^ 16) :
    nsbsValue storage = some n := by
  obtain ⟨tail, _, eq⟩ := holds.layout
  rw [BlockStorage.nsbsValue, holds.nsbsBeg, Option.bind_some]
  rw [List.append_assoc, ← List.append_assoc] at eq
  exact readBigEndianAt_of_eq eq (by rw [List.length_append, encodeBigEndian_length]) few

section

variable {front : ByteString} {sbsos : List Nat}

theorem Holds.metaDataBeg (few : sbsos.length < 2 ^ 16)
    (holds : Holds storage (front ++ sbsos.flatMap (encodeBigEndian sbsoSize) ++
      encodeBigEndian nsbsSize sbsos.length)) :
    metaDataBeg storage = some (btlSize + front.length) := by
  have bytes := RawBlock.length_flatMap_sbso sbsos
  rw [BlockStorage.metaDataBeg, holds.nsbsBeg, Option.bind_some, holds.nsbsValue few, Option.bind_some,
    List.length_append, bytes, if_pos (by omega)]
  exact congrArg some (by omega)

theorem Holds.readSbsos (small : ∀ sbso ∈ sbsos, sbso < 2 ^ 32)
    (holds : Holds storage (front ++ sbsos.flatMap (encodeBigEndian sbsoSize) ++
      encodeBigEndian nsbsSize sbsos.length)) :
    RawBlock.readSbsos sbsos.length (storage.drop (btlSize + front.length)) = some sbsos := by
  obtain ⟨tail, _, layout⟩ := holds.layout
  rw [← List.drop_drop, layout, List.drop_left' (encodeBigEndian_length _ _), List.append_assoc,
    List.append_assoc, List.drop_left]
  exact RawBlock.readSbsos_encode small _

/-- The constructor, once the first interval is known to start with a segment. -/
theorem Holds.parse {pos : Nat} {later : List Nat} {seg : RawSegment}
    (few : (pos :: later).length < 2 ^ 16) (small : ∀ sbso ∈ pos :: later, sbso < 2 ^ 32)
    (holds : Holds storage (front ++ (pos :: later).flatMap (encodeBigEndian sbsoSize) ++
      encodeBigEndian nsbsSize (pos :: later).length))
    (head : (RawBlock.segmentsInSingleInterval storage pos
      (later.headD (btlSize + front.length))).1.head? = some seg) :
    RawBlock.parse storage =
      some ⟨storage, pos :: later, btlSize + front.length, seg.publicPrefix⟩ := by
  rw [RawBlock.parse, holds.metaDataBeg few, Option.bind_some, holds.nsbsValue few, Option.bind_some,
    holds.readSbsos small, Option.bind_some]
  dsimp only
  rw [head, Option.map_some]

/-- A count of zero special segments is refused. -/
theorem Holds.parse_zero (holds : Holds storage (front ++ encodeBigEndian nsbsSize 0)) :
    RawBlock.parse storage = none := by
  have none_kept : Holds storage (front ++ ([] : List Nat).flatMap (encodeBigEndian sbsoSize) ++
      encodeBigEndian nsbsSize ([] : List Nat).length) := by
    rw [List.flatMap_nil, List.append_nil]
    exact holds
  have few : ([] : List Nat).length < 2 ^ 16 := by decide
  rw [RawBlock.parse, none_kept.metaDataBeg few, Option.bind_some, none_kept.nsbsValue few]
  rfl

end

theorem sealBlock_length (crc32c : ByteString → UInt32) (wc : Nat) (stored : ByteString) :
    (sealBlock crc32c wc stored).length = btlSize + (stored.length + (wcSize + crc32Size)) := by
  simp only [sealBlock, List.length_append, encodeBigEndian_length, Nat.add_assoc]

theorem sealBlock_holds (small : (sealBlock crc32c wc stored).length ≤ maxBtl) :
    Holds (sealBlock crc32c wc stored) stored where
  layout := ⟨encodeBigEndian wcSize wc ++ encodeBigEndian crc32Size (crc32c stored).toNat,
    by rw [List.length_append, encodeBigEndian_length, encodeBigEndian_length],
    by rw [sealBlock, List.append_assoc]⟩
  small := sealBlock_length crc32c wc stored ▸ small

theorem sealBlock_wcValue (small : (sealBlock crc32c wc stored).length ≤ maxBtl) (byte : wc < 256) :
    wcValue (sealBlock crc32c wc stored) = some wc := by
  have holds := sealBlock_holds small
  rw [wcValue, holds.wcBeg, Option.bind_some]
  apply readBigEndianAt_of_eq
  · rw [sealBlock]
  · rw [List.length_append, encodeBigEndian_length]
  · exact byte

/-- What is written passes the integrity check. -/
theorem sealBlock_integrity (small : (sealBlock crc32c wc stored).length ≤ maxBtl) :
    blockIntegrityCheck (sealBlock crc32c wc stored) crc32c = some true := by
  have holds := sealBlock_holds small
  have embeded : embededCrc32Value (sealBlock crc32c wc stored) = some (crc32c stored).toNat := by
    have layout : sealBlock crc32c wc stored =
        encodeBigEndian btlSize (btlSize + (stored.length + (wcSize + crc32Size))) ++ stored ++
          encodeBigEndian wcSize wc ++ (encodeBigEndian crc32Size (crc32c stored).toNat ++ []) := by
      rw [sealBlock, List.append_nil, ← List.append_assoc]
    rw [embededCrc32Value, holds.crc32Beg, Option.bind_some]
    apply readBigEndianAt_of_eq layout
    · simp only [List.length_append, encodeBigEndian_length]
    · exact (crc32c stored).toNat_lt
  rw [blockIntegrityCheck, holds.content, Option.bind_some, embeded, Option.map_some,
    decide_eq_true rfl]

variable {reader writer : CompressorPolicy} {content : ByteString}

theorem blockDecompress_holds (inverts : reader.Inverts writer)
    (small : (sealBlock crc32c 1 (writer.compressAppendTo content)).length ≤ maxBtl)
    (opened : btlSize + (content.length + (wcSize + crc32Size)) ≤ maxBtl) :
    ∃ storage, blockDecompress (sealBlock crc32c 1 (writer.compressAppendTo content)) reader =
      some storage ∧ Holds storage content := by
  refine ⟨_, ?_, ⟨⟨List.replicate (wcSize + crc32Size) 0, List.length_replicate, rfl⟩, opened⟩⟩
  rw [blockDecompress, sealBlock_wcValue small (by decide), Option.bind_some, if_pos rfl,
    (sealBlock_holds small).content, Option.bind_some, inverts.append, Option.map_some,
    List.append_assoc]

theorem approxBlockDecompressSize_seal
    (small : (sealBlock crc32c wc stored).length ≤ maxBtl) :
    approxBlockDecompressSize (sealBlock crc32c wc stored) reader =
      some (reader.decompressedMinimumSize stored + btlSize + crc32Size + wcSize) := by
  rw [approxBlockDecompressSize, (sealBlock_holds small).content, Option.map_some]

theorem blockDecompressTo_holds (inverts : reader.Inverts writer)
    (small : (sealBlock crc32c 1 (writer.compressAppendTo content)).length ≤ maxBtl)
    (opened : btlSize + (content.length + (wcSize + crc32Size)) ≤ maxBtl) {dst : ByteString}
    (room : reader.decompressedMinimumSize (writer.compressAppendTo content) + btlSize + crc32Size +
      wcSize ≤ dst.length) :
    ∃ storage, blockDecompressTo (sealBlock crc32c 1 (writer.compressAppendTo content)) dst reader =
      some storage ∧ Holds storage content := by
  have size := inverts.size content
  have fits : ¬ dst.length < btlSize := by omega
  have enough : btlSize + (content.length + (wcSize + crc32Size)) ≤ maxBtl ∧
      btlSize + (content.length + (wcSize + crc32Size)) ≤ dst.length := ⟨opened, by omega⟩
  refine ⟨_, ?_, ⟨⟨(dst.drop (btlSize + content.length)).take (wcSize + crc32Size), ?_, rfl⟩, opened⟩⟩
  · rw [blockDecompressTo, if_neg fits, (sealBlock_holds small).content, Option.bind_some,
      inverts.room content _ (by omega), Option.bind_some]
    simp only [if_pos enough, List.append_assoc]
  · rw [List.length_take, List.length_drop]
    omega

/-- The new length is asserted to be one. -/
theorem blockDecompressTo_long (inverts : reader.Inverts writer)
    (small : (sealBlock crc32c 1 (writer.compressAppendTo content)).length ≤ maxBtl)
    (long : maxBtl < btlSize + (content.length + (wcSize + crc32Size))) {dst : ByteString}
    (room : reader.decompressedMinimumSize (writer.compressAppendTo content) + btlSize + crc32Size +
      wcSize ≤ dst.length) :
    blockDecompressTo (sealBlock crc32c 1 (writer.compressAppendTo content)) dst reader = none := by
  have fits : ¬ dst.length < btlSize := by omega
  have refused : ¬ (btlSize + (content.length + (wcSize + crc32Size)) ≤ maxBtl ∧
      btlSize + (content.length + (wcSize + crc32Size)) ≤ dst.length) := by
    intro enough
    omega
  rw [blockDecompressTo, if_neg fits, (sealBlock_holds small).content, Option.bind_some,
    inverts.room content _ (by omega), Option.bind_some]
  simp only [if_neg refused]

end BlockStorage

namespace Block

/-- The blocks whose fields hold what is written into them; the first segment is special. -/
structure Fits (b : Block) : Prop where
  segments : ∀ seg ∈ b.segments, seg.Fits
  first : ∃ first later, b.segments = first :: later ∧ first.special = true
  few : b.sbsos.length < 2 ^ 16
  total : btlSize + (b.content.length + (wcSize + crc32Size)) ≤ maxBtl

variable {b : Block} {storage : ByteString}

/-- What the constructor finds in the content of a block. -/
def parsed (b : Block) (storage : ByteString) : RawBlock where
  storage := storage
  specialSegs := b.sbsos
  metaDataBeg := btlSize + b.data.length
  firstSegPublicPrefix := (b.segments.head?.map fun seg => seg.userKey.serialize).getD []

theorem sbsos_eq (total : btlSize + (b.content.length + (wcSize + crc32Size)) ≤ maxBtl) :
    b.sbsos = BlockSegment.specialOffsets btlSize b.segments := by
  have length : b.data.length ≤ b.content.length := by
    rw [content, List.length_append]
    exact Nat.le_add_right _ _
  rw [maxBtl] at total
  rw [sbsos]
  conv_rhs => rw [← List.map_id (BlockSegment.specialOffsets btlSize b.segments)]
  apply List.map_congr_left
  intro pos mem
  have inside := (BlockSegment.lt_of_mem_specialOffsets mem).2
  rw [data] at length
  exact Nat.mod_eq_of_lt (by omega)

/-- The content of a block, in the shape of what its readers take apart. -/
theorem content_eq (b : Block) : b.content =
    b.data ++ b.sbsos.flatMap (encodeBigEndian sbsoSize) ++ encodeBigEndian nsbsSize b.sbsos.length := by
  rw [content, List.append_assoc]

theorem sbso_lt (b : Block) : ∀ sbso ∈ b.sbsos, sbso < 2 ^ 32 := by
  intro sbso mem
  obtain ⟨pos, _, rfl⟩ := List.mem_map.mp mem
  exact Nat.mod_lt _ (by decide)

/-- The constructor on a content whose data area starts with the first segment. -/
theorem parse_of_front {data more : ByteString} {first : BlockSegment} {later : List BlockSegment}
    (segments : b.segments = first :: later) (special : first.special = true) (fits : first.Fits)
    (few : b.sbsos.length < 2 ^ 16)
    (offsets : b.sbsos = BlockSegment.specialOffsets btlSize b.segments)
    (begins : data = first.bytes ++ more)
    (holds : BlockStorage.Holds storage (data ++
      (b.sbsos.flatMap (encodeBigEndian sbsoSize) ++ encodeBigEndian nsbsSize b.sbsos.length))) :
    RawBlock.parse storage =
      some ⟨storage, b.sbsos, btlSize + data.length, first.userKey.serialize⟩ := by
  obtain ⟨tail, _, layout⟩ := holds.layout
  rw [segments, BlockSegment.specialOffsets, if_pos special, List.singleton_append] at offsets
  have room : first.bytes.length ≤ data.length := by
    rw [begins, List.length_append]
    exact Nat.le_add_right _ _
  -- the first interval holds at least the first segment
  have enough : first.bytes.length ≤ (BlockSegment.specialOffsets (btlSize + first.bytes.length)
      later).headD (btlSize + data.length) - btlSize :=
    BlockSegment.length_le_interval first later (by omega)
  have mem : storage.drop btlSize = first.bytes ++ (more ++
      (b.sbsos.flatMap (encodeBigEndian sbsoSize) ++ encodeBigEndian nsbsSize b.sbsos.length) ++ tail) := by
    rw [layout, List.drop_left' (encodeBigEndian_length _ _), begins]
    simp only [List.append_assoc]
  have head := RawBlock.head_segmentsInSingleInterval mem fits enough
  have small := b.sbso_lt
  rw [← List.append_assoc] at holds
  rw [offsets] at holds few small ⊢
  exact holds.parse few small head

theorem parse_of_holds (fits : b.Fits) (holds : BlockStorage.Holds storage b.content) :
    RawBlock.parse storage = some (b.parsed storage) := by
  obtain ⟨first, later, segments, special⟩ := fits.first
  have begins : b.data = first.bytes ++ later.flatMap BlockSegment.bytes := by
    rw [data, segments, List.flatMap_cons]
  rw [parse_of_front segments special (fits.segments first (segments ▸ List.mem_cons_self)) fits.few
    (sbsos_eq fits.total) begins holds, parsed, segments]
  rfl

/-- Behind the length of a block stand its segments. -/
theorem drop_of_holds (holds : BlockStorage.Holds storage b.content) :
    ∃ rest, storage.drop btlSize = b.segments.flatMap BlockSegment.bytes ++ rest := by
  obtain ⟨tail, _, layout⟩ := holds.layout
  have width := encodeBigEndian_length btlSize (btlSize + (b.content.length + (wcSize + crc32Size)))
  rw [layout, List.drop_left' width, content, data, List.append_assoc]
  exact ⟨_, rfl⟩

theorem room_of_data (b : Block) :
    btlSize + b.data.length - btlSize = (b.segments.flatMap BlockSegment.bytes).length :=
  Nat.add_sub_cancel_left _ _

/-- The entries of a block are read back from its content. -/
theorem entries_of_holds (fits : b.Fits) (holds : BlockStorage.Holds storage b.content) :
    (b.parsed storage).entries = some b.entries := by
  obtain ⟨first, later, segments, special⟩ := fits.first
  obtain ⟨rest, mem⟩ := drop_of_holds holds
  have beg : (b.parsed storage).specialSegs.head? = some btlSize := by
    change b.sbsos.head? = some btlSize
    rw [sbsos_eq fits.total, segments, BlockSegment.specialOffsets, if_pos special]
    rfl
  have all : (b.parsed storage).segments = some (b.segments.map BlockSegment.raw) := by
    rw [RawBlock.segments, beg, Option.bind_some]
    simp only [parsed, room_of_data]
    rw [mem, RawBlock.walkSegments_bytes false fits.segments, if_pos rfl]
  have each : (b.segments.map BlockSegment.raw).mapM RawSegment.entries =
      some (b.segments.map BlockSegment.entries) := by
    have fitsAll := fits.segments
    generalize b.segments = segs at fitsAll
    induction segs with
    | nil => rfl
    | cons seg segs ih =>
      rw [List.map_cons, List.mapM_cons, BlockSegment.entries_raw (fitsAll seg List.mem_cons_self),
        ih fun x mem => fitsAll x (List.mem_cons_of_mem _ mem)]
      rfl
  rw [RawBlock.entries, all, Option.bind_some, each, Option.map_some, entries, List.flatMap_def]

/-- The blocks of at least two segments whose fields hold what is written into them when the last
segment is not ended. -/
structure OpenFits (b : Block) : Prop where
  segments : ∀ seg ∈ b.segments, seg.Fits
  first : ∃ first second later, b.segments = first :: second :: later ∧ first.special = true
  few : b.sbsos.length < 2 ^ 16
  total : btlSize + (b.openContent.length + (wcSize + crc32Size)) ≤ maxBtl

/-- The segments that are found when the last one is not ended. -/
def openRaws (b : Block) : List RawSegment :=
  b.segments.dropLast.map BlockSegment.raw ++ (b.segments.getLast?.map BlockSegment.openRaw).toList

theorem length_data_le (b : Block) : b.data.length ≤ b.openData.length + bsRil := by
  rw [data, openData]
  cases List.eq_nil_or_concat b.segments with
  | inl empty =>
    rw [empty]
    exact Nat.zero_le _
  | inr concat =>
    obtain ⟨front, last, eq⟩ := concat
    rw [eq, List.concat_eq_append, List.dropLast_concat, List.getLast?_concat, List.flatMap_append,
      List.flatMap_singleton, BlockSegment.bytes, Option.map_some, Option.getD_some]
    simp only [List.length_append, encodeBigEndian_length]
    omega

theorem OpenFits.offsets (fits : b.OpenFits) :
    b.sbsos = BlockSegment.specialOffsets btlSize b.segments := by
  have total := fits.total
  have length := b.length_data_le
  rw [openContent, List.length_append, maxBtl] at total
  rw [sbsos]
  conv_rhs => rw [← List.map_id (BlockSegment.specialOffsets btlSize b.segments)]
  apply List.map_congr_left
  intro pos mem
  have inside := (BlockSegment.lt_of_mem_specialOffsets mem).2
  rw [data, bsRil] at length
  exact Nat.mod_eq_of_lt (by omega)

/-- What the constructor finds in the content of a block whose last segment is not ended. -/
def openParsed (b : Block) (storage : ByteString) : RawBlock where
  storage := storage
  specialSegs := b.sbsos
  metaDataBeg := btlSize + b.openData.length
  firstSegPublicPrefix := (b.segments.head?.map fun seg => seg.userKey.serialize).getD []

theorem parse_of_open (fits : b.OpenFits) (holds : BlockStorage.Holds storage b.openContent) :
    RawBlock.parse storage = some (b.openParsed storage) := by
  obtain ⟨first, second, later, segments, special⟩ := fits.first
  have begins : b.openData = first.bytes ++ ((second :: later).dropLast.flatMap BlockSegment.bytes ++
      ((second :: later).getLast?.map BlockSegment.unfinishedBytes).getD []) := by
    rw [openData, segments, List.dropLast_cons_cons, List.getLast?_cons_cons, List.flatMap_cons,
      List.append_assoc]
  rw [parse_of_front segments special (fits.segments first (segments ▸ List.mem_cons_self)) fits.few
    fits.offsets begins holds, openParsed, segments]
  rfl

/-- Behind the open data stands the first of the special segment offsets, which is not zero: the last
segment reaches up to the meta data. -/
theorem walk_of_open (tolerant : Bool) (fits : b.OpenFits)
    (holds : BlockStorage.Holds storage b.openContent) :
    RawBlock.walkSegments tolerant (storage.drop btlSize) b.openData.length = (b.openRaws, true) := by
  obtain ⟨first, second, rest, segments, special⟩ := fits.first
  obtain ⟨tail, _, layout⟩ := holds.layout
  have offsets := fits.offsets
  rw [segments, BlockSegment.specialOffsets, if_pos special, List.singleton_append] at offsets
  have concat : b.segments ≠ [] := by
    rw [segments]
    exact List.cons_ne_nil _ _
  obtain ⟨front, last, eq⟩ := (List.eq_nil_or_concat b.segments).resolve_left concat
  rw [List.concat_eq_append] at eq
  have fitsAll := fits.segments
  rw [eq, List.forall_mem_append] at fitsAll
  obtain ⟨fitsFront, fitsLast⟩ := fitsAll
  have data : b.openData = front.flatMap BlockSegment.bytes ++ last.unfinishedBytes := by
    rw [openData, eq, List.dropLast_concat, List.getLast?_concat]
    rfl
  have raws : b.openRaws = front.map BlockSegment.raw ++ [last.openRaw] := by
    rw [openRaws, eq, List.dropLast_concat, List.getLast?_concat]
    rfl
  let behind := b.sbsos.flatMap (encodeBigEndian sbsoSize) ++ encodeBigEndian nsbsSize b.sbsos.length ++ tail
  have mem : storage.drop btlSize = front.flatMap BlockSegment.bytes ++ (last.unfinishedBytes ++ behind) := by
    rw [layout, List.drop_left' (encodeBigEndian_length _ _), openContent, data]
    simp only [List.append_assoc, behind]
  have eof : readBigEndian bsRil behind = some btlSize := by
    simp only [behind, offsets, List.flatMap_cons, List.append_assoc]
    exact readBigEndian_encode (by decide) _
  have parsed := BlockSegment.parse_open (fitsLast last (List.mem_singleton_self last)) (by decide) eof
  have present := BlockSegment.unfinishedBytes_length last
  rw [bsPpl] at present
  have done : RawBlock.walkSegments tolerant (last.unfinishedBytes ++ behind) last.unfinishedBytes.length =
      ([last.openRaw], true) := by
    rw [RawBlock.walkSegments, if_neg (by omega)]
    split
    · rename_i missing
      rw [parsed] at missing
      cases missing
    · rename_i cut
      rw [parsed] at cut
      cases cut
    · rename_i found
      rw [parsed] at found
      cases found
      have size : last.openRaw.size = last.unfinishedBytes.length := rfl
      rw [size, Nat.sub_self, RawBlock.walkSegments, if_pos rfl]
  rw [mem, data, List.length_append, RawBlock.walkSegments_append tolerant fitsFront, done, raws]

/-- All segments are found, the open one included. -/
theorem segments_of_open (fits : b.OpenFits) (holds : BlockStorage.Holds storage b.openContent) :
    (b.openParsed storage).segments = some b.openRaws := by
  obtain ⟨first, second, later, segments, special⟩ := fits.first
  have beg : (b.openParsed storage).specialSegs.head? = some btlSize := by
    change b.sbsos.head? = some btlSize
    rw [fits.offsets, segments, BlockSegment.specialOffsets, if_pos special]
    rfl
  have walk := walk_of_open false fits holds
  rw [RawBlock.segments, beg, Option.bind_some]
  simp only [openParsed, Nat.add_sub_cancel_left]
  rw [walk, if_pos rfl]

end Block

end FrenzyKV
