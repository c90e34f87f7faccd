import FrenzyKV.Framework.Checked
import FrenzyKV.Table.SstableParse

/-! How a file is opened as a table, with every position that is computed on the way (`table/sstable.cc`,
`persistent/block.cc`). Pointers are positions in the bytes of the meta block; sums of sizes stay below 2^64. -/

namespace FrenzyKV

open Bytes Framework Framework.Checked Relation

namespace Opening

/-- `parse_meta_data` returns false, something throws, or an assertion fails. -/
inductive OpenError
  | refused
  | exception
  | assertion
deriving DecidableEq, Repr

abbrev Opens := Checked OpenError

/-- A span: where it begins, and its size. -/
structure Extent where
  beg : Nat
  size : Nat

/-- A segment that `block_segment` has parsed, and where the next one begins. -/
structure PlacedSegment where
  publicPrefix : Extent
  items : List Extent
  stop : Nat

/-- A `block` on its storage. -/
structure PlacedBlock where
  specialSegs : List Nat
  metaDataBeg : Nat

section Block

variable (storage : ByteString)

def Extent.bytes (x : Extent) : ByteString := (storage.drop x.beg).take x.size

def crc32BegPtr : Opens Nat := do
  let btl ← readAt btlSize 0 storage
  require (btl ≤ storage.length)
  sub btl crc32Size

def wcBegPtr : Opens Nat := do
  let crc32Beg ← crc32BegPtr storage
  sub crc32Beg wcSize

/-- The span of two pointers has their difference as its size. -/
def undecompressedBlockContent : Opens ByteString := do
  require (btlSize ≤ storage.length)
  let wcBeg ← wcBegPtr storage
  let size ← sub wcBeg btlSize
  return Extent.bytes storage ⟨btlSize, size⟩

def embededCrc32Value : Opens Nat := do
  let crc32Beg ← crc32BegPtr storage
  readAt crc32Size crc32Beg storage

def blockIntegrityCheck (crc32c : ByteString → UInt32) : Opens Bool := do
  let bc ← undecompressedBlockContent storage
  let ecrc32 ← embededCrc32Value storage
  return (crc32c bc).toNat = ecrc32

def nsbsBegPtr : Opens Nat := do
  let btl ← readAt btlSize 0 storage
  if btl = 0 then report .assertion
  else
    require (btl ≤ storage.length)
    sub btl (nsbsSize + wcSize + crc32Size)

def nsbsValue : Opens Nat := do
  let beg ← nsbsBegPtr storage
  readAt nsbsSize beg storage

def metaDataBegPtr : Opens Nat := do
  let nsbs ← nsbsValue storage
  let beg ← nsbsBegPtr storage
  sub beg (nsbs * sbsoSize)

/-- The loop of `block::parse_meta_data`, which makes a pointer of each offset. -/
def readSbsos : Nat → Nat → Opens (List Nat)
  | 0, _ => return []
  | n + 1, sbsoCur => do
    let sbso ← readAt sbsoSize sbsoCur storage
    require (sbso ≤ storage.length)
    let later ← readSbsos n (sbsoCur + sbsoSize)
    return sbso :: later

/-- One round of the loop of `block_segment::parse`. -/
def itemStep (sentinel current : Nat) : Opens (Option (Extent × Nat)) :=
  if sentinel ≤ current then return none
  else do
    let ril ← readAt bsRil current storage
    if ril = 0 then return none
    else
      require (current + bsRil + ril ≤ storage.length)
      return some (⟨current + bsRil, ril⟩, current + bsRil + ril)

theorem itemStep_eq_some_iff {sentinel current next : Nat} {item : Extent} :
    itemStep storage sentinel current = .ok (some (item, next)) ↔ current < sentinel ∧
      current + bsRil ≤ storage.length ∧ numberAt bsRil current storage ≠ 0 ∧
      current + bsRil + numberAt bsRil current storage ≤ storage.length ∧
      item = ⟨current + bsRil, numberAt bsRil current storage⟩ ∧
      next = current + bsRil + numberAt bsRil current storage := by
  by_cases ended : sentinel ≤ current
  · simp [itemStep, ended]
  · by_cases zero : numberAt bsRil current storage = 0
    · simp [itemStep, ended, zero]
    · simp only [itemStep, if_neg ended, if_neg zero, readAt_bind_eq_ok_iff, require_bind_eq_ok_iff,
        pure_eq_ok_iff, Option.some.injEq, Prod.mk.injEq]
      rw [and_iff_right (Nat.not_le.mp ended), and_iff_right zero, eq_comm, @eq_comm _ next]

theorem hops_itemStep_iff {sentinel current next : Nat} :
    Hops (itemStep storage sentinel) current next ↔ current < sentinel ∧
      current + bsRil ≤ storage.length ∧ numberAt bsRil current storage ≠ 0 ∧
      current + bsRil + numberAt bsRil current storage ≤ storage.length ∧
      next = current + bsRil + numberAt bsRil current storage := by
  simp only [Hops, itemStep_eq_some_iff, exists_and_left, exists_eq_left]

def parseItems (sentinel current : Nat) : Opens (List Extent × Nat) :=
  walk (itemStep storage sentinel) (sentinel - ·)
    (fun _ _ hops => by have := (hops_itemStep_iff storage).mp hops; omega) current

/-- The constructor of `block_segment` between two pointers; no segment is a partial one. -/
def parseSegment (sentinel current : Nat) : Opens (Option PlacedSegment) := do
  let ppl ← readAt bsPpl current storage
  if ppl = 0 then report .exception
  else
    require (current + bsPpl + ppl ≤ storage.length)
    let items ← parseItems storage sentinel (current + bsPpl + ppl)
    if sentinel < items.2 then return none
    else
      let eof ← readAt bsRil items.2 storage
      return some ⟨⟨current + bsPpl, ppl⟩, items.1, if eof = 0 then items.2 + bsRil else sentinel⟩

theorem parseSegment_eq_some_iff {sentinel current : Nat} {seg : PlacedSegment} :
    parseSegment storage sentinel current = .ok (some seg) ↔
      current + bsPpl ≤ storage.length ∧ numberAt bsPpl current storage ≠ 0 ∧
      current + bsPpl + numberAt bsPpl current storage ≤ storage.length ∧
      ∃ items last,
        parseItems storage sentinel (current + bsPpl + numberAt bsPpl current storage) = .ok (items, last) ∧
        last ≤ sentinel ∧ last + bsRil ≤ storage.length ∧
        seg = ⟨⟨current + bsPpl, numberAt bsPpl current storage⟩, items,
          if numberAt bsRil last storage = 0 then last + bsRil else sentinel⟩ := by
  rw [parseSegment, readAt_bind_eq_ok_iff]
  refine and_congr_right fun _ => ?_
  by_cases zero : numberAt bsPpl current storage = 0
  · rw [if_pos zero]
    exact iff_of_false not_report_eq_ok fun both => both.1 zero
  · rw [if_neg zero, and_iff_right zero, require_bind_eq_ok_iff]
    refine and_congr_right fun _ => ?_
    rw [bind_eq_ok_iff, Prod.exists]
    refine exists_congr fun items => exists_congr fun last => and_congr_right fun _ => ?_
    by_cases cut : sentinel < last
    · simp [cut]
    · simp only [if_neg cut, readAt_bind_eq_ok_iff, pure_eq_ok_iff, Option.some.injEq]
      rw [and_iff_right (Nat.not_lt.mp cut), eq_comm]

theorem le_of_parseItems {sentinel current last : Nat} {items : List Extent}
    (parsed : parseItems storage sentinel current = .ok (items, last)) : current ≤ last := by
  have reached := (reached_of_walk parsed).1
  clear parsed
  induction reached with
  | refl => exact Nat.le_refl _
  | tail _ hops ih =>
    have := (hops_itemStep_iff storage).mp hops
    omega

/-- A segment ends behind its beginning. -/
theorem lt_stop {sentinel current : Nat} {seg : PlacedSegment} (before : current < sentinel)
    (parsed : parseSegment storage sentinel current = .ok (some seg)) : current < seg.stop := by
  obtain ⟨_, _, _, items, last, walked, _, _, rfl⟩ := (parseSegment_eq_some_iff storage).mp parsed
  have := le_of_parseItems storage walked
  dsimp only
  split
  · rw [bsRil]
    omega
  · exact before

/-- The constructor of `block` takes the first segment of an interval, which has to be there. -/
def firstSegment (sentinel beg : Nat) : Opens PlacedSegment :=
  if sentinel ≤ beg then leave
  else do
    let seg ← parseSegment storage sentinel beg
    match seg with
    | none => leave
    | some seg => return seg

/-- The constructor of `block`. -/
def block : Opens PlacedBlock := do
  let sbsoCur ← metaDataBegPtr storage
  let nsbs ← nsbsValue storage
  if nsbs = 0 then report .exception
  else
    let specialSegs ← readSbsos storage nsbs sbsoCur
    match specialSegs with
    | [] => leave
    | beg :: later =>
      let _ ← firstSegment storage (later.headD sbsoCur) beg
      return ⟨specialSegs, sbsoCur⟩

/-- The value of the first item of a segment; a tombstone throws. -/
def frontValue (items : List Extent) : Opens ByteString :=
  match items with
  | [] => leave
  | item :: _ => do
    let size ← sub item.size seqBytesSize
    if size = 0 then report .exception
    else
      let beg := item.beg + seqBytesSize
      let valueLen ← readAt userValueLengthBytesSize beg storage
      if valueLen = 0 then report .exception
      else
        require (beg + userValueLengthBytesSize + valueLen ≤ storage.length)
        return Extent.bytes storage ⟨beg + userValueLengthBytesSize, valueLen⟩

/-- The body of the loop of `parse_meta_data`. -/
def readSegment (fields : MetaBlock.Fields) (seg : PlacedSegment) : Opens MetaBlock.Fields :=
  let publicPrefix := seg.publicPrefix.bytes storage
  if publicPrefix = MetaBlock.bloomFilterKey.serialize then do
    let uv ← frontValue storage seg.items
    return { fields with filterRep := uv }
  else if publicPrefix = MetaBlock.lastUkKey.serialize then do
    let lastUk ← frontValue storage seg.items
    return { fields with lastUk := lastUk }
  else if publicPrefix = MetaBlock.firstUkKey.serialize then do
    let firstUk ← frontValue storage seg.items
    return { fields with firstUk := firstUk }
  else return fields

/-- One round of that loop over `segments_in_single_interval`. -/
def segmentStep (sentinel : Nat) (s : Nat × MetaBlock.Fields) :
    Opens (Option (PlacedSegment × Nat × MetaBlock.Fields)) :=
  if sentinel ≤ s.1 then return none
  else do
    let seg ← parseSegment storage sentinel s.1
    match seg with
    | none => return none
    | some seg =>
      let fields ← readSegment storage s.2 seg
      return some (seg, seg.stop, fields)

theorem hops_segmentStep {sentinel : Nat} {s s' : Nat × MetaBlock.Fields}
    (hops : Hops (segmentStep storage sentinel) s s') : s.1 < sentinel ∧ ∃ seg,
      parseSegment storage sentinel s.1 = .ok (some seg) ∧
        readSegment storage s.2 seg = .ok s'.2 ∧ s'.1 = seg.stop := by
  obtain ⟨seg, taken⟩ := hops
  rw [segmentStep] at taken
  split at taken
  · cases taken
  · rename_i before
    obtain ⟨parsed, run, taken⟩ := bind_eq_ok_iff.mp taken
    cases parsed with
    | none => cases taken
    | some seg' =>
      obtain ⟨fields, read, taken⟩ := bind_eq_ok_iff.mp taken
      obtain ⟨rfl, rfl⟩ := Prod.mk.inj (Option.some.inj (Except.ok.inj taken))
      exact ⟨Nat.not_le.mp before, seg', run, read, rfl⟩

def readSegments (sentinel beg : Nat) : Opens (List PlacedSegment × Nat × MetaBlock.Fields) :=
  walk (segmentStep storage sentinel) (sentinel - ·.1)
    (fun s s' hops => by
      obtain ⟨before, seg, parsed, _, stop⟩ := hops_segmentStep storage hops
      have := lt_stop storage before parsed
      omega) (beg, ⟨[], [], []⟩)

/-- That loop, and the assertions behind it. -/
def readRecords (sentinel beg : Nat) : Opens MetaBlock.Fields := do
  let segs ← readSegments storage sentinel beg
  let fields := segs.2.2
  if fields.filterRep = [] ∨ fields.lastUk = [] ∨ fields.firstUk = [] then report .assertion
  else return fields

end Block

section File

variable (file : ByteString)

/-- A read at an offset gets what is there, into a buffer of zeros. -/
def btlValueImpl (offset : Nat) : Nat :=
  let readed := (file.drop offset).take btlSize
  if readed.isEmpty then 0
  else decodeBigEndian (readed ++ List.replicate (btlSize - readed.length) 0)

/-- One round of the loop of `generate_block_offsets_impl`. The block has to be inside the file. -/
def blockStep (mbo offset : Nat) : Opens (Option ((Nat × Nat) × Nat)) :=
  if mbo ≤ offset then return none
  else
    let currentBtl := btlValueImpl file offset
    if currentBtl = 0 then report .refused
    else do
      require (offset + currentBtl ≤ file.length)
      return some ((offset, currentBtl), offset + currentBtl)

theorem hops_blockStep_iff {mbo offset next : Nat} : Hops (blockStep file mbo) offset next ↔
    offset < mbo ∧ btlValueImpl file offset ≠ 0 ∧ offset + btlValueImpl file offset ≤ file.length ∧
      next = offset + btlValueImpl file offset := by
  rw [Hops]
  by_cases ended : mbo ≤ offset
  · simp [blockStep, ended]
  · by_cases zero : btlValueImpl file offset = 0
    · simp [blockStep, ended, zero]
    · simp only [blockStep, if_neg ended, if_neg zero, require_bind_eq_ok_iff, pure_eq_ok_iff,
        Option.some.injEq, Prod.mk.injEq]
      constructor
      · rintro ⟨b, inside, _, rfl⟩
        exact ⟨Nat.not_le.mp ended, zero, inside, rfl⟩
      · rintro ⟨_, _, inside, rfl⟩
        exact ⟨_, inside, rfl, rfl⟩

def generateBlockOffsetsImpl (mbo : Nat) : Opens (List (Nat × Nat) × Nat) :=
  walk (blockStep file mbo) (mbo - ·)
    (fun _ _ hops => by have := (hops_blockStep_iff file).mp hops; omega) 0

/-- `parse_meta_data` from its loop on. -/
def openInterval (storage : ByteString) (mbo sentinel beg : Nat) :
    Opens (MetaBlock.Fields × List (Nat × Nat)) := do
  let fields ← readRecords storage sentinel beg
  let offsets ← generateBlockOffsetsImpl file mbo
  return (fields, offsets.1)

/-- `parse_meta_data` from the constructor of the meta block on. -/
def openIntact (storage : ByteString) (mbo : Nat) : Opens (MetaBlock.Fields × List (Nat × Nat)) := do
  let metaBlock ← block storage
  match metaBlock.specialSegs with
  | [beg] => openInterval file storage mbo metaBlock.metaDataBeg beg
  | _ => report .assertion

variable (crc32c : ByteString → UInt32)

/-- `parse_meta_data` from the bytes of the meta block on. -/
def openMetaBlock (storage : ByteString) (mbo : Nat) : Opens (MetaBlock.Fields × List (Nat × Nat)) := do
  let intact ← blockIntegrityCheck storage crc32c
  if intact = false then report .assertion else openIntact file storage mbo

/-- `sstable::parse_meta_data`: the members that it fills, and the offsets of the data blocks. -/
def parseMetaData : Opens (MetaBlock.Fields × List (Nat × Nat)) := do
  let footerBeg ← sub file.length (mboSize + mgnSize)
  let mbo ← readAt mboSize footerBeg file
  let magicNum ← readAt mgnSize (footerBeg + mboSize) file
  if magicNum ≠ magicNumber then report .refused
  else
    let size ← sub file.length mbo
    let size ← sub size mboSize
    let size ← sub size mgnSize
    openMetaBlock file crc32c (Extent.bytes file ⟨mbo, size⟩) mbo

end File

end Opening

end FrenzyKV
