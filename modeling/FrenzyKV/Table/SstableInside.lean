import FrenzyKV.Table.SegmentsInside

/-! The files that can be opened as tables without leaving their bytes (`table/sstable.cc`,
`persistent/block.cc`). -/

namespace FrenzyKV

open Bytes Framework Framework.Checked Relation

namespace Opening

section Layout

variable (storage : ByteString)

def btl : Nat := numberAt btlSize 0 storage

/-- The length field of a block leaves room for the fields around its content, and the block is there. -/
def LengthInside : Prop := btlSize + wcSize + crc32Size ≤ btl storage ∧ btl storage ≤ storage.length

/-- The content that the checksum of a block is about. -/
def blockContent : ByteString := Extent.bytes storage ⟨btlSize, btl storage - crc32Size - wcSize - btlSize⟩

def ChecksumMatches (crc32c : ByteString → UInt32) : Prop :=
  (crc32c (blockContent storage)).toNat = numberAt crc32Size (btl storage - crc32Size) storage

instance (crc32c : ByteString → UInt32) : Decidable (ChecksumMatches storage crc32c) :=
  inferInstanceAs (Decidable (_ = _))

def nsbsBeg : Nat := btl storage - (nsbsSize + wcSize + crc32Size)

def nsbs : Nat := numberAt nsbsSize (nsbsBeg storage) storage

def metaDataBeg : Nat := nsbsBeg storage - nsbs storage * sbsoSize

def sbsos : Nat → Nat → List Nat
  | 0, _ => []
  | n + 1, cur => numberAt sbsoSize cur storage :: sbsos n (cur + sbsoSize)

def specialSegs : List Nat := sbsos storage (nsbs storage) (metaDataBeg storage)

/-- There is a first segment, and it is complete. -/
def FirstInside (sentinel beg : Nat) : Prop := beg < sentinel ∧ SegmentInside storage sentinel beg ∧
  (ppl storage beg ≠ 0 → ∃ next, SegmentEnds storage sentinel beg next)

/-- The offsets of a block fit before their count, they are inside, and so is the first segment. -/
def OffsetsInside : Prop := nsbs storage * sbsoSize ≤ nsbsBeg storage ∧
  (∀ sbso ∈ specialSegs storage, sbso ≤ storage.length) ∧
    ∀ beg later, specialSegs storage = beg :: later → FirstInside storage (later.headD (metaDataBeg storage)) beg

/-- A meta block has one interval. -/
def OneInterval (beg : Nat) : Prop := specialSegs storage = [beg]

/-- The loop over the segments of a meta block ends, and it has found the three records. -/
def RecordsRead (beg : Nat) : Prop := (∃ last, SegmentsEnd storage (metaDataBeg storage) beg last) ∧
  ∀ key ∈ recordKeys, Finds storage (metaDataBeg storage) beg key

variable (file : ByteString)

def footerSize : Nat := mboSize + mgnSize

def mbo : Nat := numberAt mboSize (file.length - footerSize) file

def HasMagic : Prop := numberAt mgnSize (file.length - footerSize + mboSize) file = magicNumber

def metaBlock : ByteString := Extent.bytes file ⟨mbo file, file.length - mbo file - mboSize - mgnSize⟩

instance : Decidable (HasMagic file) := inferInstanceAs (Decidable (_ = _))

/-- The length field at `p` leads to the next block. -/
def BlockHop (p q : Nat) : Prop := p < mbo file ∧ numberAt btlSize p file ≠ 0 ∧ q = p + numberAt btlSize p file

/-- The blocks before the meta block end in the file. -/
def BlocksInside : Prop := ∀ q, ReflTransGen (BlockHop file) 0 q → q ≤ file.length

/-- The blocks go up to the meta block. -/
def BlocksEnd : Prop := ∃ last, ReflTransGen (BlockHop file) 0 last ∧ mbo file ≤ last

variable (crc32c : ByteString → UInt32)

/-- The magic number and the checksum of the meta block are right. -/
def Intact : Prop := HasMagic file ∧ ChecksumMatches (metaBlock file) crc32c

/-- Every position that is computed when the file is opened is inside it. -/
structure FileInside : Prop where
  footer : footerSize ≤ file.length
  metaBlock : HasMagic file → mbo file + footerSize ≤ file.length ∧ LengthInside (metaBlock file)
  offsets : Intact file crc32c → OffsetsInside (Opening.metaBlock file)
  segments : ∀ beg, Intact file crc32c → OneInterval (Opening.metaBlock file) beg →
    SegmentsInside (Opening.metaBlock file) (metaDataBeg (Opening.metaBlock file)) beg
  blocks : ∀ beg, Intact file crc32c → OneInterval (Opening.metaBlock file) beg →
    RecordsRead (Opening.metaBlock file) beg → BlocksInside file

/-- The file is a table. -/
structure WellFormed : Prop where
  inside : FileInside file crc32c
  intact : Intact file crc32c
  records : ∃ beg, OneInterval (metaBlock file) beg ∧ RecordsRead (metaBlock file) beg
  blocks : BlocksEnd file

end Layout

section Head

variable {storage : ByteString} {crc32c : ByteString → UInt32}

theorem fieldSizes : btlSize = 4 ∧ wcSize = 1 ∧ crc32Size = 4 ∧ nsbsSize = 2 := by decide

theorem inside_blockIntegrityCheck_iff : (blockIntegrityCheck storage crc32c).Inside ↔ LengthInside storage := by
  simp only [blockIntegrityCheck, undecompressedBlockContent, embededCrc32Value, wcBegPtr, crc32BegPtr, bind_assoc,
    pure_bind, inside_require_bind, inside_readAt_bind, inside_sub_bind, inside_pure,
    and_true]
  rw [LengthInside, btl]
  have := fieldSizes
  omega

theorem blockIntegrityCheck_of_inside (inside : LengthInside storage) :
    blockIntegrityCheck storage crc32c = .ok (decide (ChecksumMatches storage crc32c)) := by
  obtain ⟨room, there⟩ := inside
  rw [btl] at room there
  simp only [blockIntegrityCheck, undecompressedBlockContent, embededCrc32Value, wcBegPtr, crc32BegPtr, bind_assoc,
    pure_bind, require_bind_eq_ok_iff, readAt_bind_eq_ok_iff, sub_bind_eq_ok_iff, pure_eq_ok_iff]
  have := fieldSizes
  refine ⟨by omega, by omega, there, by omega, by omega, by omega, by omega, there, by omega, by omega, ?_⟩
  rfl

theorem nsbsBegPtr_of_inside (inside : LengthInside storage) : nsbsBegPtr storage = .ok (nsbsBeg storage) := by
  obtain ⟨room, there⟩ := inside
  rw [btl] at room there
  have := fieldSizes
  have some_length : numberAt btlSize 0 storage ≠ 0 := by omega
  rw [nsbsBegPtr, readAt_bind_eq_ok_iff, if_neg some_length, require_bind_eq_ok_iff, sub_of_le (by omega)]
  exact ⟨by omega, there, rfl⟩

theorem nsbsValue_of_inside (inside : LengthInside storage) : nsbsValue storage = .ok (nsbs storage) := by
  rw [nsbsValue, nsbsBegPtr_of_inside inside]
  refine readAt_of_inside ?_
  obtain ⟨room, there⟩ := inside
  have := fieldSizes
  rw [nsbsBeg]
  omega

theorem metaDataBegPtr_of_inside (inside : LengthInside storage) :
    metaDataBegPtr storage = sub (nsbsBeg storage) (nsbs storage * sbsoSize) := by
  rw [metaDataBegPtr, nsbsValue_of_inside inside, nsbsBegPtr_of_inside inside]
  rfl

theorem inside_readSbsos_iff {n cur : Nat} (room : cur + n * sbsoSize ≤ storage.length) :
    (readSbsos storage n cur).Inside ↔ ∀ sbso ∈ sbsos storage n cur, sbso ≤ storage.length := by
  induction n generalizing cur with
  | zero => exact iff_of_true (inside_pure _) (List.forall_mem_nil _)
  | succ n ih =>
    rw [Nat.succ_mul] at room
    rw [readSbsos, inside_readAt_bind, inside_require_bind, inside_bind_pure_iff, ih (by omega), sbsos,
      List.forall_mem_cons, and_iff_right (by omega)]

theorem readSbsos_of_inside {n cur : Nat} (room : cur + n * sbsoSize ≤ storage.length)
    (inside : ∀ sbso ∈ sbsos storage n cur, sbso ≤ storage.length) :
    readSbsos storage n cur = .ok (sbsos storage n cur) := by
  induction n generalizing cur with
  | zero => rfl
  | succ n ih =>
    rw [Nat.succ_mul] at room
    obtain ⟨here, later⟩ := List.forall_mem_cons.mp inside
    rw [readSbsos, readAt_bind_eq_ok_iff, require_bind_eq_ok_iff, ih (by omega) later]
    exact ⟨by omega, here, rfl⟩

theorem inside_firstSegment_iff {sentinel beg : Nat} :
    (firstSegment storage sentinel beg).Inside ↔ FirstInside storage sentinel beg := by
  rw [firstSegment, FirstInside]
  by_cases ended : sentinel ≤ beg
  · rw [if_pos ended]
    exact iff_of_false not_inside_leave fun first => first.1.not_ge ended
  · rw [if_neg ended, and_iff_right (Nat.not_le.mp ended), inside_bind_iff, inside_parseSegment_iff]
    refine and_congr_right fun inside => ?_
    constructor
    · intro all present
      by_contra cut
      exact all none ((parseSegment_eq_none_iff inside).mpr ⟨present, cut⟩) rfl
    · intro complete parsed run
      cases parsed with
      | none =>
        obtain ⟨present, cut⟩ := (parseSegment_eq_none_iff inside).mp run
        exact absurd (complete present) cut
      | some seg => exact inside_pure _

theorem exists_firstSegment_iff {sentinel beg : Nat} (first : FirstInside storage sentinel beg) :
    (∃ seg, firstSegment storage sentinel beg = .ok seg) ↔ ppl storage beg ≠ 0 := by
  obtain ⟨before, inside, complete⟩ := first
  rw [firstSegment, if_neg (Nat.not_le.mpr before)]
  constructor
  · rintro ⟨seg, run⟩
    obtain ⟨parsed, run, taken⟩ := bind_eq_ok_iff.mp run
    cases parsed with
    | none => exact absurd taken not_leave_eq_ok
    | some seg' => exact ((parseSegment_eq_some_iff storage).mp run).2.1
  · intro present
    obtain ⟨next, ends⟩ := complete present
    obtain ⟨seg, parsed, _⟩ := (segmentEnds_iff inside).mp ends
    exact ⟨seg, bind_eq_ok_iff.mpr ⟨_, parsed, rfl⟩⟩

/-- What the constructor of `block` does behind the length field. -/
theorem block_of_inside (inside : LengthInside storage) : block storage = do
    let sbsoCur ← sub (nsbsBeg storage) (nsbs storage * sbsoSize)
    if nsbs storage = 0 then report .exception
    else
      let specialSegs ← readSbsos storage (nsbs storage) sbsoCur
      match specialSegs with
      | [] => leave
      | beg :: later =>
        let _ ← firstSegment storage (later.headD sbsoCur) beg
        return ⟨specialSegs, sbsoCur⟩ := by
  rw [block, metaDataBegPtr_of_inside inside, nsbsValue_of_inside inside]
  rfl

theorem room_of_inside (inside : LengthInside storage) (fits : nsbs storage * sbsoSize ≤ nsbsBeg storage) :
    metaDataBeg storage + nsbs storage * sbsoSize ≤ storage.length := by
  obtain ⟨_, there⟩ := inside
  rw [metaDataBeg, Nat.sub_add_cancel fits, nsbsBeg]
  omega

theorem specialSegs_eq_nil_iff : specialSegs storage = [] ↔ nsbs storage = 0 := by
  rw [specialSegs]
  cases nsbs storage with
  | zero => exact iff_of_true rfl rfl
  | succ n => exact iff_of_false (List.cons_ne_nil _ _) (Nat.succ_ne_zero n)

theorem inside_block_iff (inside : LengthInside storage) : (block storage).Inside ↔ OffsetsInside storage := by
  rw [block_of_inside inside, inside_sub_bind, OffsetsInside]
  refine and_congr_right fun fits => ?_
  rw [inside_ite, and_iff_right fun _ => inside_report _, ← metaDataBeg, inside_bind_iff,
    inside_readSbsos_iff (room_of_inside inside fits), ← specialSegs]
  cases segs : specialSegs storage with
  | nil =>
    refine iff_of_true (fun some_segs => absurd (specialSegs_eq_nil_iff.mp segs) some_segs)
      ⟨List.forall_mem_nil _, fun _ _ eq => ?_⟩
    cases eq
  | cons beg later =>
    have some_segs : ¬ nsbs storage = 0 := by
      rw [← specialSegs_eq_nil_iff, segs]
      exact List.cons_ne_nil _ _
    rw [imp_iff_right some_segs]
    refine and_congr_right fun offsets => ?_
    have read := readSbsos_of_inside (room_of_inside inside fits) (by rwa [← specialSegs, segs])
    rw [read, ← specialSegs, segs]
    simp only [Except.ok.injEq, forall_eq', List.cons.injEq, and_imp, inside_bind_pure_iff, inside_firstSegment_iff]
    constructor
    · rintro first _ _ rfl rfl
      exact first
    · exact fun all => all beg later rfl rfl

/-- What the constructor of `block` makes, and when it does. -/
theorem block_eq_ok_iff (inside : LengthInside storage) (offsets : OffsetsInside storage) {b : PlacedBlock} :
    block storage = .ok b ↔ b = ⟨specialSegs storage, metaDataBeg storage⟩ ∧
      ∃ beg later, specialSegs storage = beg :: later ∧ ppl storage beg ≠ 0 := by
  obtain ⟨fits, sbsos_inside, first⟩ := offsets
  rw [block_of_inside inside, sub_bind_eq_ok_iff, and_iff_right fits, ← metaDataBeg,
    readSbsos_of_inside (room_of_inside inside fits) sbsos_inside, ← specialSegs]
  cases segs : specialSegs storage with
  | nil =>
    rw [if_pos (specialSegs_eq_nil_iff.mp segs)]
    refine iff_of_false not_report_eq_ok ?_
    rintro ⟨_, beg, later, eq, _⟩
    cases eq
  | cons beg later =>
    have some_segs : ¬ nsbs storage = 0 := by
      rw [← specialSegs_eq_nil_iff, segs]
      exact List.cons_ne_nil _ _
    rw [if_neg some_segs]
    constructor
    · intro run
      obtain ⟨_, same, run⟩ := bind_eq_ok_iff.mp run
      obtain rfl := Except.ok.inj same
      obtain ⟨seg, parsed, made⟩ := bind_eq_ok_iff.mp run
      exact ⟨(Except.ok.inj made).symm, beg, later, rfl,
        (exists_firstSegment_iff (first beg later segs)).mp ⟨seg, parsed⟩⟩
    · rintro ⟨rfl, beg', later', eq, present⟩
      obtain ⟨rfl, rfl⟩ := List.cons.inj eq
      obtain ⟨seg, parsed⟩ := (exists_firstSegment_iff (first beg later segs)).mpr present
      exact bind_eq_ok_iff.mpr ⟨_, rfl, bind_eq_ok_iff.mpr ⟨seg, parsed, rfl⟩⟩

/-- The records are read exactly if the loop comes to its end and finds them. -/
theorem inside_readRecords_iff {sentinel beg : Nat} :
    (readRecords storage sentinel beg).Inside ↔ SegmentsInside storage sentinel beg := by
  rw [readRecords, inside_bind_iff, inside_readSegments_iff]
  refine and_iff_left fun segs _ => ?_
  rw [inside_ite]
  exact ⟨fun _ => inside_report _, fun _ => inside_pure _⟩

theorem exists_readRecords_iff {beg : Nat} (inside : SegmentsInside storage (metaDataBeg storage) beg) :
    (∃ fields, readRecords storage (metaDataBeg storage) beg = .ok fields) ↔ RecordsRead storage beg := by
  rw [readRecords, RecordsRead, ← readSegments_iff inside]
  refine exists_bind_iff_of_forall fun segs walked => ?_
  rw [← filled_of_readSegments walked]
  dsimp only
  split
  · rename_i missing
    refine iff_of_false ?_ ?_
    · rintro ⟨_, run⟩
      exact not_report_eq_ok run
    · rintro ⟨bloom, last, first⟩
      rcases missing with missing | missing | missing
      · exact bloom missing
      · exact last missing
      · exact first missing
  · rename_i filled
    rw [not_or, not_or] at filled
    exact iff_of_true ⟨_, rfl⟩ filled

end Head

section Blocks

variable {file : ByteString} {p q : Nat}

/-- What the loop over the blocks needs at one place. -/
def BlockInside (file : ByteString) (p : Nat) : Prop :=
  p < mbo file → numberAt btlSize p file ≠ 0 → p + numberAt btlSize p file ≤ file.length

theorem btlValueImpl_of_inside (inside : p + btlSize ≤ file.length) :
    btlValueImpl file p = numberAt btlSize p file := by
  have all : ((file.drop p).take btlSize).length = btlSize := by
    rw [List.length_take, List.length_drop]
    omega
  have some_bytes : ((file.drop p).take btlSize).isEmpty = false := by
    rw [List.isEmpty_eq_false_iff, ← List.length_pos_iff, all]
    exact Nat.succ_pos 3
  rw [btlValueImpl, some_bytes, all, Nat.sub_self, List.replicate_zero, List.append_nil]
  rfl

variable (room : mbo file + footerSize ≤ file.length)

include room

theorem btlValueImpl_of_lt (before : p < mbo file) : btlValueImpl file p = numberAt btlSize p file := by
  have sizes : btlSize + 8 = footerSize := rfl
  exact btlValueImpl_of_inside (by omega)

theorem inside_blockStep_iff : (blockStep file (mbo file) p).Inside ↔ BlockInside file p := by
  rw [blockStep, inside_ite, and_iff_right fun _ => inside_pure _, Nat.not_le]
  refine forall_congr' fun before => ?_
  rw [btlValueImpl_of_lt room before]
  simp only [inside_ite, inside_report, implies_true, true_and, inside_require_bind, inside_pure, and_true]

theorem blockHop_iff_hops (inside : BlockInside file p) :
    BlockHop file p q ↔ ∃ q', Hops (blockStep file (mbo file)) p q' ∧ q' = q := by
  rw [exists_eq_right, hops_blockStep_iff]
  refine and_congr_right fun before => ?_
  rw [btlValueImpl_of_lt room before]
  exact and_congr_right fun some_bytes => (and_iff_right (inside before some_bytes)).symm

theorem blockHop_of_hops (hops : Hops (blockStep file (mbo file)) p q) : BlockHop file p q := by
  obtain ⟨before, some_bytes, _, next⟩ := (hops_blockStep_iff file).mp hops
  rw [btlValueImpl_of_lt room before] at some_bytes next
  exact ⟨before, some_bytes, next⟩

omit room in
/-- The blocks end in the file exactly if each of them does. -/
theorem blocksInside_iff : BlocksInside file ↔ ∀ q, ReflTransGen (BlockHop file) 0 q → BlockInside file q := by
  constructor
  · exact fun inside q reached before some_bytes => inside _ (reached.tail ⟨before, some_bytes, rfl⟩)
  · intro inside q reached
    cases reached.cases_tail with
    | inl first =>
      rw [first]
      exact Nat.zero_le _
    | inr later =>
      obtain ⟨p, reached', before, some_bytes, rfl⟩ := later
      exact inside p reached' before some_bytes

theorem inside_generateBlockOffsetsImpl_iff :
    (generateBlockOffsetsImpl file (mbo file)).Inside ↔ BlocksInside file := by
  rw [generateBlockOffsetsImpl, inside_walk_iff, blocksInside_iff,
    ← forall_reached_iff (fun a b => blockHop_iff_hops room) 0]
  exact forall₂_congr fun q _ => inside_blockStep_iff room

theorem exists_generateBlockOffsetsImpl_iff (inside : BlocksInside file) :
    (∃ offsets, generateBlockOffsetsImpl file (mbo file) = .ok offsets) ↔ BlocksEnd file := by
  have ends_iff (q : Nat) : blockStep file (mbo file) q = .ok none ↔ mbo file ≤ q := by
    constructor
    · intro ends
      by_contra before
      rw [blockStep, if_neg before] at ends
      dsimp only at ends
      split at ends
      · exact not_report_eq_ok ends
      · cases (require_bind_eq_ok_iff.mp ends).2
    · exact fun ended => if_pos ended
  constructor
  · rintro ⟨⟨offsets, last⟩, walked⟩
    obtain ⟨reached, ends⟩ := reached_of_walk walked
    exact ⟨last, ReflTransGen.mono (fun _ _ => blockHop_of_hops room) _ _ reached, (ends_iff last).mp ends⟩
  · rintro ⟨last, reached, ended⟩
    have all := (forall_reached_iff (fun a b => blockHop_iff_hops room) 0).mpr (blocksInside_iff.mp inside)
    obtain ⟨last', reached', rfl⟩ := reached_place (fun a b => blockHop_iff_hops room) all reached
    obtain ⟨offsets, walked⟩ := walk_of_reached reached' ((ends_iff last').mpr ended)
    exact ⟨_, walked⟩

end Blocks

section File

variable {storage file : ByteString} {crc32c : ByteString → UInt32}

/-- Without a public prefix there is no way behind a segment. -/
theorem segmentsInside_of_noPrefix {beg : Nat} (first : FirstInside storage (metaDataBeg storage) beg)
    (zero : ppl storage beg = 0) : SegmentsInside storage (metaDataBeg storage) beg := by
  intro q reached _
  cases reached.cases_head with
  | inl here =>
    obtain rfl := here
    exact ⟨first.2.1, fun ends => absurd zero ends.choose_spec.1⟩
  | inr later =>
    obtain ⟨_, hop, _⟩ := later
    exact absurd zero hop.2.1.1

theorem RecordsRead.some_prefix {beg : Nat} (read : RecordsRead storage beg)
    (first : FirstInside storage (metaDataBeg storage) beg) : ppl storage beg ≠ 0 := by
  obtain ⟨⟨last, reached, ends⟩, _⟩ := read
  cases reached.cases_head with
  | inl here =>
    obtain rfl := here
    rcases ends with ended | complete
    · exact absurd ended first.1.not_ge
    · exact complete.1
  | inr later =>
    obtain ⟨_, hop, _⟩ := later
    exact hop.2.1.1

variable (room : mbo file + footerSize ≤ file.length)

include room

theorem inside_openInterval_iff {beg : Nat} :
    (openInterval file storage (mbo file) (metaDataBeg storage) beg).Inside ↔
      SegmentsInside storage (metaDataBeg storage) beg ∧ (RecordsRead storage beg → BlocksInside file) := by
  rw [openInterval, inside_bind_iff_of_forall (p := BlocksInside file), inside_readRecords_iff]
  · exact and_congr_right fun inside => by rw [exists_readRecords_iff inside]
  · intro fields _
    rw [inside_bind_pure_iff, inside_generateBlockOffsetsImpl_iff room]

theorem exists_openInterval_iff {beg : Nat} (inside : SegmentsInside storage (metaDataBeg storage) beg)
    (blocks : RecordsRead storage beg → BlocksInside file) :
    (∃ opened, openInterval file storage (mbo file) (metaDataBeg storage) beg = .ok opened) ↔
      RecordsRead storage beg ∧ BlocksEnd file := by
  rw [openInterval, exists_bind_iff_of_forall (p := BlocksEnd file), exists_readRecords_iff inside]
  intro fields run
  rw [exists_bind_pure_iff]
  exact exists_generateBlockOffsetsImpl_iff room (blocks ((exists_readRecords_iff inside).mp ⟨fields, run⟩))

theorem inside_openIntact_iff (length : LengthInside storage) :
    (openIntact file storage (mbo file)).Inside ↔ OffsetsInside storage ∧ ∀ beg, OneInterval storage beg →
      SegmentsInside storage (metaDataBeg storage) beg ∧ (RecordsRead storage beg → BlocksInside file) := by
  rw [openIntact, inside_bind_iff, inside_block_iff length]
  refine and_congr_right fun offsets => ?_
  constructor
  · intro all beg one
    have first := offsets.2.2 beg [] one
    by_cases zero : ppl storage beg = 0
    · exact ⟨segmentsInside_of_noPrefix first zero, fun read => absurd zero (read.some_prefix first)⟩
    · have run := all ⟨specialSegs storage, metaDataBeg storage⟩
        ((block_eq_ok_iff length offsets).mpr ⟨rfl, beg, [], one, zero⟩)
      rw [one] at run
      exact (inside_openInterval_iff room).mp run
  · intro all b built
    obtain ⟨rfl, _⟩ := (block_eq_ok_iff length offsets).mp built
    dsimp only
    split
    · rename_i beg one
      exact (inside_openInterval_iff room).mpr (all beg one)
    · exact inside_report _

theorem exists_openIntact_iff (length : LengthInside storage)
    (inside : (openIntact file storage (mbo file)).Inside) :
    (∃ opened, openIntact file storage (mbo file) = .ok opened) ↔
      (∃ beg, OneInterval storage beg ∧ RecordsRead storage beg) ∧ BlocksEnd file := by
  obtain ⟨offsets, records⟩ := (inside_openIntact_iff room length).mp inside
  constructor
  · rintro ⟨opened, run⟩
    obtain ⟨b, built, run⟩ := bind_eq_ok_iff.mp run
    obtain ⟨rfl, _⟩ := (block_eq_ok_iff length offsets).mp built
    dsimp only at run
    split at run
    · rename_i beg one
      obtain ⟨segments, blocks⟩ := records beg one
      obtain ⟨read, ends⟩ := (exists_openInterval_iff room segments blocks).mp ⟨opened, run⟩
      exact ⟨⟨beg, one, read⟩, ends⟩
    · exact absurd run not_report_eq_ok
  · rintro ⟨⟨beg, one, read⟩, ends⟩
    obtain ⟨segments, blocks⟩ := records beg one
    obtain ⟨opened, run⟩ := (exists_openInterval_iff room segments blocks).mpr ⟨read, ends⟩
    have present := read.some_prefix (offsets.2.2 beg [] one)
    have built := (block_eq_ok_iff length offsets).mpr ⟨rfl, beg, [], one, present⟩
    rw [one] at built
    exact ⟨opened, bind_eq_ok_iff.mpr ⟨_, built, run⟩⟩

omit room in
theorem openMetaBlock_of_inside (length : LengthInside storage) : openMetaBlock file crc32c storage (mbo file) =
    if ChecksumMatches storage crc32c then openIntact file storage (mbo file) else report .assertion := by
  rw [openMetaBlock, blockIntegrityCheck_of_inside length]
  by_cases intact : ChecksumMatches storage crc32c
  · rw [if_pos intact, decide_eq_true intact]
    rfl
  · rw [if_neg intact, decide_eq_false intact]
    rfl

omit room in
/-- What the meta block needs, and what the data blocks need behind it. -/
theorem inside_openMetaBlock_iff : (openMetaBlock file crc32c storage (mbo file)).Inside ↔
    LengthInside storage ∧ (ChecksumMatches storage crc32c → (openIntact file storage (mbo file)).Inside) := by
  by_cases length : LengthInside storage
  · rw [openMetaBlock_of_inside length, inside_ite, and_iff_right length]
    exact and_iff_left fun _ => inside_report _
  · rw [openMetaBlock, inside_bind_iff, inside_blockIntegrityCheck_iff]
    exact iff_of_false (fun both => length both.1) fun both => length both.1

omit room

/-- What the footer needs, and what the meta block needs behind it. -/
theorem inside_parseMetaData_iff_footer : (parseMetaData file crc32c).Inside ↔ footerSize ≤ file.length ∧
    (HasMagic file → mbo file + footerSize ≤ file.length ∧
      (openMetaBlock file crc32c (metaBlock file) (mbo file)).Inside) := by
  have sizes : mboSize + mgnSize = footerSize := rfl
  rw [parseMetaData, inside_sub_bind]
  refine and_congr_right fun footer => ?_
  rw [inside_readAt_bind, inside_readAt_bind, inside_ite, inside_sub_bind, inside_sub_bind, inside_sub_bind,
    and_iff_right fun _ => inside_report _, not_not]
  rw [sizes] at footer ⊢
  rw [and_iff_right (by omega), and_iff_right (by omega)]
  refine imp_congr_right fun _ => ?_
  rw [← mbo, ← metaBlock, ← and_assoc, ← and_assoc]
  exact and_congr_left fun _ => by omega

theorem parseMetaData_of_inside (footer : footerSize ≤ file.length)
    (opens : HasMagic file → mbo file + footerSize ≤ file.length) : parseMetaData file crc32c =
      if HasMagic file then openMetaBlock file crc32c (metaBlock file) (mbo file) else report .refused := by
  have sizes : mboSize + mgnSize = footerSize := rfl
  rw [parseMetaData, sizes, sub_bind_of_le footer, readAt_bind_of_inside (by omega),
    readAt_bind_of_inside (by omega), ← mbo]
  by_cases magic : numberAt mgnSize (file.length - footerSize + mboSize) file = magicNumber
  · have room := opens magic
    rw [if_neg (not_not.mpr magic), if_pos (show HasMagic file from magic), sub_bind_of_le (by omega), sub_bind_of_le (by omega),
      sub_bind_of_le (by omega)]
    rfl
  · rw [if_pos magic, if_neg (show ¬ HasMagic file from magic)]

/-- A file is opened without leaving it exactly if every position in it is inside. -/
theorem inside_parseMetaData_iff : (parseMetaData file crc32c).Inside ↔ FileInside file crc32c := by
  rw [inside_parseMetaData_iff_footer]
  constructor
  · rintro ⟨footer, later⟩
    have opens (magic : HasMagic file) := (later magic).1
    have head (magic : HasMagic file) := inside_openMetaBlock_iff.mp (later magic).2
    have intact (ok : Intact file crc32c) :=
      (inside_openIntact_iff (opens ok.1) (head ok.1).1).mp ((head ok.1).2 ok.2)
    exact ⟨footer, fun magic => ⟨opens magic, (head magic).1⟩, fun ok => (intact ok).1,
      fun beg ok one => ((intact ok).2 beg one).1, fun beg ok one => ((intact ok).2 beg one).2⟩
  · intro inside
    refine ⟨inside.footer, fun magic => ?_⟩
    obtain ⟨room, length⟩ := inside.metaBlock magic
    refine ⟨room, inside_openMetaBlock_iff.mpr ⟨length, fun ok => (inside_openIntact_iff room length).mpr ?_⟩⟩
    exact ⟨inside.offsets ⟨magic, ok⟩,
      fun beg one => ⟨inside.segments beg ⟨magic, ok⟩ one, inside.blocks beg ⟨magic, ok⟩ one⟩⟩

/-- A file that can be opened without leaving it is opened exactly if it is a table. -/
theorem exists_parseMetaData_iff (inside : FileInside file crc32c) :
    (∃ opened, parseMetaData file crc32c = .ok opened) ↔ WellFormed file crc32c := by
  rw [parseMetaData_of_inside inside.footer fun magic => (inside.metaBlock magic).1]
  by_cases magic : HasMagic file
  · obtain ⟨room, length⟩ := inside.metaBlock magic
    rw [if_pos magic, openMetaBlock_of_inside length]
    by_cases ok : ChecksumMatches (metaBlock file) crc32c
    · have opens : (openIntact file (metaBlock file) (mbo file)).Inside := (inside_openIntact_iff room length).mpr
        ⟨inside.offsets ⟨magic, ok⟩,
          fun beg one => ⟨inside.segments beg ⟨magic, ok⟩ one, inside.blocks beg ⟨magic, ok⟩ one⟩⟩
      rw [if_pos ok, exists_openIntact_iff room length opens]
      exact ⟨fun both => ⟨inside, ⟨magic, ok⟩, both.1, both.2⟩, fun table => ⟨table.records, table.blocks⟩⟩
    · rw [if_neg ok]
      refine iff_of_false ?_ fun table => ok table.intact.2
      rintro ⟨_, run⟩
      exact not_report_eq_ok run
  · rw [if_neg magic]
    refine iff_of_false ?_ fun table => magic table.intact.1
    rintro ⟨_, run⟩
    exact not_report_eq_ok run

/-- Opening stays inside the bytes, and every file that is not a table is reported, for exactly these files. -/
theorem parseMetaData_iff : ((parseMetaData file crc32c).Inside ∧
      (¬ WellFormed file crc32c → ∃ error, parseMetaData file crc32c = report error)) ↔
    FileInside file crc32c := by
  rw [inside_parseMetaData_iff]
  refine and_iff_left_of_imp fun inside malformed => ?_
  cases run : parseMetaData file crc32c with
  | ok opened => exact absurd ((exists_parseMetaData_iff inside).mp ⟨opened, run⟩) malformed
  | error ending =>
    cases ending with
    | reported error => exact ⟨error, rfl⟩
    | outside => exact absurd run (inside_parseMetaData_iff.mpr inside)

end File

/-- The footer of an empty file begins before it. The meta block of a file of a footer is empty, or has fewer
than no bytes. -/
theorem parseMetaData_short :
    let crc32c : ByteString → UInt32 := fun _ => 0
    let meets (file : ByteString) : Prop := (parseMetaData file crc32c).Inside ∧
      (¬ WellFormed file crc32c → ∃ error, parseMetaData file crc32c = report error)
    ¬ meets [] ∧ ¬ meets [0, 0, 0, 0, 0, 0, 0, 0, 0x47, 0xd6, 0xdd, 0xc3] ∧
      ¬ meets [0, 0, 0, 0, 0, 0, 0, 1, 0x47, 0xd6, 0xdd, 0xc3] := by
  intro crc32c meets
  refine ⟨fun empty => ?_, fun footer => ?_, fun footer => ?_⟩
  · have inside := inside_parseMetaData_iff.mp empty.1
    exact absurd inside.footer (by decide)
  · have inside := inside_parseMetaData_iff.mp footer.1
    exact absurd (inside.metaBlock (by decide)).2.1 (by decide)
  · have inside := inside_parseMetaData_iff.mp footer.1
    exact absurd (inside.metaBlock (by decide)).1 (by decide)

end Opening

end FrenzyKV
