import FrenzyKV.Table.MetaData
import FrenzyKV.Table.SstableInside

/-! The files of finished tables are opened inside their bytes (`table/sstable.cc`). -/

namespace FrenzyKV

open Bytes Framework Framework.Checked Relation

namespace Opening

variable {storage : ByteString}

/-- A number that is there is read inside. -/
theorem numberAt_of_read {width pos n : Nat} {bytes : ByteString} (positive : 0 < width)
    (read : readBigEndian width (bytes.drop pos) = some n) :
    pos + width ≤ bytes.length ∧ numberAt width pos bytes = n := by
  rw [readBigEndian] at read
  split at read
  · rename_i enough
    rw [List.length_drop] at enough
    exact ⟨by omega, Option.some.inj read⟩
  · cases read

theorem Extent.bytes_length {x : Extent} (inside : x.beg + x.size ≤ storage.length) :
    (x.bytes storage).length = x.size := by
  rw [Extent.bytes, List.length_take, List.length_drop]
  omega

section Segments

variable {p room : Nat} {raw : RawSegment} {seg : PlacedSegment} {fields fields' : MetaBlock.Fields}

/-- Items that do not go beyond the sentinel are found inside. -/
theorem parseItems_of_raw {bodies : List ByteString} {n : Nat}
    (parsed : RawSegment.parseItems (storage.drop p) room = some (bodies, n)) (fits : n ≤ room)
    (inside : p + room ≤ storage.length) :
    ∃ items, parseItems storage (p + room) p = .ok (items, p + n) ∧
      items.map (Extent.bytes storage) = bodies ∧ ∀ x ∈ items, x.beg + x.size ≤ storage.length := by
  induction room using Nat.strong_induction_on generalizing p bodies n with
  | _ room ih =>
    rw [RawSegment.parseItems] at parsed
    split at parsed
    · rename_i none_left
      obtain ⟨rfl, rfl⟩ := Prod.mk.inj (Option.some.inj parsed)
      exact ⟨[], walk_of_none (if_pos (by omega)), rfl, List.forall_mem_nil _⟩
    · rename_i some_left
      cases read : readBigEndian bsRil (storage.drop p) with
      | none =>
        rw [read] at parsed
        cases parsed
      | some ril =>
        rw [read] at parsed
        obtain ⟨field, rfl⟩ := numberAt_of_read (by decide) read
        dsimp only at parsed
        split at parsed
        · rename_i zero
          obtain ⟨rfl, rfl⟩ := Prod.mk.inj (Option.some.inj parsed)
          refine ⟨[], walk_of_none ?_, rfl, List.forall_mem_nil _⟩
          rw [itemStep, if_neg (by omega), readAt_bind_of_inside field, if_pos zero]
          rfl
        · rename_i present
          obtain ⟨⟨bodies', n'⟩, later, eq⟩ := Option.map_eq_some_iff.mp parsed
          obtain ⟨rfl, rfl⟩ := Prod.mk.inj eq
          rw [List.drop_drop] at later
          dsimp only at fits
          have width : 0 < bsRil := by decide
          have behind : p + (bsRil + numberAt bsRil p storage) +
              (room - (bsRil + numberAt bsRil p storage)) = p + room := by omega
          obtain ⟨items, walked, same, all⟩ := ih _ (by omega) later (by omega) (by omega)
          have taken : itemStep storage (p + room) p = .ok (some (⟨p + bsRil, numberAt bsRil p storage⟩,
              p + bsRil + numberAt bsRil p storage)) :=
            (itemStep_eq_some_iff storage).mpr ⟨by omega, field, present, by omega, rfl, rfl⟩
          rw [behind, ← Nat.add_assoc] at walked
          refine ⟨⟨p + bsRil, numberAt bsRil p storage⟩ :: items, ?_, ?_, ?_⟩
          · rw [parseItems, walk_of_some taken, ← parseItems, walked, Nat.add_assoc p, Nat.add_assoc p]
            rfl
          · rw [List.map_cons, same, Extent.bytes, List.drop_drop]
          · exact List.forall_mem_cons.mpr ⟨by dsimp only; omega, all⟩

theorem parseSegment_of_raw (parsed : RawSegment.parse (storage.drop p) room = some (.success raw))
    (inside : p + room ≤ storage.length) :
    ∃ seg, parseSegment storage (p + room) p = .ok (some seg) ∧
      seg.publicPrefix.bytes storage = raw.publicPrefix ∧ seg.items.map (Extent.bytes storage) = raw.items ∧
      (∀ x ∈ seg.items, x.beg + x.size ≤ storage.length) ∧ seg.stop = p + raw.size := by
  rw [RawSegment.parse] at parsed
  obtain ⟨ppl, read, parsed⟩ := Option.bind_eq_some_iff.mp parsed
  obtain ⟨field, rfl⟩ := numberAt_of_read (by decide) read
  split at parsed
  · cases parsed
  · rename_i present
    obtain ⟨⟨bodies, n⟩, items_parsed, parsed⟩ := Option.bind_eq_some_iff.mp parsed
    dsimp only at parsed
    split at parsed
    · cases parsed
    · rename_i whole
      obtain ⟨eof, field_read, eq⟩ := Option.map_eq_some_iff.mp parsed
      rw [List.drop_drop] at items_parsed field_read
      obtain ⟨field', rfl⟩ := numberAt_of_read (by decide) field_read
      have ends : p + (bsPpl + numberAt bsPpl p storage) + (room - (bsPpl + numberAt bsPpl p storage)) =
          p + room := by omega
      obtain ⟨items, walked, same, all⟩ := parseItems_of_raw items_parsed (by omega) (by omega)
      rw [ends, ← Nat.add_assoc] at walked
      have place : p + (bsPpl + numberAt bsPpl p storage + n) = p + bsPpl + numberAt bsPpl p storage + n := by omega
      rw [place] at field' eq
      refine ⟨_, (parseSegment_eq_some_iff storage).mpr
        ⟨field, present, by omega, items, _, walked, by omega, field', rfl⟩, ?_⟩
      cases eq
      refine ⟨?_, same, all, ?_⟩
      · rw [Extent.bytes, List.drop_drop]
      · dsimp only
        split
        · omega
        · rfl

theorem drop_bytes (x : Extent) (n : Nat) : (x.bytes storage).drop n = Extent.bytes storage ⟨x.beg + n, x.size - n⟩ := by
  rw [Extent.bytes, Extent.bytes, List.drop_take, List.drop_drop]

theorem take_bytes {x : Extent} {n : Nat} (le : n ≤ x.size) :
    (x.bytes storage).take n = Extent.bytes storage ⟨x.beg, n⟩ := by
  rw [Extent.bytes, Extent.bytes, List.take_take, Nat.min_eq_left le]

/-- A value that stands in its item stands in the block. -/
theorem frontValue_of_raw {items : List Extent} {v : ByteString} (front : MetaBlock.frontValue raw = some v)
    (same : items.map (Extent.bytes storage) = raw.items)
    (inside : ∀ x ∈ items, x.beg + x.size ≤ storage.length) : frontValue storage items = .ok v := by
  obtain ⟨item, first, read⟩ := Option.bind_eq_some_iff.mp front
  cases items with
  | nil =>
    rw [← same] at first
    cases first
  | cons x later =>
    rw [← same, List.map_cons] at first
    obtain rfl := Option.some.inj first
    have length := Extent.bytes_length (inside x List.mem_cons_self)
    split at read
    · rename_i uv rest run
      subst read
      obtain ⟨present, room, rfl⟩ := EntryBuffer.userValue_eq_some run
      rw [List.length_drop, length] at room
      have number : decodeBigEndian (((x.bytes storage).drop seqBytesSize).take userValueLengthBytesSize) =
          numberAt userValueLengthBytesSize (x.beg + seqBytesSize) storage := by
        rw [drop_bytes, take_bytes (by dsimp only; omega)]
        rfl
      rw [number] at present room ⊢
      have standing := inside x List.mem_cons_self
      refine frontValue_eq_ok_iff.mpr ⟨by omega, by omega, by omega, present, by omega, ?_⟩
      rw [drop_bytes, drop_bytes, take_bytes (by dsimp only; omega)]
    · cases read

theorem readSegment_of_raw (read : MetaBlock.readSegment fields raw = some fields')
    (same_key : seg.publicPrefix.bytes storage = raw.publicPrefix)
    (same : seg.items.map (Extent.bytes storage) = raw.items)
    (inside : ∀ x ∈ seg.items, x.beg + x.size ≤ storage.length) : readSegment storage fields seg = .ok fields' := by
  have value {v : ByteString} (front : MetaBlock.frontValue raw = some v) := frontValue_of_raw front same inside
  rw [MetaBlock.readSegment, ← same_key] at read
  rw [readSegment]
  split at read
  · rename_i bloom
    obtain ⟨v, front, rfl⟩ := Option.map_eq_some_iff.mp read
    rw [if_pos bloom, value front]
    rfl
  · rename_i noBloom
    rw [if_neg noBloom]
    split at read
    · rename_i last
      obtain ⟨v, front, rfl⟩ := Option.map_eq_some_iff.mp read
      rw [if_pos last, value front]
      rfl
    · rename_i noLast
      rw [if_neg noLast]
      split at read
      · rename_i first
        obtain ⟨v, front, rfl⟩ := Option.map_eq_some_iff.mp read
        rw [if_pos first, value front]
        rfl
      · rename_i noFirst
        rw [if_neg noFirst]
        exact congrArg _ (Option.some.inj read)

/-- The loop over segments none of which is cut off goes the same way inside. -/
theorem reached_of_raw {raws : List RawSegment}
    (walked : RawBlock.walkSegments false (storage.drop p) room = (raws, true))
    (read : raws.foldlM MetaBlock.readSegment fields = some fields') (inside : p + room ≤ storage.length) :
    ∃ last, ReflTransGen (Hops (segmentStep storage (p + room))) (p, fields) (last, fields') ∧ p + room ≤ last := by
  induction room using Nat.strong_induction_on generalizing p raws fields with
  | _ room ih =>
    rw [RawBlock.walkSegments] at walked
    split at walked
    · rename_i none_left
      obtain ⟨rfl, _⟩ := Prod.mk.inj walked
      obtain rfl := Option.some.inj read
      exact ⟨p, .refl, by omega⟩
    · rename_i some_left
      split at walked
      · cases walked
      · cases walked
      · rename_i raw parsed
        obtain ⟨rfl, ends⟩ := Prod.mk.inj walked
        rw [List.foldlM_cons] at read
        obtain ⟨middle, first, later⟩ := Option.bind_eq_some_iff.mp read
        obtain ⟨seg, placed, same_key, same, items_inside, stop⟩ := parseSegment_of_raw parsed inside
        have fields_read := readSegment_of_raw first same_key same items_inside
        have hop : Hops (segmentStep storage (p + room)) (p, fields) (p + raw.size, middle) := by
          refine ⟨seg, ?_⟩
          rw [segmentStep, if_neg (by dsimp only; omega), bind_eq_ok_iff]
          refine ⟨some seg, placed, bind_eq_ok_iff.mpr ⟨middle, fields_read, ?_⟩⟩
          rw [stop]
          rfl
        rw [List.drop_drop] at ends later
        by_cases whole : raw.size ≤ room
        · have positive := RawSegment.size_pos_of_parse parsed
          have place : p + raw.size + (room - raw.size) = p + room := by omega
          obtain ⟨last, reached, behind⟩ := ih (room - raw.size) (by omega) (Prod.ext rfl ends) later (by omega)
          rw [place] at reached behind
          exact ⟨last, reached.head hop, behind⟩
        · rw [Nat.sub_eq_zero_of_le (by omega), RawBlock.walkSegments, if_pos rfl] at later
          obtain rfl := Option.some.inj later
          exact ⟨p + raw.size, .single hop, by omega⟩

/-- The records that are read in the bytes are read inside. -/
theorem readRecords_of_raw {raws : List RawSegment}
    (walked : RawBlock.walkSegments false (storage.drop p) room = (raws, true))
    (read : raws.foldlM MetaBlock.readSegment ⟨[], [], []⟩ = some fields)
    (kept : ¬ (fields.filterRep = [] ∨ fields.lastUk = [] ∨ fields.firstUk = []))
    (inside : p + room ≤ storage.length) : readRecords storage (p + room) p = .ok fields := by
  obtain ⟨last, reached, behind⟩ := reached_of_raw walked read inside
  have ends : segmentStep storage (p + room) (last, fields) = .ok none := if_pos behind
  obtain ⟨segs, run⟩ := walk_of_reached reached ends
  rw [readRecords, bind_eq_ok_iff]
  exact ⟨(segs, last, fields), run, if_neg kept⟩

/-- A walk that is not cut short is the same for both ways to end. -/
theorem walkSegments_of_strict {mem : ByteString} {raws : List RawSegment}
    (walked : RawBlock.walkSegments false mem room = (raws, true)) (tolerant : Bool) :
    RawBlock.walkSegments tolerant mem room = (raws, true) := by
  induction room using Nat.strong_induction_on generalizing mem raws with
  | _ room ih =>
    rw [RawBlock.walkSegments] at walked ⊢
    split at walked
    · rename_i none_left
      rw [if_pos none_left]
      exact walked
    · rename_i some_left
      rw [if_neg some_left]
      split at walked
      · cases walked
      · cases walked
      · rename_i raw parsed
        obtain ⟨rfl, ends⟩ := Prod.mk.inj walked
        have positive := RawSegment.size_pos_of_parse parsed
        have later := ih (room - raw.size) (by omega) (Prod.ext rfl ends)
        dsimp only
        rw [later]

end Segments

section Block

variable {crc32c : ByteString → UInt32}

theorem intact_of_raw (check : BlockStorage.blockIntegrityCheck storage crc32c = some true) :
    LengthInside storage ∧ ChecksumMatches storage crc32c := by
  have sizes := fieldSizes
  obtain ⟨content, found, check⟩ := Option.bind_eq_some_iff.mp check
  obtain ⟨ecrc32, embeded, same⟩ := Option.map_eq_some_iff.mp check
  obtain ⟨wcBeg, wc, cut⟩ := Option.bind_eq_some_iff.mp found
  obtain ⟨crcBeg, crc, wc⟩ := Option.bind_eq_some_iff.mp wc
  obtain ⟨crcBeg', crc', embeded⟩ := Option.bind_eq_some_iff.mp embeded
  rw [crc] at crc'
  obtain rfl := Option.some.inj crc'
  obtain ⟨btl', read, crc⟩ := Option.bind_eq_some_iff.mp crc
  obtain ⟨_, length⟩ := numberAt_of_read (by decide) (show readBigEndian btlSize (storage.drop 0) = _ from read)
  obtain ⟨crcRoom, place⟩ := Option.ite_none_right_eq_some.mp crc
  obtain ⟨wcRoom, wcPlace⟩ := Option.ite_none_right_eq_some.mp wc
  obtain rfl := Option.some.inj place
  obtain rfl := Option.some.inj wcPlace
  obtain ⟨⟨contentRoom, _⟩, contentSame⟩ := Option.ite_none_right_eq_some.mp cut
  obtain ⟨crcInside, crcSame⟩ := numberAt_of_read (by decide) embeded
  rw [← btl] at length
  rw [← length] at crcRoom wcRoom contentRoom crcInside crcSame contentSame
  refine ⟨⟨by omega, by omega⟩, ?_⟩
  rw [ChecksumMatches, blockContent, crcSame, ← of_decide_eq_true same, ← Option.some.inj contentSame]
  rfl

/-- The fields behind the content stand where they are looked for. -/
theorem metaDataBeg_of_raw (length : LengthInside storage) :
    BlockStorage.nsbsBeg storage = some (nsbsBeg storage) ∧ BlockStorage.nsbsValue storage = some (nsbs storage) ∧
      BlockStorage.metaDataBeg storage = if nsbs storage * sbsoSize ≤ nsbsBeg storage then
        some (metaDataBeg storage) else none := by
  have sizes := fieldSizes
  obtain ⟨room, there⟩ := length
  have read : readBigEndian btlSize storage = some (btl storage) := if_pos (by omega)
  have beg : BlockStorage.nsbsBeg storage = some (nsbsBeg storage) := by
    rw [BlockStorage.nsbsBeg, read, Option.bind_some, if_pos (by omega)]
    rfl
  have value : BlockStorage.nsbsValue storage = some (nsbs storage) := by
    rw [BlockStorage.nsbsValue, beg, Option.bind_some, readBigEndianAt, readBigEndian, List.length_drop,
      if_pos (by rw [nsbsBeg]; omega)]
    rfl
  refine ⟨beg, value, ?_⟩
  rw [BlockStorage.metaDataBeg, beg, value]
  rfl

theorem readSbsos_of_raw {n cur : Nat} {found : List Nat}
    (read : RawBlock.readSbsos n (storage.drop cur) = some found) : found = sbsos storage n cur := by
  induction n generalizing cur found with
  | zero => exact (Option.some.inj read).symm
  | succ n ih =>
    obtain ⟨sbso, first, later⟩ := Option.bind_eq_some_iff.mp read
    obtain ⟨_, rfl⟩ := numberAt_of_read (by decide) first
    obtain ⟨rest, more, rfl⟩ := Option.map_eq_some_iff.mp later
    rw [List.drop_drop] at more
    rw [sbsos, ih more]

/-- A block of one interval is made inside from what it is made of in its bytes. -/
theorem block_of_raw (length : LengthInside storage) {b : RawBlock} (parsed : RawBlock.parse storage = some b)
    {beg : Nat} (one : b.specialSegs = [beg]) :
    b.storage = storage ∧ b.metaDataBeg = metaDataBeg storage ∧ beg < metaDataBeg storage ∧
      block storage = .ok ⟨[beg], metaDataBeg storage⟩ := by
  obtain ⟨_, value, place⟩ := metaDataBeg_of_raw length
  obtain ⟨pos, found, parsed⟩ := Option.bind_eq_some_iff.mp parsed
  obtain ⟨n, count, parsed⟩ := Option.bind_eq_some_iff.mp parsed
  obtain ⟨segs, read, parsed⟩ := Option.bind_eq_some_iff.mp parsed
  rw [place] at found
  rw [value] at count
  obtain ⟨fits, eq⟩ := Option.ite_none_right_eq_some.mp found
  obtain rfl := Option.some.inj eq
  obtain rfl := Option.some.inj count
  obtain rfl := readSbsos_of_raw read
  have room := room_of_inside length fits
  split at parsed
  · cases parsed
  · rename_i beg' later special
    obtain ⟨first, head, rfl⟩ := Option.map_eq_some_iff.mp parsed
    obtain ⟨rfl, rfl⟩ := List.cons.inj (special.symm.trans (show _ = [beg] from one))
    rw [List.headD_nil, RawBlock.segmentsInSingleInterval, RawBlock.walkSegments] at head
    split at head
    · cases head
    · rename_i some_left
      split at head
      · cases head
      · cases head
      · rename_i raw first_parsed
        have before : beg' < metaDataBeg storage := by omega
        have ends : beg' + (metaDataBeg storage - beg') = metaDataBeg storage := by omega
        obtain ⟨seg, placed, _⟩ := parseSegment_of_raw first_parsed (by omega)
        rw [ends] at placed
        have one_inside : ∀ sbso ∈ sbsos storage (nsbs storage) (metaDataBeg storage), sbso ≤ storage.length := by
          rw [special]
          exact List.forall_mem_singleton.mpr (by omega)
        have some_segs : ¬ nsbs storage = 0 := by
          rw [← specialSegs_eq_nil_iff, specialSegs, special]
          exact List.cons_ne_nil _ _
        refine ⟨rfl, rfl, before, ?_⟩
        rw [block_of_inside length, sub_bind_of_le fits, ← metaDataBeg, if_neg some_segs,
          readSbsos_of_inside room one_inside, special]
        refine bind_eq_ok_iff.mpr ⟨_, rfl, bind_eq_ok_iff.mpr ⟨seg, ?_, rfl⟩⟩
        rw [List.headD_nil, firstSegment, if_neg (by omega), placed]
        rfl

theorem strict_of_segments {b : RawBlock} {beg : Nat} (one : b.specialSegs = [beg]) (whole : b.segments.isSome) :
    ∃ raws, RawBlock.walkSegments false (b.storage.drop beg) (b.metaDataBeg - beg) = (raws, true) := by
  obtain ⟨raws, segments⟩ := Option.isSome_iff_exists.mp whole
  rw [RawBlock.segments, one, List.head?_cons, Option.bind_some] at segments
  obtain ⟨ends, eq⟩ := Option.ite_none_right_eq_some.mp segments
  exact ⟨raws, Prod.ext (Option.some.inj eq) ends⟩

/-- A meta block none of whose segments is cut off is opened inside as it is in its bytes. -/
theorem records_of_raw {fields : MetaBlock.Fields}
    (parsed : RawSstable.parseMetaBlock crc32c storage = some fields)
    (whole : ∀ b, RawBlock.parse storage = some b → b.segments.isSome) :
    LengthInside storage ∧ ChecksumMatches storage crc32c ∧ ∃ beg,
      block storage = .ok ⟨[beg], metaDataBeg storage⟩ ∧
        readRecords storage (metaDataBeg storage) beg = .ok fields := by
  obtain ⟨check, parsed⟩ := Option.ite_none_right_eq_some.mp parsed
  obtain ⟨length, checksum⟩ := intact_of_raw check
  refine ⟨length, checksum, ?_⟩
  obtain ⟨b, block_parsed, parsed⟩ := Option.bind_eq_some_iff.mp parsed
  split at parsed
  · rename_i beg one
    obtain ⟨there, place, before, built⟩ := block_of_raw length block_parsed one
    obtain ⟨raws, walked⟩ := strict_of_segments one (whole b block_parsed)
    rw [there, place] at walked
    rw [RawBlock.segmentsInSingleInterval, place, walkSegments_of_strict walked true] at parsed
    obtain ⟨_, parsed⟩ := Option.ite_none_right_eq_some.mp parsed
    obtain ⟨fields', read, parsed⟩ := Option.bind_eq_some_iff.mp parsed
    obtain ⟨kept, eq⟩ := Option.ite_none_left_eq_some.mp parsed
    obtain rfl := Option.some.inj eq
    have room : metaDataBeg storage ≤ storage.length := by
      obtain ⟨_, inside⟩ := length
      rw [metaDataBeg, nsbsBeg]
      omega
    have ends : beg + (metaDataBeg storage - beg) = metaDataBeg storage := by omega
    have records := readRecords_of_raw walked read kept (by omega)
    rw [ends] at records
    exact ⟨beg, built, records⟩
  · cases parsed

end Block

section File

variable {file : ByteString} {crc32c : ByteString → UInt32}

theorem footer_of_raw {m : Nat} (footer : RawSstable.footerMbo file = some m) :
    footerSize ≤ file.length ∧ HasMagic file ∧ m = mbo file := by
  have sizes : mboSize = 8 ∧ mgnSize = 4 ∧ footerSize = 12 := by decide
  rw [RawSstable.footerMbo] at footer
  split at footer
  · cases footer
  · rename_i room
    obtain ⟨m', read, footer⟩ := Option.bind_eq_some_iff.mp footer
    obtain ⟨magicNum, magic, footer⟩ := Option.bind_eq_some_iff.mp footer
    obtain ⟨same, eq⟩ := Option.ite_none_right_eq_some.mp footer
    obtain rfl := Option.some.inj eq
    obtain ⟨_, rfl⟩ := numberAt_of_read (by decide) read
    obtain ⟨_, rfl⟩ := numberAt_of_read (by decide) magic
    refine ⟨by omega, ?_, rfl⟩
    have place : file.length - footerSize + mboSize = file.length - mgnSize := by omega
    rw [HasMagic, place]
    exact same

theorem metaBlock_of_raw {storage : ByteString}
    (sliced : slice (mbo file) (file.length - (mboSize + mgnSize)) file = some storage)
    (footer : footerSize ≤ file.length) : mbo file + footerSize ≤ file.length ∧ storage = metaBlock file := by
  have sizes : mboSize + mgnSize = footerSize := rfl
  rw [sizes] at sliced
  obtain ⟨⟨before, _⟩, eq⟩ := Option.ite_none_right_eq_some.mp sliced
  refine ⟨by omega, ?_⟩
  have size : file.length - footerSize - mbo file = file.length - mbo file - mboSize - mgnSize := by omega
  rw [metaBlock, ← Option.some.inj eq, size]
  rfl

/-- The blocks that end in the file are found inside. -/
theorem offsets_of_raw (room : mbo file + footerSize ≤ file.length) {p : Nat} {offsets : List (Nat × Nat)}
    (generated : RawSstable.generateBlockOffsets file (mbo file) p = some offsets)
    (inside : ∀ x ∈ offsets, x.1 + x.2 ≤ file.length) (size : Nat → Nat)
    (shrinks : ∀ s s', Hops (blockStep file (mbo file)) s s' → size s' < size s) :
    ∃ last, walk (blockStep file (mbo file)) size shrinks p = .ok (offsets, last) := by
  induction left : mbo file - p using Nat.strong_induction_on generalizing p offsets with
  | _ n ih =>
    rw [RawSstable.generateBlockOffsets] at generated
    split at generated
    · rename_i ended
      obtain rfl := Option.some.inj generated
      exact ⟨p, walk_of_none (if_pos ended)⟩
    · rename_i before
      obtain ⟨currentBtl, read, generated⟩ := Option.bind_eq_some_iff.mp generated
      obtain ⟨_, rfl⟩ := numberAt_of_read (by decide) read
      split at generated
      · cases generated
      · rename_i present
        obtain ⟨later, more, rfl⟩ := Option.map_eq_some_iff.mp generated
        obtain ⟨here, rest⟩ := List.forall_mem_cons.mp inside
        obtain ⟨last, walked⟩ := ih _ (by omega) more rest rfl
        have taken : blockStep file (mbo file) p =
            .ok (some ((p, numberAt btlSize p file), p + numberAt btlSize p file)) := by
          rw [blockStep, if_neg before, btlValueImpl_of_lt room (Nat.not_le.mp before)]
          dsimp only
          rw [if_neg present, require_bind_eq_ok_iff]
          exact ⟨here, rfl⟩
        refine ⟨last, ?_⟩
        rw [walk_of_some taken, walked]
        rfl

/-- A file that is opened from its bytes, with no segment cut off and no block beyond the end, is opened inside
with the same members and offsets. -/
theorem parseMetaData_of_raw {opened : MetaBlock.Fields × List (Nat × Nat)}
    (parsed : RawSstable.parseMetaData crc32c file = some opened)
    (whole : ∀ b, RawBlock.parse (metaBlock file) = some b → b.segments.isSome)
    (inside : ∀ x ∈ opened.2, x.1 + x.2 ≤ file.length) : parseMetaData file crc32c = .ok opened := by
  obtain ⟨m, footer, parsed⟩ := Option.bind_eq_some_iff.mp parsed
  obtain ⟨storage, sliced, parsed⟩ := Option.bind_eq_some_iff.mp parsed
  obtain ⟨fields, meta_parsed, parsed⟩ := Option.bind_eq_some_iff.mp parsed
  obtain ⟨offsets, generated, rfl⟩ := Option.map_eq_some_iff.mp parsed
  obtain ⟨footer_inside, magic, rfl⟩ := footer_of_raw footer
  obtain ⟨room, rfl⟩ := metaBlock_of_raw sliced footer_inside
  obtain ⟨length, checksum, beg, built, records⟩ := records_of_raw meta_parsed whole
  obtain ⟨last, walked⟩ := offsets_of_raw room generated inside (mbo file - ·)
    fun _ _ hops => by have := (hops_blockStep_iff file).mp hops; omega
  have blocks : generateBlockOffsetsImpl file (mbo file) = .ok (offsets, last) := walked
  rw [parseMetaData_of_inside footer_inside fun _ => room, if_pos magic, openMetaBlock_of_inside length,
    if_pos checksum, openIntact, bind_eq_ok_iff]
  refine ⟨_, built, ?_⟩
  dsimp only
  rw [openInterval, records, bind_eq_ok_iff]
  exact ⟨fields, rfl, bind_eq_ok_iff.mpr ⟨_, blocks, rfl⟩⟩

end File

end Opening

namespace RawSstable

variable {d : TableDeps} {r : RawSstableBuilder} {es : List KvEntry} {sizeLimit : Nat} {file : ByteString}

theorem partOffsets_inside (parts : List ByteString) (offset : Nat) :
    ∀ x ∈ partOffsets offset parts, x.1 + x.2 ≤ offset + parts.flatten.length := by
  induction parts generalizing offset with
  | nil => exact List.forall_mem_nil _
  | cons part parts ih =>
    rw [List.flatten_cons, List.length_append, ← Nat.add_assoc]
    exact List.forall_mem_cons.mpr ⟨Nat.le_add_right _ _, ih (offset + part.length)⟩

theorem metaBlock_of_layout {parts : List ByteString} {storage : ByteString}
    (layout : file = parts.flatten ++ (storage ++ (encodeBigEndian mboSize parts.flatten.length ++
      encodeBigEndian mgnSize magicNumber))) (footer : footerMbo file = some parts.flatten.length) :
    Opening.metaBlock file = storage := by
  obtain ⟨inside, _, place⟩ := Opening.footer_of_raw footer
  have length : file.length = parts.flatten.length + (storage.length + (mboSize + mgnSize)) := by
    rw [layout, List.length_append, List.length_append, List.length_append, encodeBigEndian_length,
      encodeBigEndian_length]
  have sliced : slice parts.flatten.length (file.length - (mboSize + mgnSize)) file = some storage :=
    slice_of_eq layout rfl (by omega)
  rw [place] at sliced
  exact (Opening.metaBlock_of_raw sliced inside).2.symm

/-- The file of a finished table with wide intervals and a filter is a table, and it is opened inside. -/
theorem wellFormed_of_finished (built : (RawSstableBuilder.make sizeLimit).bind (·.addAll d es) = some r)
    (finished : r.finish d = some file) (wide : 5 ≤ d.opt.maxBlockSegmentsNumber)
    (rep : SstableBuilder.filterAfter d.filter none [] es ≠ []) : Opening.WellFormed file d.crc32c := by
  obtain ⟨fresh, made, added⟩ := Option.bind_eq_some_iff.mp built
  have holds : RawSstableBuilder.Holds d es r := (RawSstableBuilder.holds_make made).addAll added
  obtain ⟨flushed, flush, ends⟩ := RawSstableBuilder.finish_cases finished
  have holds' := holds.flush flush
  rcases ends with ⟨empty, -⟩ | ⟨rep', -, last, first, size, metaBuilder, metaAdded, small, layout⟩
  · rw [holds'.filterRep] at empty
    exact absurd empty rep
  · obtain ⟨parts, file', stored⟩ := holds'.parts
    rw [holds'.appended, file'] at layout
    obtain ⟨footer, parsed⟩ := @parseMetaData_of_layout file d.crc32c parts _ stored size layout
    rw [MetaBlock.parseMetaBlock_seal metaAdded small wide last first rep'] at parsed
    have fits := MetaBlock.finish_fits metaAdded small
    have standing := BlockStorage.sealBlock_holds small
    have run := Opening.parseMetaData_of_raw parsed ?_ ?_
    · have inside : Opening.FileInside file d.crc32c := by
        rw [← Opening.inside_parseMetaData_iff, run]
        exact inside_ok _
      exact (Opening.exists_parseMetaData_iff inside).mp ⟨_, run⟩
    · intro b block_parsed
      rw [metaBlock_of_layout layout footer, Block.parse_of_open fits standing] at block_parsed
      obtain rfl := Option.some.inj block_parsed
      exact Option.isSome_iff_exists.mpr ⟨_, Block.segments_of_open fits standing⟩
    · intro x mem
      have := partOffsets_inside parts 0 x mem
      have length := congrArg List.length layout
      rw [List.length_append] at length
      omega

end RawSstable

end FrenzyKV
