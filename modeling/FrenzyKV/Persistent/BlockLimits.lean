import FrenzyKV.Math.PartialMap
import FrenzyKV.Persistent.BlockParse

namespace FrenzyKV

open Bytes Framework

namespace BlockSegment

/-- The special segment behind some special segment offsets. -/
theorem segment_of_specialOffset {offset pos : Nat} {segs : List BlockSegment} {before after : List Nat}
    (split : specialOffsets offset segs = before ++ pos :: after) :
    ∃ front seg back, segs = front ++ seg :: back ∧ before.length ≤ front.length ∧
      pos = offset + (front.flatMap bytes).length ∧
      after = specialOffsets (pos + seg.bytes.length) back := by
  induction segs generalizing offset before with
  | nil =>
    have := congrArg List.length split
    simp [specialOffsets] at this
  | cons first segs ih =>
    rw [specialOffsets] at split
    by_cases special : first.special = true
    · rw [if_pos special, List.singleton_append] at split
      cases before with
      | nil =>
        obtain ⟨rfl, rfl⟩ := List.cons_eq_cons.mp split
        exact ⟨[], first, segs, rfl, le_rfl, rfl, rfl⟩
      | cons x before =>
        obtain ⟨front, seg, back, rfl, length, eq, rest⟩ := ih (List.cons_eq_cons.mp split).2
        refine ⟨first :: front, seg, back, rfl, Nat.succ_le_succ length, ?_, rest⟩
        rw [eq, List.flatMap_cons, List.length_append, Nat.add_assoc]
    · rw [if_neg special, List.nil_append] at split
      obtain ⟨front, seg, back, rfl, length, eq, rest⟩ := ih split
      refine ⟨first :: front, seg, back, rfl, Nat.le_succ_of_le length, ?_, rest⟩
      rw [eq, List.flatMap_cons, List.length_append, Nat.add_assoc]

end BlockSegment

namespace RawSegment

theorem publicPrefix_of_parse {mem : ByteString} {room : Nat} {seg : RawSegment}
    (parsed : parse mem room = some (.success seg)) : seg.publicPrefix.length < 2 ^ 16 := by
  rw [parse] at parsed
  obtain ⟨ppl, read, parsed⟩ := Option.bind_eq_some_iff.mp parsed
  have short : ppl < 2 ^ 16 := readBigEndian_lt read
  split at parsed
  · cases parsed
  · obtain ⟨items, _, parsed⟩ := Option.bind_eq_some_iff.mp parsed
    dsimp only at parsed
    split at parsed
    · cases parsed
    · obtain ⟨eof, _, parsed⟩ := Option.map_eq_some_iff.mp parsed
      cases parsed
      exact (List.length_take_le ppl _).trans_lt short

/-- An entry has the key of its segment, a number of four bytes, and no empty value. -/
theorem eq_of_entryOf {uk item : ByteString} {e : KvEntry} (read : entryOf uk item = some e) :
    e.userKey = ⟨uk⟩ ∧ e.seq < sequenceNumberModulus ∧ e.value ≠ some [] := by
  rw [entryOf] at read
  split at read
  · rename_i e' rest run
    obtain rfl := Option.some.inj read
    obtain ⟨seq, left, seqRun, run⟩ := ByteReader.bind_eq_ok run
    obtain ⟨value, left', valueRun, run⟩ := ByteReader.bind_eq_ok run
    obtain ⟨rfl, _⟩ := Prod.mk.inj (Except.ok.inj run)
    have number : seq < sequenceNumberModulus := ByteReader.number_lt seqRun
    refine ⟨rfl, number, fun empty => ?_⟩
    have empty : value = some [] := empty
    rw [EntryBuffer.userValue] at valueRun
    obtain ⟨len, behind, _, valueRun⟩ := ByteReader.bind_eq_ok valueRun
    by_cases zero : len = 0
    · rw [if_pos zero] at valueRun
      obtain ⟨rfl, _⟩ := Prod.mk.inj (Except.ok.inj valueRun)
      cases empty
    · rw [if_neg zero] at valueRun
      obtain ⟨field, _, taken, valueRun⟩ := ByteReader.bind_eq_ok valueRun
      obtain ⟨rfl, _⟩ := Prod.mk.inj (Except.ok.inj valueRun)
      have length := ByteReader.length_of_take taken
      rw [Option.some.inj empty, List.length_nil] at length
      exact zero length.symm
  · cases read

end RawSegment

namespace RawBlock

/-- A special segment offset below 2^16 begins with two zero bytes, which is no segment. -/
theorem walkSegments_sbso (tolerant : Bool) {sbso : Nat} (small : sbso < 2 ^ 16) (rest : ByteString)
    {room : Nat} (positive : 0 < room) :
    walkSegments tolerant (encodeBigEndian sbsoSize sbso ++ rest) room = ([], false) := by
  have high : ∀ n, n < 2 ^ 16 → encodeBigEndian sbsoSize n =
      encodeBigEndian bsPpl 0 ++ encodeBigEndian bsPpl n := by
    intro n less
    have top : n / 256 ^ 3 = 0 := by omega
    have next : n / 256 ^ 2 = 0 := by omega
    simp only [sbsoSize, bsPpl, encodeBigEndian, top, next, Nat.zero_div, List.cons_append,
      List.nil_append]
  have nothing : RawSegment.parse (encodeBigEndian sbsoSize sbso ++ rest) room = none := by
    rw [RawSegment.parse, high sbso small, List.append_assoc, readBigEndian_encode (by decide)]
    rfl
  rw [walkSegments, if_neg positive.ne']
  split
  · rfl
  · rename_i cut
    rw [nothing] at cut
    cases cut
  · rename_i found
    rw [nothing] at found
    cases found

/-- Segments with special segment offsets behind them are walked into these. -/
theorem entries_stuck {raw : RawBlock} {segs : List BlockSegment} {pos sbso room : Nat} {later : List Nat}
    {rest : ByteString} (fits : ∀ seg ∈ segs, seg.Fits) (small : sbso < 2 ^ 16) (positive : 0 < room)
    (starts : raw.specialSegs = pos :: later)
    (at_pos : raw.storage.drop pos =
      segs.flatMap BlockSegment.bytes ++ (encodeBigEndian sbsoSize sbso ++ rest))
    (length : raw.metaDataBeg - pos = (segs.flatMap BlockSegment.bytes).length + room) :
    raw.entries = none := by
  have stuck : (walkSegments false (encodeBigEndian sbsoSize sbso ++ rest) room).2 = false := by
    rw [walkSegments_sbso false small _ positive]
  rw [RawBlock.entries, RawBlock.segments, starts]
  simp only [List.head?_cons, Option.bind_some, at_pos, length, walkSegments_append false fits, stuck]
  rfl

theorem publicPrefix_of_walk (tolerant : Bool) (mem : ByteString) (room : Nat) :
    ∀ seg ∈ (walkSegments tolerant mem room).1, seg.publicPrefix.length < 2 ^ 16 := by
  induction room using Nat.strong_induction_on generalizing mem with
  | _ room ih =>
    intro seg mem_seg
    rw [walkSegments] at mem_seg
    split at mem_seg
    · cases mem_seg
    · split at mem_seg
      · cases mem_seg
      · cases mem_seg
      · rename_i first parsed
        cases List.mem_cons.mp mem_seg with
        | inl same =>
          rw [same]
          exact RawSegment.publicPrefix_of_parse parsed
        | inr later =>
          have size := RawSegment.size_pos_of_parse parsed
          exact ih _ (by omega) _ seg later

/-- An entry of a block is read from an item of a segment whose prefix has a length of two bytes. -/
theorem item_of_entries {b : RawBlock} {es : List KvEntry} (read : b.entries = some es) {e : KvEntry}
    (mem : e ∈ es) : ∃ (seg : RawSegment) (item : ByteString), seg.publicPrefix.length < 2 ^ 16 ∧
      RawSegment.entryOf seg.userKey item = some e := by
  obtain ⟨segs, walked, read⟩ := Option.bind_eq_some_iff.mp read
  obtain ⟨ess, all, rfl⟩ := Option.map_eq_some_iff.mp read
  obtain ⟨es, memEs, inside⟩ := List.mem_flatten.mp mem
  obtain ⟨seg, memSeg, entries⟩ := PartialMap.mem_of_mapM all memEs
  obtain ⟨item, _, entry⟩ := PartialMap.mem_of_mapM entries inside
  obtain ⟨beg, _, walked⟩ := Option.bind_eq_some_iff.mp walked
  dsimp only at walked
  split at walked
  · obtain rfl := Option.some.inj walked
    exact ⟨seg, item, publicPrefix_of_walk _ _ _ seg memSeg, entry⟩
  · cases walked

theorem size_of_entryOf {seg : RawSegment} {item : ByteString} {e : KvEntry}
    (short : seg.publicPrefix.length < 2 ^ 16) (entry : RawSegment.entryOf seg.userKey item = some e) :
    e.userKey.size ≤ 65533 := by
  rw [(RawSegment.eq_of_entryOf entry).1, UserKey.size, RawSegment.userKey, List.length_drop,
    userKeyLengthBytesSize]
  omega

/-- Whatever its bytes are, a block yields no key beyond 65533 bytes and no empty value. -/
theorem bounds_of_entries {b : RawBlock} {es : List KvEntry} (read : b.entries = some es) :
    ∀ e ∈ es, e.userKey.size ≤ 65533 ∧ e.value ≠ some [] := by
  intro e mem
  obtain ⟨seg, item, short, entry⟩ := item_of_entries read mem
  exact ⟨size_of_entryOf short entry, (RawSegment.eq_of_entryOf entry).2.2⟩

theorem numbers_of_entries {b : RawBlock} {es : List KvEntry} (read : b.entries = some es) :
    ∀ e ∈ es, e.seq < sequenceNumberModulus := by
  intro e mem
  obtain ⟨seg, item, -, entry⟩ := item_of_entries read mem
  exact (RawSegment.eq_of_entryOf entry).2.1

end RawBlock

namespace Block

variable {b : Block} {storage : ByteString}

/-- The count says, in the width of its field, how many of the special segment offsets are kept;
the others are taken for data. -/
theorem content_split (b : Block) : ∃ dropped kept,
    b.sbsos = dropped ++ kept ∧ (2 ^ 16 ≤ b.sbsos.length → 2 ^ 16 ≤ dropped.length) ∧
      kept.length < 2 ^ 16 ∧
      b.content = b.data ++ dropped.flatMap (encodeBigEndian sbsoSize) ++
        kept.flatMap (encodeBigEndian sbsoSize) ++ encodeBigEndian nsbsSize kept.length := by
  let n := b.sbsos.length
  have split : b.sbsos = b.sbsos.take (n - n % 2 ^ 16) ++ b.sbsos.drop (n - n % 2 ^ 16) :=
    (List.take_append_drop _ _).symm
  have low : n % 2 ^ 16 < 2 ^ 16 := Nat.mod_lt n (by decide)
  have below : n % 2 ^ 16 ≤ n := Nat.mod_le _ _
  have keptLength : (b.sbsos.drop (n - n % 2 ^ 16)).length = n % 2 ^ 16 := by
    rw [List.length_drop]
    change n - (n - n % 2 ^ 16) = n % 2 ^ 16
    omega
  have count : encodeBigEndian nsbsSize n = encodeBigEndian nsbsSize (n % 2 ^ 16) :=
    (encodeBigEndian_mod nsbsSize n).symm
  refine ⟨_, _, split, ?_, by omega, ?_⟩
  · intro many
    rw [List.length_take_of_le (Nat.sub_le n _)]
    have many : 2 ^ 16 ≤ n := many
    omega
  · rw [keptLength, content, count]
    conv_lhs => rw [split, List.flatMap_append]
    simp only [List.append_assoc]

theorem head_sbsos (special : b.segments.head?.all (·.special) = true) (some_sbso : b.sbsos ≠ [])
    (total : btlSize + (b.content.length + (wcSize + crc32Size)) ≤ maxBtl) :
    ∃ others, b.sbsos = btlSize :: others := by
  rw [sbsos_eq total] at some_sbso ⊢
  cases eq : b.segments with
  | nil =>
    rw [eq] at some_sbso
    exact absurd rfl some_sbso
  | cons first later =>
    rw [eq] at special
    have special : first.special = true := special
    rw [BlockSegment.specialOffsets, if_pos special, List.singleton_append]
    exact ⟨_, rfl⟩

/-- A block is opened where the first kept offset points; behind its segments come the offsets that
are not kept. -/
theorem parse_of_split {dropped later : List Nat} {pos : Nat}
    (segmentsFit : ∀ seg ∈ b.segments, seg.Fits)
    (total : btlSize + (b.content.length + (wcSize + crc32Size)) ≤ maxBtl)
    (holds : BlockStorage.Holds storage b.content) (sbsos : b.sbsos = dropped ++ pos :: later)
    (few : (pos :: later).length < 2 ^ 16)
    (metaData : b.content = b.data ++ dropped.flatMap (encodeBigEndian sbsoSize) ++
      (pos :: later).flatMap (encodeBigEndian sbsoSize) ++ encodeBigEndian nsbsSize (pos :: later).length) :
    ∃ front seg back more, b.segments = front ++ seg :: back ∧ dropped.length ≤ front.length ∧
      pos = btlSize + (front.flatMap BlockSegment.bytes).length ∧
      later = BlockSegment.specialOffsets (pos + seg.bytes.length) back ∧
      storage.drop pos = (seg :: back).flatMap BlockSegment.bytes ++
        (dropped.flatMap (encodeBigEndian sbsoSize) ++ more) ∧
      RawBlock.parse storage = some ⟨storage, pos :: later,
        btlSize + (b.data ++ dropped.flatMap (encodeBigEndian sbsoSize)).length,
        seg.userKey.serialize⟩ := by
  obtain ⟨tail, _, layout⟩ := holds.layout
  have width := encodeBigEndian_length btlSize (btlSize + (b.content.length + (wcSize + crc32Size)))
  rw [metaData] at holds
  have small : ∀ sbso ∈ pos :: later, sbso < 2 ^ 32 := fun sbso mem =>
    b.sbso_lt sbso (sbsos ▸ List.mem_append_right dropped mem)
  have offsets := sbsos_eq total
  rw [sbsos] at offsets
  obtain ⟨front, seg, back, segments, length, place, rest⟩ :=
    BlockSegment.segment_of_specialOffset offsets.symm
  have fit : seg.Fits := segmentsFit seg (segments ▸ List.mem_append_right front List.mem_cons_self)
  have dataLength : b.data.length =
      (front.flatMap BlockSegment.bytes).length + ((seg :: back).flatMap BlockSegment.bytes).length := by
    rw [data, segments, List.flatMap_append, List.length_append]
  have whole : ((seg :: back).flatMap BlockSegment.bytes).length =
      seg.bytes.length + (back.flatMap BlockSegment.bytes).length := by
    rw [List.flatMap_cons, List.length_append]
  -- behind the chosen segment come the others, and then all special segment offsets
  have at_pos : storage.drop pos = (seg :: back).flatMap BlockSegment.bytes ++
      (dropped.flatMap (encodeBigEndian sbsoSize) ++ ((pos :: later).flatMap (encodeBigEndian sbsoSize) ++
        (encodeBigEndian nsbsSize (pos :: later).length ++ tail))) := by
    have behind : storage.drop pos =
        (b.content ++ tail).drop (front.flatMap BlockSegment.bytes).length := by
      rw [place, ← List.drop_drop, layout, List.drop_left' width]
    rw [behind, metaData, data, segments, List.flatMap_append]
    simp only [List.append_assoc]
    rw [List.drop_left]
  have head : (RawBlock.segmentsInSingleInterval storage pos (later.headD
      (btlSize + (b.data ++ dropped.flatMap (encodeBigEndian sbsoSize)).length))).1.head? =
        some seg.raw := by
    have enough := @BlockSegment.length_le_interval pos
      (btlSize + (b.data ++ dropped.flatMap (encodeBigEndian sbsoSize)).length) seg back
      (by rw [List.length_append]; omega)
    rw [← rest] at enough
    rw [List.flatMap_cons, List.append_assoc] at at_pos
    exact RawBlock.head_segmentsInSingleInterval at_pos fit enough
  exact ⟨front, seg, back, _, segments, length, place, rest, at_pos, holds.parse few small head⟩

/-- With too many special segments a block is refused, or it passes for one that starts late and
its entries cannot be walked to their end. -/
theorem parse_of_overflow (segmentsFit : ∀ seg ∈ b.segments, seg.Fits)
    (special : b.segments.head?.all (·.special) = true) (many : 2 ^ 16 ≤ b.sbsos.length)
    (total : btlSize + (b.content.length + (wcSize + crc32Size)) ≤ maxBtl)
    (holds : BlockStorage.Holds storage b.content) :
    RawBlock.parse storage = none ∨ ∃ raw front seg back, RawBlock.parse storage = some raw ∧
      raw.entries = none ∧ b.segments = front ++ seg :: back ∧ 2 ^ 16 ≤ front.length ∧
      raw.firstSegPublicPrefix = seg.userKey.serialize := by
  obtain ⟨dropped, kept, sbsos, dropsMany, few, metaData⟩ := b.content_split
  have dropsMany := dropsMany many
  cases kept with
  | nil =>
    rw [metaData, List.flatMap_nil, List.append_nil] at holds
    exact .inl holds.parse_zero
  | cons pos later =>
    obtain ⟨front, seg, back, more, segments, length, place, _, at_pos, opened⟩ :=
      parse_of_split segmentsFit total holds sbsos few metaData
    have fitsBack : ∀ x ∈ seg :: back, x.Fits := fun x mem =>
      segmentsFit x (segments ▸ List.mem_append_right front mem)
    have dataLength : b.data.length =
        (front.flatMap BlockSegment.bytes).length + ((seg :: back).flatMap BlockSegment.bytes).length := by
      rw [data, segments, List.flatMap_append, List.length_append]
    have droppedLength := RawBlock.length_flatMap_sbso dropped
    rw [sbsoSize] at droppedLength
    refine .inr ⟨_, front, seg, back, opened, ?_, segments, by omega, rfl⟩
    obtain ⟨others, first⟩ := head_sbsos special (by rw [sbsos]; simp) total
    cases dropped with
    | nil => cases dropsMany
    | cons sbso others' =>
      obtain ⟨rfl, _⟩ := List.cons_eq_cons.mp (sbsos.symm.trans first)
      rw [@List.flatMap_cons _ _ btlSize, List.append_assoc (encodeBigEndian sbsoSize btlSize)] at at_pos
      have small : btlSize < 2 ^ 16 := by decide
      have positive : 0 < (btlSize :: others').length * sbsoSize := by
        rw [List.length_cons, sbsoSize]
        omega
      apply RawBlock.entries_stuck fitsBack small positive rfl at_pos
      · change btlSize + (b.data ++ _).length - pos = _
        rw [List.length_append, RawBlock.length_flatMap_sbso]
        omega

end Block

end FrenzyKV
