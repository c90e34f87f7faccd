import FrenzyKV.Table.SstableParse

namespace FrenzyKV

open Bytes BlockStorage TableDeps

namespace MetaBlock

variable {d : TableDeps} {metaBuilder : BlockBuilder} {lastUk firstUk filterRep : ByteString}

theorem key_sizes : (1 ≤ lastUkKey.size ∧ lastUkKey.size ≤ 65533) ∧
    (1 ≤ firstUkKey.size ∧ firstUkKey.size ≤ 65533) ∧
    (1 ≤ bloomFilterKey.size ∧ bloomFilterKey.size ≤ 65533) := by
  decide

theorem frontValue_raw {key : UserKey} {v : ByteString} {special : Bool}
    (fits : BlockSegment.Fits ⟨key, [(0, some v)], special⟩) (present : v ≠ []) :
    frontValue (BlockSegment.raw ⟨key, [(0, some v)], special⟩) = some v := by
  have size : KvUserValue.size (some v) < 2 ^ 32 := by
    have bound : seqBytesSize + (totalLengthBytesSize + KvUserValue.size (some v)) < 2 ^ 32 :=
      (fits.items (0, some v) List.mem_cons_self).2
    omega
  have value := EntryBuffer.userValue_serialize size []
  rw [List.append_nil] at value
  have body : (BlockSegment.itemBody (0, some v)).drop seqBytesSize = KvUserValue.serialize (some v) :=
    List.drop_left' (encodeBigEndian_length _ _)
  have stored : KvUserValue.stored (some v) = some v := by
    cases v with
    | nil => exact absurd rfl present
    | cons a l => rfl
  rw [frontValue]
  change (some (BlockSegment.itemBody (0, some v))).bind _ = _
  rw [Option.bind_some, body, value, stored]

section

variable (added : BlockBuilder.fresh.addAll d.opt.toOptions (entries lastUk firstUk filterRep) =
    some metaBuilder)
  (small : (sealBlock d.crc32c 0 metaBuilder.finish.openContent).length ≤ maxBtl)

include added

theorem sbsos_length : metaBuilder.finish.sbsos.length =
    1 + (if 3 % d.opt.maxBlockSegmentsNumber = 0 then 1 else 0) +
      (if 4 % d.opt.maxBlockSegmentsNumber = 0 then 1 else 0) := by
  rw [Block.sbsos, List.length_map, finish_segments added]
  simp only [BlockSegment.specialOffsets, if_true, decide_eq_true_iff, List.append_nil, List.length_append,
    List.length_singleton, ← Nat.add_assoc]
  split <;> split <;> rfl

include small

/-- The meta block has three segments, of which the last one is not ended. -/
theorem finish_fits : metaBuilder.finish.OpenFits := by
  have encodable : ∀ e ∈ entries lastUk firstUk filterRep, e.Encodable := by
    intro e mem
    simp only [entries, List.mem_cons, List.not_mem_nil, or_false] at mem
    rcases mem with rfl | rfl | rfl
    · exact ⟨key_sizes.1.2, Nat.two_pow_pos 32⟩
    · exact ⟨key_sizes.2.1.2, Nat.two_pow_pos 32⟩
    · exact ⟨key_sizes.2.2.2, Nat.two_pow_pos 32⟩
  have total : btlSize + (metaBuilder.finish.openContent.length + (wcSize + crc32Size)) ≤ maxBtl := by
    rw [← sealBlock_length d.crc32c 0]
    exact small
  have data : metaBuilder.finish.data.length ≤ maxBtl + bsRil := by
    have length := metaBuilder.finish.length_data_le
    rw [Block.openContent, List.length_append] at total
    omega
  refine ⟨Block.segments_fit_of_data (BlockBuilder.addAll_inv BlockBuilder.fresh_inv rfl added).1.items
    (BlockBuilder.encodable_of_addAll added encodable) data, ?_, ?_, total⟩
  · rw [finish_segments added]
    exact ⟨_, _, _, rfl, rfl⟩
  · rw [sbsos_length added]
    split <;> split <;> decide

/-- The members come back from the meta block that was built from them. -/
theorem parseMetaBlock_seal (wide : 5 ≤ d.opt.maxBlockSegmentsNumber) (last : lastUk ≠ [])
    (first : firstUk ≠ []) (rep : filterRep ≠ []) :
    RawSstable.parseMetaBlock d.crc32c (sealBlock d.crc32c 0 metaBuilder.finish.openContent) =
      some ⟨filterRep, firstUk, lastUk⟩ := by
  have third : ¬ 3 % d.opt.maxBlockSegmentsNumber = 0 := by
    rw [Nat.mod_eq_of_lt (by omega)]
    decide
  have fourth : ¬ 4 % d.opt.maxBlockSegmentsNumber = 0 := by
    rw [Nat.mod_eq_of_lt (by omega)]
    decide
  have segments := finish_segments added
  have sbsos : metaBuilder.finish.sbsos = [btlSize] := by
    rw [Block.sbsos, segments]
    simp only [BlockSegment.specialOffsets, third, fourth]
    rfl
  have fits := finish_fits added small
  have holds := sealBlock_holds small
  have interval : RawBlock.segmentsInSingleInterval (sealBlock d.crc32c 0 metaBuilder.finish.openContent)
      btlSize (btlSize + metaBuilder.finish.openData.length) = (metaBuilder.finish.openRaws, true) := by
    rw [RawBlock.segmentsInSingleInterval, Nat.add_sub_cancel_left]
    exact Block.walk_of_open true fits holds
  have fitsAll := fits.segments
  rw [Block.openRaws, segments] at interval
  rw [segments] at fitsAll
  have lastValue := frontValue_raw (fitsAll _ List.mem_cons_self) last
  have firstValue := frontValue_raw (fitsAll _ (List.mem_cons_of_mem _ List.mem_cons_self)) first
  have repValue : frontValue (BlockSegment.openRaw ⟨bloomFilterKey, [(0, some filterRep)],
      4 % d.opt.maxBlockSegmentsNumber = 0⟩) = some filterRep := frontValue_raw
    (fitsAll _ (List.mem_cons_of_mem _ (List.mem_cons_of_mem _ List.mem_cons_self))) rep
  have lastBloom : ¬ lastUkKey.serialize = bloomFilterKey.serialize := by decide
  have firstBloom : ¬ firstUkKey.serialize = bloomFilterKey.serialize := by decide
  have firstLast : ¬ firstUkKey.serialize = lastUkKey.serialize := by decide
  have kept : ¬ (filterRep = [] ∨ lastUk = [] ∨ firstUk = []) := by
    simp only [rep, last, first, or_false, not_false_eq_true]
  have key : ∀ seg : BlockSegment, seg.raw.publicPrefix = seg.userKey.serialize := fun seg => rfl
  have openKey : ∀ seg : BlockSegment, seg.openRaw.publicPrefix = seg.userKey.serialize := fun seg => rfl
  rw [RawSstable.parseMetaBlock, if_pos (sealBlock_integrity small), Block.parse_of_open fits holds,
    Option.bind_some, Block.openParsed, sbsos]
  simp only [interval, if_true, List.dropLast_cons_cons, List.dropLast_singleton, List.getLast?_cons_cons,
    List.getLast?_singleton, Option.map_some, Option.toList_some, List.map_cons, List.map_nil,
    List.cons_append, List.nil_append, List.foldlM_cons, List.foldlM_nil, readSegment, key, openKey, lastBloom, firstBloom, firstLast, if_false, lastValue, firstValue, repValue,
    Option.map_some, Option.bind_eq_bind, Option.bind_some, Option.pure_def, if_neg kept]

/-- The reader takes no meta block with a second special segment. -/
theorem parseMetaBlock_narrow (positive : 1 ≤ d.opt.maxBlockSegmentsNumber)
    (narrow : d.opt.maxBlockSegmentsNumber < 5) :
    RawSstable.parseMetaBlock d.crc32c (sealBlock d.crc32c 0 metaBuilder.finish.openContent) = none := by
  have fits := finish_fits added small
  have holds := sealBlock_holds small
  have two : 2 ≤ metaBuilder.finish.sbsos.length := by
    rw [sbsos_length added]
    have interval : d.opt.maxBlockSegmentsNumber = 1 ∨ d.opt.maxBlockSegmentsNumber = 2 ∨
        d.opt.maxBlockSegmentsNumber = 3 ∨ d.opt.maxBlockSegmentsNumber = 4 := by omega
    rcases interval with one | two | three | four
    · rw [one]; decide
    · rw [two]; decide
    · rw [three]; decide
    · rw [four]; decide
  rw [RawSstable.parseMetaBlock, if_pos (sealBlock_integrity small), Block.parse_of_open fits holds,
    Option.bind_some, Block.openParsed]
  split
  · rename_i single
    change metaBuilder.finish.sbsos = _ at single
    rw [single, List.length_singleton] at two
    omega
  · rfl

end

end MetaBlock

namespace RawSstable

variable {d : TableDeps} {compressor : CompressorPolicy} {blocks : List Block}
  {lastUk firstUk filterRep file : ByteString}

/-- The footer leads to the meta block, and the chain of lengths to the parts in front of it. -/
theorem parseMetaData_of_layout {crc32c : ByteString → UInt32} {parts : List ByteString}
    {storage : ByteString} (stored : ∀ part ∈ parts, StoredBytes part)
    (size : file.length ≤ maxFileSize)
    (layout : file = parts.flatten ++ (storage ++ (encodeBigEndian mboSize parts.flatten.length ++
      encodeBigEndian mgnSize magicNumber))) :
    footerMbo file = some parts.flatten.length ∧
      parseMetaData crc32c file =
        (parseMetaBlock crc32c storage).map fun fields => (fields, partOffsets 0 parts) := by
  let data := parts.flatten
  let mbo := encodeBigEndian mboSize data.length
  let magic := encodeBigEndian mgnSize magicNumber
  have mboWidth : mbo.length = mboSize := encodeBigEndian_length _ _
  have magicWidth : magic.length = mgnSize := encodeBigEndian_length _ _
  have layout : file = data ++ (storage ++ (mbo ++ magic)) := layout
  have length : file.length = data.length + (storage.length + (mboSize + mgnSize)) := by
    rw [layout, List.length_append, List.length_append, List.length_append, mboWidth, magicWidth]
  have room : data.length < 256 ^ mboSize := by
    rw [maxFileSize] at size
    change _ < 2 ^ 64
    omega
  have beforeMbo : file = (data ++ storage) ++ (encodeBigEndian mboSize data.length ++ magic) := by
    rw [layout, List.append_assoc]
  have beforeMagic : file = (data ++ storage ++ mbo) ++ (encodeBigEndian mgnSize magicNumber ++ []) := by
    rw [layout, List.append_nil, List.append_assoc, List.append_assoc]
  have readMbo : readBigEndianAt mboSize (file.length - (mboSize + mgnSize)) file = some data.length := by
    apply readBigEndianAt_of_eq beforeMbo _ room
    rw [length, List.length_append]
    omega
  have readMagic : readBigEndianAt mgnSize (file.length - mgnSize) file = some magicNumber := by
    apply readBigEndianAt_of_eq beforeMagic _ (by decide)
    rw [length, List.length_append, List.length_append, mboWidth]
    omega
  have footer : footerMbo file = some data.length := by
    rw [footerMbo, if_neg (by omega), readMbo, Option.bind_some, readMagic, Option.bind_some, if_pos rfl]
  have metaBlock : slice data.length (file.length - (mboSize + mgnSize)) file = some storage :=
    slice_of_eq layout rfl (by omega)
  have fromStart : file = [] ++ (data ++ (storage ++ (mbo ++ magic))) := layout
  have offsets : generateBlockOffsets file data.length 0 = some (partOffsets 0 parts) :=
    generateBlockOffsets_parts stored fromStart (Nat.zero_add _).symm
  refine ⟨footer, ?_⟩
  rw [parseMetaData, footer, Option.bind_some, metaBlock, Option.bind_some, offsets, Option.map_eq_bind]
  rfl

/-- A file with a meta block is opened by parsing it. -/
theorem parseMetaData_of_fileOf (fileOf : d.FileOf blocks lastUk firstUk filterRep file)
    (rep : filterRep ≠ []) :
    ∃ metaBuilder, BlockBuilder.fresh.addAll d.opt.toOptions
        (MetaBlock.entries lastUk firstUk filterRep) = some metaBuilder ∧
      (sealBlock d.crc32c 0 metaBuilder.finish.openContent).length ≤ maxBtl ∧
      footerMbo file = some (blocks.flatMap d.image).length ∧
      parseMetaData d.crc32c file =
        (parseMetaBlock d.crc32c (sealBlock d.crc32c 0 metaBuilder.finish.openContent)).map
          fun fields => (fields, offsetsOf d 0 blocks) := by
  obtain ⟨metaBuilder, added, small, layout⟩ := fileOf.whole rep
  have stored : ∀ part ∈ blocks.map d.image, StoredBytes part := by
    intro part mem
    obtain ⟨x, inside, rfl⟩ := List.mem_map.mp mem
    exact ⟨d.image_front x, fileOf.small x inside⟩
  rw [List.flatMap_def] at layout ⊢
  obtain ⟨footer, parsed⟩ := parseMetaData_of_layout stored fileOf.size layout
  exact ⟨metaBuilder, added, small, footer, by rw [parsed, offsetsOf_eq]⟩

/-- A file with a meta block is opened, and its blocks are found. -/
theorem make_of_fileOf (fileOf : d.FileOf blocks lastUk firstUk filterRep file)
    (wide : 5 ≤ d.opt.maxBlockSegmentsNumber) (last : lastUk ≠ []) (first : firstUk ≠ [])
    (rep : filterRep ≠ [])
    (named : getCompressor d.zstd d.opt d.opt.compressorName = some compressor) :
    footerMbo file = some (blocks.flatMap d.image).length ∧
      make d file = some ⟨d, compressor, file, filterRep, firstUk, lastUk, offsetsOf d 0 blocks⟩ := by
  obtain ⟨metaBuilder, added, small, footer, parsed⟩ := parseMetaData_of_fileOf fileOf rep
  refine ⟨footer, ?_⟩
  rw [make_eq, named, Option.bind_some, parsed,
    MetaBlock.parseMetaBlock_seal added small wide last first rep]
  rfl

/-- With fewer than five segments in an interval the meta block has a second one. -/
theorem make_narrow (fileOf : d.FileOf blocks lastUk firstUk filterRep file) (rep : filterRep ≠ [])
    (narrow : d.opt.maxBlockSegmentsNumber < 5) :
    make d file = none := by
  obtain ⟨metaBuilder, added, small, -, parsed⟩ := parseMetaData_of_fileOf fileOf rep
  rw [make_eq, parsed, MetaBlock.parseMetaBlock_narrow added small (fileOf.positive rep) narrow]
  exact Option.bind_fun_none _

/-- Block offsets that cover a range without gaps. -/
def Tiles (beg : Nat) : List (Nat × Nat) → Nat → Prop
  | [], last => beg = last
  | p :: ps, last => p.1 = beg ∧ 0 < p.2 ∧ Tiles (beg + p.2) ps last

theorem offsetsOf_tiles (d : TableDeps) (beg : Nat) (blocks : List Block) :
    Tiles beg (offsetsOf d beg blocks) (beg + (blocks.flatMap d.image).length) := by
  induction blocks generalizing beg with
  | nil => rfl
  | cons x xs ih =>
    have later := ih (beg + (d.image x).length)
    rw [Nat.add_assoc, ← List.length_append, ← List.flatMap_cons] at later
    exact ⟨rfl, d.image_pos x, later⟩

/-- A table is opened from its file and gives back the entries that were added. -/
def RoundTrips (d : TableDeps) (file : ByteString) (es : List KvEntry) : Prop :=
  ∃ t mbo, make d file = some t ∧ footerMbo file = some mbo ∧ Tiles 0 t.blockOffsets mbo ∧
    t.getEntries = some es ∧ t.getEntriesAtOnce true = some es.reverse ∧
    t.firstUserKeyWithoutSeq.map SequencedKey.userKey = es.head?.map KvEntry.userKey ∧
    t.lastUserKeyWithoutSeq.map SequencedKey.userKey = es.getLast?.map KvEntry.userKey

theorem shape_of_make {t : RawSstable} (made : make d file = some t) :
    ∃ mbo, footerMbo file = some mbo ∧ mbo < file.length ∧
      generateBlockOffsets file mbo 0 = some t.blockOffsets ∧ t.deps = d ∧ t.file = file ∧
      getCompressor d.zstd d.opt d.opt.compressorName = some t.compressor := by
  obtain ⟨compressor, named, made⟩ := Option.bind_eq_some_iff.mp made
  obtain ⟨mbo, footer, made⟩ := Option.bind_eq_some_iff.mp made
  obtain ⟨storage, sliced, made⟩ := Option.bind_eq_some_iff.mp made
  obtain ⟨fields, _, made⟩ := Option.bind_eq_some_iff.mp made
  obtain ⟨offsets, generated, rfl⟩ := Option.map_eq_some_iff.mp made
  refine ⟨mbo, footer, ?_, generated, rfl, rfl, named⟩
  rw [slice] at sliced
  split at sliced
  · rename_i inside
    have size : ¬ file.length < mboSize + mgnSize := by
      intro short
      rw [footerMbo, if_pos short] at footer
      cases footer
    rw [mboSize, mgnSize] at *
    omega
  · cases sliced

/-- When the blocks that are found end at the meta block offset and the file goes on, some block
is left out. -/
theorem short_of_tiles {t : RawSstable} {front : ByteString} {offsets : List (Nat × Nat)} {mbo : Nat}
    {ess : List (List KvEntry)} (written : ∀ x ∈ blocks, t.deps.Written x)
    (inverts : t.deps.CodecInverts t.compressor)
    (layout : t.file = front ++ blocks.flatMap t.deps.image) (goesOn : mbo < t.file.length)
    (generated : generateBlockOffsets t.file mbo front.length = some offsets)
    (tiles : Tiles front.length offsets mbo)
    (read : offsets.mapM (fun p => (t.getBlock p).bind RawBlock.entries) = some ess) :
    ess.flatten.length < (blocks.flatMap Block.entries).length := by
  induction blocks generalizing front offsets ess with
  | nil =>
    rw [List.flatMap_nil, List.append_nil] at layout
    rw [generateBlockOffsets, if_pos (by rw [← layout]; exact goesOn.le)] at generated
    obtain rfl := Option.some.inj generated
    have here : front.length = mbo := tiles
    rw [layout] at goesOn
    omega
  | cons x xs ih =>
    have present : 0 < x.entries.length := by
      obtain ⟨_, _, e, es, _, eq, _⟩ := (written x List.mem_cons_self).wf.exists_first
      rw [eq]
      exact Nat.succ_pos _
    rw [List.flatMap_cons, List.length_append]
    by_cases done : mbo ≤ front.length
    · rw [generateBlockOffsets, if_pos done] at generated
      obtain rfl := Option.some.inj generated
      have nothing : ess = [] := (Option.some.inj read).symm
      rw [nothing, List.flatten_nil, List.length_nil]
      omega
    · rw [List.flatMap_cons] at layout
      have behind : t.file = (front ++ t.deps.image x) ++ xs.flatMap t.deps.image := by
        rw [layout, List.append_assoc]
      have there : slice front.length (front.length + (t.deps.image x).length) t.file =
          some (t.deps.image x) := slice_of_eq layout rfl rfl
      rw [generateBlockOffsets_part ⟨t.deps.image_front x, (written x List.mem_cons_self).small⟩ layout
        (by omega)] at generated
      obtain ⟨later, chain, rfl⟩ := Option.map_eq_some_iff.mp generated
      rw [List.mapM_cons] at read
      obtain ⟨es, readFirst, read⟩ := Option.bind_eq_some_iff.mp read
      obtain ⟨ess', readLater, eq⟩ := Option.bind_eq_some_iff.mp read
      obtain rfl := Option.some.inj eq
      obtain ⟨_, rfl⟩ := (entries_iff (written x List.mem_cons_self) inverts ⟨rfl, there⟩).mp readFirst
      have tilesLater : Tiles (front ++ t.deps.image x).length later mbo := by
        rw [List.length_append]
        exact tiles.2.2
      have shorter := ih (fun y mem => written y (List.mem_cons_of_mem _ mem)) behind chain tilesLater
        readLater
      rw [List.flatten_cons, List.length_append]
      omega

end RawSstable

namespace TableDeps

variable {d : TableDeps} {es : List KvEntry} {blocks : List Block}

/-- Every data block that is cut from entries fits. -/
def BlocksFit (d : TableDeps) (es : List KvEntry) : Prop :=
  ∃ blocks, dataBlocks d.opt.toOptions .fresh es = some blocks ∧ ∀ x ∈ blocks, d.BlockFits x

instance (d : TableDeps) (es : List KvEntry) : Decidable (d.BlocksFit es) :=
  decidable_of_iff (((dataBlocks d.opt.toOptions .fresh es).any fun blocks =>
      blocks.all fun x => d.BlockFits x) = true) <| by
    simp [BlocksFit, Option.any_eq_true]

/-- The data blocks are what the reader can rely on. -/
theorem written_of_dataBlocks (encodable : ∀ e ∈ es, e.Encodable)
    (cut : dataBlocks d.opt.toOptions .fresh es = some blocks)
    (small : ∀ x ∈ blocks, (d.image x).length ≤ maxBtl) :
    (∀ x ∈ blocks, d.Written x) ∧ blocks.flatMap Block.entries = es.map KvEntry.stored := by
  obtain ⟨good, entries⟩ := dataBlocks_spec BlockBuilder.fresh_inv rfl cut
  rw [BlockBuilder.entries_fresh, List.nil_append] at entries
  refine ⟨fun x mem => ⟨(good x mem).1, (good x mem).2, fun e inside => ?_, small x mem⟩, entries⟩
  have stored : e ∈ es.map KvEntry.stored := entries ▸ List.mem_flatMap.mpr ⟨x, mem, inside⟩
  obtain ⟨e', mem', rfl⟩ := List.mem_map.mp stored
  exact encodable e' mem'

end TableDeps

namespace RawSstable

variable {d : TableDeps} {compressor : CompressorPolicy} {es : List KvEntry} {sizeLimit : Nat}
  {r : RawSstableBuilder} {file : ByteString} {blocks : List Block}

/-- All blocks first, or one after another: the entries are the same. -/
theorem getEntriesAtOnce_of_read {t : RawSstable} {ess : List (List KvEntry)}
    (read : t.blockOffsets.mapM (fun p => (t.getBlock p).bind RawBlock.entries) = some ess)
    (backwards : Bool) : t.getEntriesAtOnce backwards =
      some (if backwards then ess.flatten.reverse else ess.flatten) := by
  obtain ⟨blocks, opened, entries⟩ := Option.bind_eq_some_iff.mp ((PartialMap.mapM_bind _ _ _).trans read)
  rw [getEntriesAtOnce, opened, Option.bind_some, entries, Option.map_some]

/-- The table in a file: its data blocks, and the filter and the keys of its entries. -/
def opened (d : TableDeps) (compressor : CompressorPolicy) (file : ByteString) (blocks : List Block)
    (es : List KvEntry) : RawSstable where
  deps := d
  compressor
  file
  filterRep := SstableBuilder.filterAfter d.filter none [] es
  firstUk := (es.head?.map (·.userKey.serialize)).getD []
  lastUk := (es.getLast?.map (·.userKey.serialize)).getD []
  blockOffsets := offsetsOf d 0 blocks

/-- What is known of the file of a finished table. -/
structure Finished (d : TableDeps) (file : ByteString) (es : List KvEntry) (blocks : List Block) :
    Prop where
  cut : dataBlocks d.opt.toOptions .fresh es = some blocks
  written : ∀ x ∈ blocks, d.Written x
  entries : blocks.flatMap Block.entries = es.map KvEntry.stored
  layout : ∃ rest, file = blocks.flatMap d.image ++ rest
  bare : SstableBuilder.filterAfter d.filter none [] es = [] → file = blocks.flatMap d.image
  made : SstableBuilder.filterAfter d.filter none [] es ≠ [] → 5 ≤ d.opt.maxBlockSegmentsNumber →
    ∀ {compressor}, getCompressor d.zstd d.opt d.opt.compressorName = some compressor →
      footerMbo file = some (blocks.flatMap d.image).length ∧
        make d file = some (opened d compressor file blocks es)

theorem finished_of_finish (nonempty : es ≠ []) (encodable : ∀ e ∈ es, e.Encodable)
    (built : (RawSstableBuilder.make sizeLimit).bind (·.addAll d es) = some r)
    (finished : r.finish d = some file) : ∃ blocks, Finished d file es blocks := by
  obtain ⟨e, rest, rfl⟩ := List.exists_cons_of_ne_nil nonempty
  have short : ∀ x ∈ e :: rest, x.userKey.size < 2 ^ 16 := by
    intro x mem
    have := (encodable x mem).1
    omega
  obtain ⟨blocks, cut, fileOf⟩ := RawSstableBuilder.file_of_entries built finished short
  obtain ⟨written, entries⟩ := written_of_dataBlocks encodable cut fileOf.small
  refine ⟨blocks, cut, written, entries, ?_, fileOf.bare, ?_⟩
  · by_cases present : SstableBuilder.filterAfter d.filter none [] (e :: rest) = []
    · exact ⟨[], by rw [fileOf.bare present, List.append_nil]⟩
    · obtain ⟨_, _, _, layout⟩ := fileOf.whole present
      exact ⟨_, layout⟩
  · intro present wide compressor named
    have all := make_of_fileOf fileOf wide (SstableBuilder.serialize_ne_nil _)
      (SstableBuilder.serialize_ne_nil _) present named
    rw [opened, List.getLast?_eq_some_getLast (List.cons_ne_nil e rest)]
    exact all

theorem Finished.stands (finished : Finished d file es blocks) (compressor : CompressorPolicy) :
    List.Forall₂ (opened d compressor file blocks es).Stands (offsetsOf d 0 blocks) blocks := by
  obtain ⟨rest, layout⟩ := finished.layout
  have fromStart : (opened d compressor file blocks es).file =
      [] ++ (blocks.flatMap (opened d compressor file blocks es).deps.image ++ rest) := layout
  exact stands_of_layout fromStart

section

variable (table : Finished d file es blocks) (storable : ∀ e ∈ es, e.Storable)

include table storable

theorem Finished.entries_eq : blocks.flatMap Block.entries = es :=
  table.entries.trans (KvEntry.map_stored storable)

/-- Without a filter the file is the data blocks alone, and the last of them is taken for the rest. -/
theorem Finished.not_roundTrips (bare : SstableBuilder.filterAfter d.filter none [] es = [])
    (named : getCompressor d.zstd d.opt d.opt.compressorName = some compressor)
    (inverts : d.CodecInverts compressor) : ¬ RoundTrips d file es := by
  intro trip
  obtain ⟨t, mbo, made, footer, tiles, read, _⟩ := trip
  obtain ⟨mbo', footer', goesOn, generated, rfl, rfl, named'⟩ := shape_of_make made
  obtain rfl := Option.some.inj (footer.symm.trans footer')
  obtain rfl := Option.some.inj (named.symm.trans named')
  obtain ⟨ess, readBlocks, all⟩ := Option.map_eq_some_iff.mp read
  have layout : t.file = [] ++ blocks.flatMap t.deps.image := table.bare bare
  have shorter := short_of_tiles table.written inverts layout goesOn generated tiles readBlocks
  rw [all, table.entries_eq storable] at shorter
  exact lt_irrefl _ shorter

theorem Finished.roundTrips_of_read (nonempty : es ≠ []) {t : RawSstable}
    (opens : t = opened d compressor file blocks es) (made : make d file = some t)
    (footer : footerMbo file = some (blocks.flatMap d.image).length)
    (read : t.blockOffsets.mapM (fun p => (t.getBlock p).bind RawBlock.entries) =
      some (blocks.map Block.entries)) : RoundTrips d file es := by
  have all : (blocks.map Block.entries).flatten = es := by
    rw [← List.flatMap_def, table.entries_eq storable]
  have tiles := offsetsOf_tiles d 0 blocks
  rw [Nat.zero_add] at tiles
  have firstOf : ∀ {e : KvEntry} {rest : ByteString}, e ∈ es → rest = e.userKey.serialize →
      (keyOf (rest ++ List.replicate 8 0)).map SequencedKey.userKey = some e.userKey := by
    intro e rest mem eq
    have bound := (storable e mem).2.1
    rw [eq, keyOf_serialize (by omega)]
    rfl
  refine ⟨t, _, made, footer, by rw [opens]; exact tiles, ?_, ?_, ?_, ?_⟩
  · exact (congrArg (Option.map List.flatten) read).trans (congrArg some all)
  · exact (getEntriesAtOnce_of_read read true).trans (congrArg (some ·.reverse) all)
  · rw [opens]
    obtain ⟨e, rest, rfl⟩ := List.exists_cons_of_ne_nil nonempty
    exact firstOf List.mem_cons_self rfl
  · rw [opens, List.getLast?_eq_some_getLast nonempty]
    apply firstOf (List.getLast_mem nonempty)
    rw [opened, List.getLast?_eq_some_getLast nonempty]
    rfl

end

/-- The file of a finished table gives back its entries exactly when the filter left something
behind and every data block fits. -/
theorem finished_table_round_trips_iff (nonempty : es ≠ []) (storable : ∀ e ∈ es, e.Storable)
    (wide : 5 ≤ d.opt.maxBlockSegmentsNumber)
    (named : getCompressor d.zstd d.opt d.opt.compressorName = some compressor)
    (inverts : d.CodecInverts compressor)
    (built : (RawSstableBuilder.make sizeLimit).bind (·.addAll d es) = some r)
    (finished : r.finish d = some file) :
    RoundTrips d file es ↔ SstableBuilder.filterAfter d.filter none [] es ≠ [] ∧ d.BlocksFit es := by
  obtain ⟨blocks, table⟩ :=
    finished_of_finish nonempty (fun e mem => (storable e mem).encodable) built finished
  by_cases present : SstableBuilder.filterAfter d.filter none [] es = []
  · exact iff_of_false (table.not_roundTrips storable present named inverts) fun both => both.1 present
  · obtain ⟨footer, made⟩ := table.made present wide named
    have read : ∀ ess, (offsetsOf d 0 blocks).mapM
          (fun p => ((opened d compressor file blocks es).getBlock p).bind RawBlock.entries) = some ess ↔
        (∀ x ∈ blocks, d.BlockFits x) ∧ ess = blocks.map Block.entries :=
      fun ess => mapM_entries_iff (table.stands compressor) table.written inverts
    constructor
    · intro trip
      obtain ⟨t, _, made', _, _, all, _⟩ := trip
      obtain rfl := Option.some.inj (made.symm.trans made')
      obtain ⟨ess, readBlocks, _⟩ := Option.map_eq_some_iff.mp all
      exact ⟨present, blocks, table.cut, ((read ess).mp readBlocks).1⟩
    · intro both
      obtain ⟨_, blocks', cut', fits⟩ := both
      obtain rfl := Option.some.inj (table.cut.symm.trans cut')
      exact table.roundTrips_of_read storable nonempty rfl made footer ((read _).mpr ⟨fits, rfl⟩)

/-- Every entry in a block of its own, and the filter of the database. -/
def smallBlocks : TableDeps where
  opt := ⟨.twoFileLevels, true, "zstd"⟩
  zstd := .tagging
  crc32c bytes := bytes.length.toUInt32
  filter := makeBloomFilter (fun _ => 69) 64

theorem exists_finished {d : TableDeps} {es : List KvEntry} {sizeLimit : Nat}
    (runs : ((RawSstableBuilder.make sizeLimit).bind fun b => (b.addAll d es).bind
      (·.finish d)).isSome = true) :
    ∃ r file, (RawSstableBuilder.make sizeLimit).bind (·.addAll d es) = some r ∧
      r.finish d = some file := by
  obtain ⟨file, run⟩ := Option.isSome_iff_exists.mp runs
  obtain ⟨b, made, run⟩ := Option.bind_eq_some_iff.mp run
  obtain ⟨r, added, finished⟩ := Option.bind_eq_some_iff.mp run
  exact ⟨r, file, by rw [made, Option.bind_some, added], finished⟩

theorem smallBlocks_fit : smallBlocks.BlocksFit RawBlock.threeEntries := by
  have blocks : ((dataBlocks smallBlocks.opt.toOptions .fresh RawBlock.threeEntries).any fun blocks =>
      blocks.all fun x => smallBlocks.BlockFits x) = true := by
    decide +kernel
  obtain ⟨cut, eq, all⟩ := (Option.any_eq_true _ _).mp blocks
  exact ⟨cut, eq, fun x mem => of_decide_eq_true (List.all_eq_true.mp all x mem)⟩

theorem threeEntries_round_trip :
    ∃ r file, (RawSstableBuilder.make 4096).bind (·.addAll smallBlocks RawBlock.threeEntries) = some r ∧
      r.finish smallBlocks = some file ∧ RoundTrips smallBlocks file RawBlock.threeEntries := by
  obtain ⟨r, file, built, finished⟩ :=
    @exists_finished smallBlocks RawBlock.threeEntries 4096 (by decide +kernel)
  exact ⟨r, file, built, finished, (finished_table_round_trips_iff (by decide) (by decide) (by decide)
    rfl (fun _ => tagging_inverts) built finished).mpr ⟨by decide +kernel, smallBlocks_fit⟩⟩

/-- With the empty filter `finish` succeeds and leaves a file that cannot be opened. -/
theorem emptyFilter_not_opened :
    ((RawSstableBuilder.make 4096).bind fun b =>
      (b.addAll { smallBlocks with filter := makeEmptyFilter } RawBlock.threeEntries).bind fun r =>
        (r.finish { smallBlocks with filter := makeEmptyFilter }).map fun file =>
          (make { smallBlocks with filter := makeEmptyFilter } file).isSome) = some false := by
  decide +kernel

end RawSstable

end FrenzyKV
