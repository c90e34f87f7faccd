import FrenzyKV.Persistent.BlockLookup
import FrenzyKV.Table.SstableRoundTrip

/-! Lookups in a block that was built from sorted entries, stored and opened again
(`persistent/block.cc`). -/

namespace FrenzyKV

open Bytes BlockStorage

/-- A lookup in entries gives the segment of the key: its entries, all and in order. -/
structure FindsSegment (es : List KvEntry) (uk : UserKey) (found : Option RawSegment) : Prop where
  present : found.isSome = true ↔ ∃ e ∈ es, e.userKey = uk
  segment : ∀ seg ∈ found, seg.publicPrefix = uk.serialize ∧
    seg.entries = some (es.filter (·.userKey = uk))

namespace Block

variable {b : Block} {es : List KvEntry}

theorem filter_stored (es : List KvEntry) (uk : UserKey) :
    (es.map KvEntry.stored).filter (·.userKey = uk) =
      (es.filter (·.userKey = uk)).map KvEntry.stored := by
  rw [List.filter_map]
  rfl

/-- What is found holds the entries as they were stored. -/
theorem findsSegment_iff (wf : b.Wf) (fits : b.Fits) (entries : b.entries = es.map KvEntry.stored)
    (uk : UserKey) : FindsSegment es uk ((b.get uk).map BlockSegment.raw) ↔
      ∀ e ∈ es, e.userKey = uk → e.value ≠ some [] := by
  cases got : b.get uk with
  | none =>
    have absent : ∀ e ∈ es, e.userKey ≠ uk := by
      intro e mem same
      have inside : e.stored ∈ b.entries := by
        rw [entries]
        exact List.mem_map_of_mem mem
      exact ne_of_get_eq_none wf got e.stored inside same
    apply iff_of_true
    · refine ⟨iff_of_false (fun found => by cases found) ?_, fun seg found => by cases found⟩
      rintro ⟨e, mem, same⟩
      exact absent e mem same
    · intro e mem same
      exact absurd same (absent e mem)
  | some seg =>
    obtain ⟨there, rfl⟩ := get_eq_some got
    have present : ∃ e ∈ es, e.userKey = seg.userKey := by
      obtain ⟨x, inside, same⟩ := wf.exists_entry there
      have mem : x ∈ b.entries := List.mem_flatMap.mpr ⟨seg, there, inside⟩
      rw [entries] at mem
      obtain ⟨e, listed, rfl⟩ := List.mem_map.mp mem
      exact ⟨e, listed, same⟩
    have read : seg.raw.entries =
        some ((es.filter (·.userKey = seg.userKey)).map KvEntry.stored) := by
      rw [BlockSegment.entries_raw (fits.segments seg there), ← wf.filter_entries there, entries,
        filter_stored]
    have exactly : FindsSegment es seg.userKey (some seg.raw) ↔
        (es.filter (·.userKey = seg.userKey)).map KvEntry.stored =
          es.filter (·.userKey = seg.userKey) := by
      constructor
      · intro found
        have own := (found.segment seg.raw rfl).2
        rw [read] at own
        exact Option.some.inj own
      · intro same
        rw [same] at read
        refine ⟨iff_of_true rfl present, ?_⟩
        intro other eq
        obtain rfl := Option.some.inj eq
        exact ⟨rfl, read⟩
    rw [Option.map_some, exactly, KvEntry.map_stored_iff]
    constructor
    · intro nonempty e mem same
      exact nonempty e (List.mem_filter.mpr ⟨mem, decide_eq_true same⟩)
    · intro nonempty e mem
      obtain ⟨mem, same⟩ := List.mem_filter.mp mem
      exact nonempty e mem (of_decide_eq_true same)

end Block

namespace RawBlock

open RawSstable

/-- The lookup in the opened block, in any memory behind it. -/
def Answers (d : TableDeps) (reader : CompressorPolicy) (storage beyond : ByteString)
    (es : List KvEntry) (uk : UserKey) : Prop :=
  ∃ b found, openBlock d reader storage = some b ∧
    b.getView beyond uk.serialize = some found ∧ FindsSegment es uk found

variable {d : TableDeps} {written : Option CompressorPolicy} {reader : CompressorPolicy}
  {b : BlockBuilder} {es : List KvEntry}

theorem openBlock_built (added : BlockBuilder.fresh.addAll d.opt.toOptions es = some b)
    (nonempty : es ≠ []) (encodable : ∀ e ∈ es, e.Encodable) (few : b.finish.sbsos.length < 2 ^ 16)
    (small : (storeContent d.opt written d.crc32c b.finish.content).length ≤ maxBtl)
    (inverts : d.opt.needCompress = true → ∀ writer, written = some writer → reader.Inverts writer)
    (total : btlSize + (b.finish.content.length + (wcSize + crc32Size)) ≤ maxBtl) :
    b.finish.Fits ∧ b.finish.entries = es.map KvEntry.stored ∧ ∃ storage,
      Holds storage b.finish.content ∧
        openBlock d reader (storeContent d.opt written d.crc32c b.finish.content) =
          some (b.finish.parsed storage) := by
  obtain ⟨fits, entries⟩ := BlockBuilder.fits_of_addAll added nonempty encodable few total
  obtain ⟨storage, opened, holds⟩ := openBlock_stored small inverts total
  rw [Block.parse_of_holds fits holds] at opened
  exact ⟨fits, entries, storage, holds, opened⟩

theorem answers_iff (added : BlockBuilder.fresh.addAll d.opt.toOptions es = some b)
    (nonempty : es ≠ []) (encodable : ∀ e ∈ es, e.Encodable) (few : b.finish.sbsos.length < 2 ^ 16)
    (small : (storeContent d.opt written d.crc32c b.finish.content).length ≤ maxBtl)
    (inverts : d.opt.needCompress = true → ∀ writer, written = some writer → reader.Inverts writer)
    (total : btlSize + (b.finish.content.length + (wcSize + crc32Size)) ≤ maxBtl)
    {uk : UserKey} (short : uk.size ≤ 65533) (beyond : ByteString) :
    Answers d reader (storeContent d.opt written d.crc32c b.finish.content) beyond es uk ↔
      ∀ e ∈ es, e.userKey = uk → e.value ≠ some [] := by
  obtain ⟨fits, entries, storage, holds, opened⟩ :=
    openBlock_built added nonempty encodable few small inverts total
  have wf : b.finish.Wf := by
    apply BlockBuilder.finish_wf (BlockBuilder.addAll_inv BlockBuilder.fresh_inv rfl added).1
    intro empty
    rw [BlockBuilder.entries, entries] at empty
    exact nonempty (List.map_eq_nil_iff.mp empty)
  have found := Block.getView_of_holds fits holds (by omega : uk.size < 2 ^ 16) beyond
  rw [← Block.findsSegment_iff wf fits entries uk]
  constructor
  · rintro ⟨raw, seg, eq, got, finds⟩
    obtain rfl := Option.some.inj (opened.symm.trans eq)
    obtain rfl := Option.some.inj (found.symm.trans got)
    exact finds
  · intro finds
    exact ⟨_, _, opened, found, finds⟩

/-- Sorted entries are accepted, and a lookup in the stored block gives the segment of the key
exactly when the block is not too long to be decompressed and the key has no empty value. -/
theorem built_block_answers_iff (nonempty : es ≠ []) (sorted : es.Pairwise (·.key ≤ ·.key))
    (encodable : ∀ e ∈ es, e.Encodable)
    (inverts : d.opt.needCompress = true → ∀ writer, written = some writer → reader.Inverts writer) :
    ∃ r, RawBlockBuilder.fresh.addAll d.opt.toOptions es = some r ∧
      (r.sbsos.length ≤ 65535 → ∀ storage, r.finish d.opt written d.crc32c = some storage →
        ∀ uk : UserKey, uk.size ≤ 65533 → ∀ beyond,
          (Answers d reader storage beyond es uk ↔
            (sealBlock d.crc32c 0 r.content).length < 2 ^ 32 ∧
              ∀ e ∈ es, e.userKey = uk → e.value ≠ some [])) := by
  obtain ⟨b, r, added, accepted, opened, content, sbsos⟩ :=
    BlockBuilder.addAll_content d.opt nonempty sorted encodable
  refine ⟨r, accepted, fun few storage finished uk short beyond => ?_⟩
  rw [sbsos] at few
  rw [RawBlockBuilder.finish, if_neg opened, content] at finished
  obtain ⟨small, stored⟩ := Option.ite_none_right_eq_some.mp finished
  obtain rfl := Option.some.inj stored
  have limit : (sealBlock d.crc32c 0 r.content).length < 2 ^ 32 ↔
      btlSize + (b.finish.content.length + (wcSize + crc32Size)) ≤ maxBtl := by
    rw [content, sealBlock_length, maxBtl]
    omega
  rw [limit]
  by_cases total : btlSize + (b.finish.content.length + (wcSize + crc32Size)) ≤ maxBtl
  · rw [and_iff_right total]
    exact answers_iff added nonempty encodable (by omega) small inverts total short beyond
  · apply iff_of_false _ fun both => total both.1
    rintro ⟨raw, found, eq, _⟩
    rw [openBlock_long small inverts (by omega)] at eq
    cases eq

/-- A block within the limits is stored and opened. -/
theorem exists_built (nonempty : es ≠ []) (sorted : es.Pairwise (·.key ≤ ·.key))
    (encodable : ∀ e ∈ es, e.Encodable)
    (inverts : d.opt.needCompress = true → ∀ writer, written = some writer → reader.Inverts writer)
    (sizes : (BlockBuilder.fresh.addAll d.opt.toOptions es).all (fun b =>
      b.finish.sbsos.length < 2 ^ 16 && b.finish.content.length + 10 < 2 ^ 32 &&
        (storeContent d.opt written d.crc32c b.finish.content).length ≤ maxBtl) = true) :
    ∃ b r storage inner, BlockBuilder.fresh.addAll d.opt.toOptions es = some b ∧
      RawBlockBuilder.fresh.addAll d.opt.toOptions es = some r ∧ r.sbsos.length ≤ 65535 ∧
      (sealBlock d.crc32c 0 r.content).length < 2 ^ 32 ∧
      r.finish d.opt written d.crc32c = some storage ∧
      openBlock d reader storage = some (b.finish.parsed inner) := by
  obtain ⟨b, r, added, accepted, opened, content, sbsos⟩ :=
    BlockBuilder.addAll_content d.opt nonempty sorted encodable
  rw [added] at sizes
  obtain ⟨sizes, small⟩ := Bool.and_eq_true_iff.mp sizes
  obtain ⟨few, short⟩ := Bool.and_eq_true_iff.mp sizes
  have few := of_decide_eq_true few
  have short := of_decide_eq_true short
  have small := of_decide_eq_true small
  have total : btlSize + (b.finish.content.length + (wcSize + crc32Size)) ≤ maxBtl := by
    change 4 + (_ + 5) ≤ 2 ^ 32 - 1
    omega
  obtain ⟨_, _, inner, _, opens⟩ := openBlock_built added nonempty encodable few small inverts total
  refine ⟨b, r, _, inner, added, accepted, by rw [sbsos]; omega, ?_, ?_, opens⟩
  · rw [content, sealBlock_length]
    change 4 + (_ + 5) < 2 ^ 32
    omega
  · rw [RawBlockBuilder.finish, if_neg opened, content]
    exact if_pos small

/-- A lookup of the first key, in a block that is stored compressed. -/
theorem threeEntries_answers :
    ∃ r storage, RawBlockBuilder.fresh.addAll .twoFileLevels threeEntries = some r ∧
      r.finish smallBlocks.opt (some (zstdCompressor .tagging)) smallBlocks.crc32c = some storage ∧
      Answers smallBlocks (zstdCompressor .tagging) storage [] threeEntries ⟨[1]⟩ := by
  have codec : smallBlocks.opt.needCompress = true → ∀ writer,
      some (zstdCompressor .tagging) = some writer → (zstdCompressor .tagging).Inverts writer :=
    fun _ writer eq => Option.some.inj eq ▸ tagging_inverts
  obtain ⟨b, r, storage, _, _, accepted, few, total, finished, _⟩ :=
    @exists_built smallBlocks _ _ threeEntries (by decide) (by decide) (by decide) codec
      (by decide +kernel)
  obtain ⟨r', accepted', answers⟩ := @built_block_answers_iff smallBlocks _ _ threeEntries
    (by decide) (by decide) (by decide) codec
  obtain rfl := Option.some.inj (accepted.symm.trans accepted')
  exact ⟨r, storage, accepted, finished,
    (answers few storage finished ⟨[1]⟩ (by decide) []).mpr ⟨total, by decide⟩⟩

/-- A key whose only value is the empty string. -/
def emptyValue : List KvEntry := [⟨⟨1, ⟨[1]⟩⟩, some []⟩]

/-- The empty value comes back as a tombstone. -/
theorem emptyValue_not_answered :
    ∃ r storage, RawBlockBuilder.fresh.addAll .twoFileLevels emptyValue = some r ∧
      r.sbsos.length ≤ 65535 ∧ r.finish smallBlocks.opt none smallBlocks.crc32c = some storage ∧
      ¬ Answers smallBlocks (zstdCompressor .tagging) storage [] emptyValue ⟨[1]⟩ := by
  obtain ⟨b, r, added, accepted, opened, content, sbsos⟩ :=
    @BlockBuilder.addAll_content emptyValue smallBlocks.opt (by decide) (by decide) (by decide)
  have sizes : (BlockBuilder.fresh.addAll .twoFileLevels emptyValue).all fun b =>
      b.finish.sbsos.length < 2 ^ 16 && b.finish.content.length + 10 < 2 ^ 32 &&
        (storeContent smallBlocks.opt none smallBlocks.crc32c b.finish.content).length ≤ maxBtl := by
    decide +kernel
  change BlockBuilder.fresh.addAll .twoFileLevels emptyValue = some b at added
  rw [added] at sizes
  obtain ⟨sizes, small⟩ := Bool.and_eq_true_iff.mp sizes
  obtain ⟨few, total⟩ := Bool.and_eq_true_iff.mp sizes
  have few := of_decide_eq_true few
  have total := of_decide_eq_true total
  have small := of_decide_eq_true small
  refine ⟨r, storeContent smallBlocks.opt none smallBlocks.crc32c b.finish.content, accepted,
    ?_, ?_, ?_⟩
  · rw [sbsos]
    omega
  · rw [RawBlockBuilder.finish, if_neg opened, content]
    exact if_pos small
  · rw [answers_iff added (by decide) (by decide) few small (fun _ writer eq => by cases eq)
      (by change 4 + (_ + 5) ≤ 2 ^ 32 - 1; omega) (by decide) []]
    decide

end RawBlock

end FrenzyKV
