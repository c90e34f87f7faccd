import FrenzyKV.Persistent.BlockParse

namespace FrenzyKV

open Bytes

namespace KvEntry

/-- Keys of 1 to 65533 bytes, numbers of their type, and no empty value. -/
def Storable (e : KvEntry) : Prop :=
  1 ≤ e.userKey.size ∧ e.userKey.size ≤ 65533 ∧ e.value ≠ some [] ∧ e.seq < sequenceNumberModulus

instance (e : KvEntry) : Decidable e.Storable := inferInstanceAs (Decidable (_ ∧ _))

/-- What the length field of a key and the type of the numbers hold. -/
def Encodable (e : KvEntry) : Prop := e.userKey.size ≤ 65533 ∧ e.seq < sequenceNumberModulus

instance (e : KvEntry) : Decidable e.Encodable := inferInstanceAs (Decidable (_ ∧ _))

theorem Storable.encodable {e : KvEntry} (storable : e.Storable) : e.Encodable :=
  ⟨storable.2.1, storable.2.2.2⟩

theorem map_stored {es : List KvEntry} (storable : ∀ e ∈ es, e.Storable) : es.map stored = es := by
  rw [map_stored_iff]
  exact fun e mem => (storable e mem).2.2.1

end KvEntry

namespace Block

variable {b : Block}

/-- Entries that can be encoded make segments whose fields hold them. -/
theorem segments_fit_of_data (items : ∀ seg ∈ b.segments, seg.items ≠ [])
    (encodable : ∀ e ∈ b.entries, e.Encodable) (total : b.data.length ≤ maxBtl + bsRil) :
    ∀ seg ∈ b.segments, seg.Fits := by
  intro seg mem
  have entry : ∀ item ∈ seg.items,
      KvEntry.Encodable ⟨⟨item.1, seg.userKey⟩, item.2.stored⟩ := fun item inside =>
    encodable _ (List.mem_flatMap.mpr ⟨seg, mem, List.mem_map.mpr ⟨item, inside, rfl⟩⟩)
  constructor
  · obtain ⟨item, inside⟩ := List.exists_mem_of_ne_nil _ (items seg mem)
    have short : seg.userKey.size ≤ 65533 := (entry item inside).1
    rw [bsPpl]
    omega
  · intro item inside
    refine ⟨(entry item inside).2, ?_⟩
    obtain ⟨front, back, segments⟩ := List.append_of_mem mem
    obtain ⟨before, after, eq⟩ := List.append_of_mem inside
    have size := BlockSegment.itemBytes_length item
    have whole := BlockSegment.bytes_length seg
    rw [eq, List.flatMap_append, List.flatMap_cons, List.length_append, List.length_append] at whole
    rw [data, segments, List.flatMap_append, List.flatMap_cons] at total
    simp only [List.length_append] at total
    rw [bsRil] at whole size total
    rw [maxBtl] at total
    omega

theorem segments_fit (items : ∀ seg ∈ b.segments, seg.items ≠ [])
    (encodable : ∀ e ∈ b.entries, e.Encodable)
    (total : btlSize + (b.content.length + (wcSize + crc32Size)) ≤ maxBtl) :
    ∀ seg ∈ b.segments, seg.Fits := by
  apply segments_fit_of_data items encodable
  rw [content, List.length_append] at total
  omega

end Block

namespace BlockBuilder

variable {opt : StorageOptions} {b : BlockBuilder} {es : List KvEntry}

theorem finish_entries_of_addAll (added : fresh.addAll opt.toOptions es = some b) :
    b.finish.entries = es.map KvEntry.stored := by
  have all := addAll_entries added
  rw [entries_fresh, List.nil_append] at all
  exact all

theorem encodable_of_addAll (added : fresh.addAll opt.toOptions es = some b)
    (encodable : ∀ e ∈ es, e.Encodable) : ∀ e ∈ b.finish.entries, e.Encodable := by
  intro x mem
  rw [finish_entries_of_addAll added] at mem
  obtain ⟨e, inside, rfl⟩ := List.mem_map.mp mem
  exact encodable e inside

/-- A block built from entries that can be encoded, within the limits of its fields. -/
theorem fits_of_addAll (added : fresh.addAll opt.toOptions es = some b) (nonempty : es ≠ [])
    (encodable : ∀ e ∈ es, e.Encodable) (few : b.finish.sbsos.length < 2 ^ 16)
    (total : btlSize + (b.finish.content.length + (wcSize + crc32Size)) ≤ maxBtl) :
    b.finish.Fits ∧ b.finish.entries = es.map KvEntry.stored := by
  obtain ⟨inv, special⟩ := addAll_inv fresh_inv rfl added
  have entries := finish_entries_of_addAll added
  have encodable := encodable_of_addAll added encodable
  refine ⟨⟨Block.segments_fit inv.items encodable total, ?_, few, total⟩, entries⟩
  cases segments : b.finish.segments with
  | nil =>
    rw [Block.entries, segments] at entries
    exact absurd (List.map_eq_nil_iff.mp entries.symm) nonempty
  | cons first later =>
    rw [segments] at special
    exact ⟨first, later, rfl, special⟩

/-- What the builder on bytes accepts, the builder on segments accepts. -/
theorem stores_of_accepted {r : RawBlockBuilder} (encodable : ∀ e ∈ es, e.Encodable)
    (accepted : RawBlockBuilder.fresh.addAll opt.toOptions es = some r) :
    ∃ b, fresh.addAll opt.toOptions es = some b ∧ b.Stores r := by
  have run := addAll_stores opt.toOptions fresh_stores
    (fun e mem => show e.userKey.size < 2 ^ 16 by have := (encodable e mem).1; omega)
    (fun seg current => by cases current)
  rw [accepted] at run
  cases added : fresh.addAll opt.toOptions es with
  | none =>
    rw [added] at run
    cases run
  | some b =>
    rw [added] at run
    cases run with
    | some stores => exact ⟨b, rfl, stores⟩

theorem content_of_stores {r : RawBlockBuilder} (stores : b.Stores r)
    (opened : r.publicPrefix ≠ none) : r.content = b.finish.content := by
  apply content_eq stores
  intro missing
  rw [stores.publicPrefix, missing] at opened
  exact opened rfl

/-- Sorted entries are accepted, and both builders come to one content. -/
theorem addAll_content (opt : StorageOptions) (nonempty : es ≠ [])
    (sorted : es.Pairwise (·.key ≤ ·.key)) (encodable : ∀ e ∈ es, e.Encodable) :
    ∃ b r, fresh.addAll opt.toOptions es = some b ∧
      RawBlockBuilder.fresh.addAll opt.toOptions es = some r ∧ r.publicPrefix ≠ none ∧
      r.content = b.finish.content ∧ r.sbsos = b.finish.sbsos := by
  have byKey : (fresh.entries ++ es).Pairwise (·.userKey ≤ ·.userKey) :=
    sorted.imp fun le => SequencedKey.userKey_mono le
  obtain ⟨b, added⟩ := addAll_isSome opt.toOptions fresh_inv byKey
  have run := addAll_stores opt.toOptions fresh_stores
    (fun e mem => show e.userKey.size < 2 ^ 16 by have := (encodable e mem).1; omega)
    (fun seg current => by cases current)
  rw [added] at run
  cases stored : RawBlockBuilder.fresh.addAll opt.toOptions es with
  | none =>
    rw [stored] at run
    cases run
  | some r =>
    rw [stored] at run
    cases run with
    | some stores =>
      have opened : r.publicPrefix ≠ none := by
        intro missing
        have started : b.current = none := by
          rw [stores.publicPrefix] at missing
          exact Option.map_eq_none_iff.mp missing
        have all := addAll_entries added
        have finished := stores.start started
        rw [entries, finish, started, finished] at all
        exact nonempty (List.map_eq_nil_iff.mp all.symm)
      exact ⟨b, r, added, rfl, opened, content_of_stores stores opened, stores.sbsos⟩

end BlockBuilder

namespace RawBlock

/-- The entries that a block on its storage yields. -/
def entriesIn (storage : ByteString) : Option (List KvEntry) := (parse storage).bind entries

theorem entriesIn_of_holds {b : Block} {storage : ByteString} (fits : b.Fits)
    (holds : BlockStorage.Holds storage b.content) : entriesIn storage = some b.entries := by
  rw [entriesIn, Block.parse_of_holds fits holds, Option.bind_some, Block.entries_of_holds fits holds]

open BlockStorage

variable {opt : StorageOptions} {compressor : Option CompressorPolicy} {reader : CompressorPolicy}
  {es : List KvEntry}

/-- The ways to the entries of a stored block: directly, or through either decompression. -/
def ReadBack (storage : ByteString) (reader : CompressorPolicy) (es : List KvEntry) : Bool → Prop
  | false => entriesIn storage = some es
  | true => (blockDecompress storage reader).bind entriesIn = some es ∧
      ∃ room, approxBlockDecompressSize storage reader = some room ∧
        ∀ dst : ByteString, room ≤ dst.length →
          (blockDecompressTo storage dst reader).bind entriesIn = some es

theorem readBack_of_fits {b : Block} {crc32c : ByteString → UInt32} (fits : b.Fits)
    (inverts : ∀ writer, compressor = some writer → reader.Inverts writer)
    (small : (storeContent opt compressor crc32c b.content).length ≤ maxBtl) :
    let storage := storeContent opt compressor crc32c b.content
    blockIntegrityCheck storage crc32c = some true ∧
      blockContentWasCompressed storage = some (compressor.isSome && opt.needCompress) ∧
      ReadBack storage reader b.entries (compressor.isSome && opt.needCompress) := by
  cases how : compressor.isSome && opt.needCompress with
  | false =>
    have direct : (sealBlock crc32c 0 b.content).length ≤ maxBtl :=
      sealBlock_length crc32c 0 b.content ▸ fits.total
    rw [storeContent_plain how]
    refine ⟨sealBlock_integrity direct, ?_, entriesIn_of_holds fits (sealBlock_holds direct)⟩
    rw [blockContentWasCompressed, sealBlock_wcValue direct (by decide)]
    rfl
  | true =>
    obtain ⟨present, need⟩ := Bool.and_eq_true_iff.mp how
    obtain ⟨writer, rfl⟩ := Option.isSome_iff_exists.mp present
    rw [storeContent_compressed need] at small ⊢
    have undone := inverts writer rfl
    refine ⟨sealBlock_integrity small, ?_, ?_, _, approxBlockDecompressSize_seal small, ?_⟩
    · rw [blockContentWasCompressed, sealBlock_wcValue small (by decide)]
      rfl
    · obtain ⟨storage, decompressed, holds⟩ := blockDecompress_holds undone small fits.total
      rw [decompressed, Option.bind_some, entriesIn_of_holds fits holds]
    · intro dst room
      obtain ⟨storage, decompressed, holds⟩ := blockDecompressTo_holds undone small fits.total room
      rw [decompressed, Option.bind_some, entriesIn_of_holds fits holds]

/-- Sorted entries are accepted; the finished block passes its check, and each way of reading it
yields the entries. -/
theorem built_block_reads_back (crc32c : ByteString → UInt32) (nonempty : es ≠ [])
    (sorted : es.Pairwise (·.key ≤ ·.key)) (storable : ∀ e ∈ es, e.Storable)
    (inverts : ∀ writer, compressor = some writer → reader.Inverts writer) :
    ∃ r, RawBlockBuilder.fresh.addAll opt.toOptions es = some r ∧
      (r.sbsos.length ≤ 65535 → (sealBlock crc32c 0 r.content).length < 2 ^ 32 →
        (storeContent opt compressor crc32c r.content).length < 2 ^ 32 →
        ∃ storage, r.finish opt compressor crc32c = some storage ∧
          blockIntegrityCheck storage crc32c = some true ∧
          blockContentWasCompressed storage = some (compressor.isSome && opt.needCompress) ∧
          ReadBack storage reader es (compressor.isSome && opt.needCompress)) := by
  have encodable : ∀ e ∈ es, e.Encodable := fun e mem => (storable e mem).encodable
  obtain ⟨b, r, added, stored, opened, content, sbsos⟩ :=
    BlockBuilder.addAll_content opt nonempty sorted encodable
  refine ⟨r, stored, fun few total small => ?_⟩
  rw [sbsos] at few
  rw [content, sealBlock_length] at total
  rw [content] at small
  have limit : ∀ {n : Nat}, n < 2 ^ 32 → n ≤ maxBtl := by
    intro n less
    rw [maxBtl]
    omega
  obtain ⟨fits, entries⟩ :=
    BlockBuilder.fits_of_addAll added nonempty encodable (by omega) (limit total)
  rw [KvEntry.map_stored storable] at entries
  refine ⟨storeContent opt compressor crc32c b.finish.content, ?_, ?_⟩
  · rw [RawBlockBuilder.finish, if_neg opened, content]
    exact if_pos (limit small)
  · rw [← entries]
    exact readBack_of_fits fits inverts (limit small)

/-- Two versions of one key and a tombstone of another. -/
def threeEntries : List KvEntry :=
  [KvEntry.brief 1 7 2, KvEntry.brief 1 8 3, ⟨⟨5, ⟨[2]⟩⟩, none⟩]

def compressing : StorageOptions := ⟨.default, true, "zstd"⟩

theorem threeEntries_read_back :
    ∃ r, RawBlockBuilder.fresh.addAll .default threeEntries = some r ∧
      ∃ storage, r.finish compressing (some (zstdCompressor .tagging))
          (fun bytes => bytes.length.toUInt32) = some storage ∧
        blockIntegrityCheck storage (fun bytes => bytes.length.toUInt32) = some true ∧
        blockContentWasCompressed storage = some true ∧
        ReadBack storage (zstdCompressor .tagging) threeEntries true := by
  have codec : ∀ writer, some (zstdCompressor .tagging) = some writer →
      (zstdCompressor .tagging).Inverts writer :=
    fun writer eq => Option.some.inj eq ▸ tagging_inverts
  obtain ⟨r, added, finished⟩ := @built_block_reads_back compressing _ _ threeEntries
    (fun bytes => bytes.length.toUInt32) (by decide) (by decide) (by decide) codec
  have sizes : (RawBlockBuilder.fresh.addAll .default threeEntries).all fun r =>
      r.sbsos.length ≤ 65535 &&
        r.content.length + 10 < 2 ^ 32 := by
    decide +kernel
  change RawBlockBuilder.fresh.addAll .default threeEntries = some r at added
  rw [added] at sizes
  obtain ⟨few, small⟩ := Bool.and_eq_true_iff.mp sizes
  have few := of_decide_eq_true few
  have small := of_decide_eq_true small
  refine ⟨r, added, finished few ?_ ?_⟩
  · rw [sealBlock_length]
    change 4 + (_ + 5) < _
    omega
  · rw [storeContent_compressed rfl, sealBlock_length]
    change 4 + (_ + 1 + 5) < _
    omega

end RawBlock

end FrenzyKV
