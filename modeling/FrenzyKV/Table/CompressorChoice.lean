import FrenzyKV.Table.SstableRoundTrip

/-! The compressor that writes the data blocks of a table and the one that reads them
(`table/sstable_builder.cc`, `table/sstable.cc`). -/

namespace FrenzyKV

open Bytes BlockStorage TableDeps

/-- The two names under which compressors are registered. -/
theorem eq_of_getCompressor {zstd : Zstd} {opt : StorageOptions} {compressor : CompressorPolicy}
    (named : getCompressor zstd opt opt.compressorName = some compressor) :
    opt.compressorName = "zstd" ∧ compressor = zstdCompressor zstd ∨
      opt.compressorName = "empty" ∧ compressor = emptyCompressor := by
  have same : (if opt.compressorName = "" then opt.compressorName else opt.compressorName) =
      opt.compressorName := ite_self _
  rw [getCompressor, same] at named
  by_cases zstd_name : opt.compressorName = "zstd"
  · rw [if_pos zstd_name] at named
    exact .inl ⟨zstd_name, (Option.some.inj named).symm⟩
  · rw [if_neg zstd_name] at named
    by_cases empty_name : opt.compressorName = "empty"
    · rw [if_pos empty_name] at named
      exact .inr ⟨empty_name, (Option.some.inj named).symm⟩
    · rw [if_neg empty_name] at named
      cases named

namespace TableDeps

variable {d : TableDeps} {reader : CompressorPolicy}

/-- The builder always takes zstd, so the configured compressor has to be zstd where any is used. -/
theorem codecInverts_iff (inverts : (zstdCompressor d.zstd).Inverts (zstdCompressor d.zstd))
    (changes : ∀ src, d.zstd.compress src ≠ src)
    (named : getCompressor d.zstd d.opt d.opt.compressorName = some reader) :
    d.CodecInverts reader ↔ d.opt.needCompress = false ∨ d.opt.compressorName = "zstd" := by
  constructor
  · intro agree
    cases need : d.opt.needCompress with
    | false => exact .inl rfl
    | true =>
      cases eq_of_getCompressor named with
      | inl zstd => exact .inr zstd.1
      | inr empty =>
        have appended := (agree need).append []
        rw [empty.2] at appended
        have same : some (d.zstd.compress []) = some [] := appended
        exact absurd (Option.some.inj same) (changes [])
  · intro chosen need
    cases eq_of_getCompressor named with
    | inl zstd =>
      rw [zstd.2]
      exact inverts
    | inr empty =>
      rw [need, empty.1] at chosen
      exact absurd chosen (by decide)

end TableDeps

namespace RawSstable

variable {t : RawSstable} {p : Nat × Nat} {x : Block}

/-- `get_block` returns the block that was built: its content, and its entries. -/
def ReadsBlock (t : RawSstable) (p : Nat × Nat) (x : Block) : Prop :=
  ∃ blk, t.getBlock p = some blk ∧ undecompressedBlockContent blk.storage = some x.content ∧
    blk.entries = some x.entries

theorem readsBlock_iff (written : t.deps.Written x) (inverts : t.deps.CodecInverts t.compressor)
    (stands : t.Stands p x) : t.ReadsBlock p x ↔ t.deps.BlockFits x := by
  constructor
  · intro reads
    obtain ⟨blk, found, _, entries⟩ := reads
    have read : (t.getBlock p).bind RawBlock.entries = some x.entries := by
      rw [found, Option.bind_some, entries]
    exact ((entries_iff written inverts stands).mp read).1
  · intro fits
    obtain ⟨storage, found, holds⟩ := getBlock_of_fits written fits inverts stands
    exact ⟨_, found, holds.content, Block.entries_of_holds (written.fits fits) holds⟩

/-- The empty compressor passes the compressed bytes for the content. -/
theorem not_readsBlock_of_empty (need : t.deps.opt.needCompress = true)
    (changes : ∀ src, t.deps.zstd.compress src ≠ src) (written : t.deps.Written x)
    (stands : t.Stands p x) (empty : t.compressor = emptyCompressor) : ¬ t.ReadsBlock p x := by
  intro reads
  obtain ⟨blk, found, content, _⟩ := reads
  have small := written.small
  have length := BlockStorage.sealBlock_length t.deps.crc32c 1 (t.deps.zstd.compress x.content)
  rw [image_compressed need] at small
  obtain ⟨storage, opened, holds⟩ := @openBlock_compressed t.deps emptyCompressor emptyCompressor
    (t.deps.zstd.compress x.content) emptyCompressor_inverts small (by rw [← length]; exact small)
  rw [getBlock] at found
  split at found
  · cases found
  · rw [stands.bytes, Option.bind_some, image_compressed need, empty] at found
    rw [show emptyCompressor.compressAppendTo _ = t.deps.zstd.compress x.content from rfl] at opened
    rw [opened] at found
    obtain ⟨_, _, found⟩ := Option.bind_eq_some_iff.mp found
    obtain ⟨_, _, found⟩ := Option.bind_eq_some_iff.mp found
    obtain ⟨specialSegs, _, found⟩ := Option.bind_eq_some_iff.mp found
    cases specialSegs with
    | nil => cases found
    | cons beg later =>
      obtain ⟨_, _, rfl⟩ := Option.map_eq_some_iff.mp found
      have same := holds.content.symm.trans content
      exact changes x.content (Option.some.inj same)

variable {offsets : List (Nat × Nat)} {blocks : List Block}

theorem forall_readsBlock_iff (stands : List.Forall₂ t.Stands offsets blocks)
    (written : ∀ x ∈ blocks, t.deps.Written x) (inverts : t.deps.CodecInverts t.compressor) :
    List.Forall₂ t.ReadsBlock offsets blocks ↔ ∀ x ∈ blocks, t.deps.BlockFits x := by
  induction stands with
  | nil => exact ⟨fun _ x mem => (List.not_mem_nil mem).elim, fun _ => .nil⟩
  | @cons p x offsets blocks here there ih =>
    have first := readsBlock_iff (written x List.mem_cons_self) inverts here
    have later := ih fun y mem => written y (List.mem_cons_of_mem _ mem)
    rw [List.forall₂_cons, List.forall_mem_cons, first, later]

/-- What was read bounds the entries of the blocks. -/
theorem bounds_of_readsBlock (reads : List.Forall₂ t.ReadsBlock offsets blocks) :
    ∀ e ∈ blocks.flatMap Block.entries, e.userKey.size ≤ 65533 ∧ e.value ≠ some [] := by
  induction reads with
  | nil =>
    intro e mem
    cases mem
  | @cons p x offsets blocks here there ih =>
    intro e mem
    rw [List.flatMap_cons] at mem
    cases List.mem_append.mp mem with
    | inl inside =>
      obtain ⟨blk, _, _, entries⟩ := here
      exact RawBlock.bounds_of_entries entries e inside
    | inr later => exact ih e later

variable {d : TableDeps} {reader : CompressorPolicy} {es : List KvEntry} {sizeLimit : Nat}
  {r : RawSstableBuilder} {file : ByteString}

/-- At every data block of the file, the reader gives back the block as it was built, and these
blocks hold the entries that were added. -/
def BlocksReadBack (d : TableDeps) (reader : CompressorPolicy) (file : ByteString)
    (es : List KvEntry) : Prop :=
  ∃ blocks, dataBlocks d.opt.toOptions .fresh es = some blocks ∧ blocks.flatMap Block.entries = es ∧
    List.Forall₂ (opened d reader file blocks es).ReadsBlock (offsetsOf d 0 blocks) blocks

/-- The empty compressor cannot read what zstd has written. -/
theorem Finished.not_readBack {blocks : List Block} (table : Finished d file es blocks)
    (nonempty : es ≠ []) (inverts : (zstdCompressor d.zstd).Inverts (zstdCompressor d.zstd))
    (changes : ∀ src, d.zstd.compress src ≠ src)
    (named : getCompressor d.zstd d.opt d.opt.compressorName = some reader)
    (disagree : ¬ d.CodecInverts reader) : ¬ BlocksReadBack d reader file es := by
  intro back
  obtain ⟨blocks', cut, entries, all⟩ := back
  obtain rfl := Option.some.inj (table.cut.symm.trans cut)
  have need : d.opt.needCompress = true := by
    by_contra plain
    exact disagree fun need => absurd need plain
  have empty : reader = emptyCompressor := by
    cases eq_of_getCompressor named with
    | inl zstd => exact absurd (fun _ => zstd.2 ▸ inverts) disagree
    | inr empty => exact empty.2
  have stands := table.stands reader
  cases blocks with
  | nil => exact nonempty entries.symm
  | cons x blocks =>
    obtain ⟨reads, _⟩ := List.forall₂_cons.mp all
    obtain ⟨stands, _⟩ := List.forall₂_cons.mp stands
    exact not_readsBlock_of_empty need changes (table.written x List.mem_cons_self) stands empty reads

theorem blocksReadBack_iff (nonempty : es ≠ []) (numbers : ∀ e ∈ es, e.seq < sequenceNumberModulus)
    (inverts : (zstdCompressor d.zstd).Inverts (zstdCompressor d.zstd))
    (changes : ∀ src, d.zstd.compress src ≠ src)
    (named : getCompressor d.zstd d.opt d.opt.compressorName = some reader)
    (built : (RawSstableBuilder.make sizeLimit).bind (·.addAll d es) = some r)
    (finished : r.finish d = some file) :
    BlocksReadBack d reader file es ↔ (d.opt.needCompress = false ∨ d.opt.compressorName = "zstd") ∧
      d.BlocksFit es ∧ ∀ e ∈ es, e.userKey.size ≤ 65533 ∧ e.value ≠ some [] := by
  by_cases bounds : ∀ e ∈ es, e.userKey.size ≤ 65533 ∧ e.value ≠ some []
  · obtain ⟨blocks, table⟩ :=
      finished_of_finish nonempty (fun e mem => ⟨(bounds e mem).1, numbers e mem⟩) built finished
    have entries : blocks.flatMap Block.entries = es := by
      rw [table.entries, KvEntry.map_stored_iff]
      exact fun e mem => (bounds e mem).2
    by_cases agree : d.CodecInverts reader
    · have chosen := (codecInverts_iff inverts changes named).mp agree
      have reads : List.Forall₂ (opened d reader file blocks es).ReadsBlock (offsetsOf d 0 blocks) blocks ↔
          ∀ x ∈ blocks, d.BlockFits x :=
        forall_readsBlock_iff (table.stands reader) table.written agree
      constructor
      · intro back
        obtain ⟨blocks', cut, _, all⟩ := back
        obtain rfl := Option.some.inj (table.cut.symm.trans cut)
        exact ⟨chosen, ⟨blocks, cut, reads.mp all⟩, bounds⟩
      · intro all
        obtain ⟨_, ⟨blocks', cut, fits⟩, _⟩ := all
        obtain rfl := Option.some.inj (table.cut.symm.trans cut)
        exact ⟨blocks, cut, entries, reads.mpr fits⟩
    · exact iff_of_false (table.not_readBack nonempty inverts changes named agree) fun all =>
        agree ((codecInverts_iff inverts changes named).mpr all.1)
  · refine iff_of_false (fun back => bounds ?_) fun all => bounds all.2.2
    obtain ⟨blocks, _, entries, all⟩ := back
    exact entries ▸ bounds_of_readsBlock all

/-- The configured compressor undoes the builder's and every data block is read back, exactly when
zstd is configured or nothing is compressed, every data block fits, and so do the entries. -/
theorem data_blocks_read_back_iff (nonempty : es ≠ [])
    (numbers : ∀ e ∈ es, e.seq < sequenceNumberModulus)
    (inverts : (zstdCompressor d.zstd).Inverts (zstdCompressor d.zstd))
    (changes : ∀ src, d.zstd.compress src ≠ src)
    (named : getCompressor d.zstd d.opt d.opt.compressorName = some reader)
    (built : (RawSstableBuilder.make sizeLimit).bind (·.addAll d es) = some r)
    (finished : r.finish d = some file) :
    d.CodecInverts reader ∧ BlocksReadBack d reader file es ↔
      (d.opt.needCompress = false ∨ d.opt.compressorName = "zstd") ∧ d.BlocksFit es ∧
        ∀ e ∈ es, e.userKey.size ≤ 65533 ∧ e.value ≠ some [] := by
  rw [codecInverts_iff inverts changes named,
    blocksReadBack_iff nonempty numbers inverts changes named built finished]
  exact ⟨fun both => both.2, fun all => ⟨all.1, all⟩⟩

theorem tagging_changes (src : ByteString) : Zstd.tagging.compress src ≠ src :=
  List.cons_ne_self 0 src

theorem smallBlocks_read_back :
    ∃ r file, (RawSstableBuilder.make 4096).bind (·.addAll smallBlocks RawBlock.threeEntries) = some r ∧
      r.finish smallBlocks = some file ∧ smallBlocks.CodecInverts (zstdCompressor .tagging) ∧
      BlocksReadBack smallBlocks (zstdCompressor .tagging) file RawBlock.threeEntries := by
  obtain ⟨r, file, built, finished⟩ :=
    @exists_finished smallBlocks RawBlock.threeEntries 4096 (by decide +kernel)
  exact ⟨r, file, built, finished, (data_blocks_read_back_iff (by decide) (by decide) tagging_inverts
    tagging_changes rfl built finished).mpr ⟨.inr rfl, smallBlocks_fit, by decide⟩⟩

/-- The empty compressor is registered and configured, and compression is on. -/
def emptyChosen : TableDeps := { smallBlocks with opt := ⟨.twoFileLevels, true, "empty"⟩ }

theorem emptyChosen_not_read_back :
    ∃ r file, (RawSstableBuilder.make 4096).bind (·.addAll emptyChosen RawBlock.threeEntries) = some r ∧
      r.finish emptyChosen = some file ∧
      getCompressor emptyChosen.zstd emptyChosen.opt emptyChosen.opt.compressorName = some emptyCompressor ∧
      ¬ emptyChosen.CodecInverts emptyCompressor ∧
      ¬ BlocksReadBack emptyChosen emptyCompressor file RawBlock.threeEntries := by
  obtain ⟨r, file, built, finished⟩ :=
    @exists_finished emptyChosen RawBlock.threeEntries 4096 (by decide +kernel)
  have other : ¬ (emptyChosen.opt.needCompress = false ∨ emptyChosen.opt.compressorName = "zstd") := by
    decide
  refine ⟨r, file, built, finished, rfl, fun agree => ?_, fun back => ?_⟩
  · exact other ((codecInverts_iff tagging_inverts tagging_changes rfl).mp agree)
  · exact other ((blocksReadBack_iff (by decide) (by decide) tagging_inverts tagging_changes rfl built
      finished).mp back).1

end RawSstable

end FrenzyKV
