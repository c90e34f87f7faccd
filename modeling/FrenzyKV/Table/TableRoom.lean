import FrenzyKV.Table.TableImage

namespace FrenzyKV

open Bytes

namespace SstableBuilder

variable {opt : Options} {filter : FilterPolicy} {sizeLimit : Nat} {b : SstableBuilder}
  {group : List KvEntry} {e : KvEntry}

/-- The builder has taken the entries of `group` and nothing else. -/
structure Filling (b : SstableBuilder) (group : List KvEntry) : Prop where
  limit : 0 < b.sizeLimit
  flushed : group = [] → b.sizeFlushed = 0
  entries : b.entries = group.map KvEntry.stored
  block : b.block.Inv
  keys : group ≠ [] → b.firstUk.isSome = true ∧ b.lastUk.isSome = true

theorem eq_of_refused {b' : SstableBuilder} (refused : b.add opt filter e = some (false, b')) : b' = b := by
  rw [SstableBuilder.add] at refused
  split at refused
  · exact (Prod.mk.inj (Option.some.inj refused)).2.symm
  · obtain ⟨block, -, eq⟩ := Option.map_eq_some_iff.mp refused
    dsimp only at eq
    split at eq
    · cases eq
    · cases eq

theorem make_filling (positive : 0 < sizeLimit) : ∃ b, make sizeLimit = some b ∧ b.Filling [] := by
  refine ⟨_, if_neg positive.ne', positive, fun _ => rfl, rfl, BlockBuilder.fresh_inv, ?_⟩
  intro some_entry
  exact absurd rfl some_entry

/-- A builder refuses an entry only after it has taken one, and is unchanged then. -/
theorem Filling.add (filling : b.Filling group) (opt : Options) (filter : FilterPolicy)
    (above : ∀ x ∈ group, x.userKey ≤ e.userKey) :
    (b.add opt filter e = some (false, b) ∧ group ≠ []) ∨
      ∃ b', b.add opt filter e = some (true, b') ∧ b'.Filling (group ++ [e]) := by
  by_cases full : b.reachTheSizeLimit = true
  · refine .inl ⟨by rw [SstableBuilder.add, if_pos full], ?_⟩
    intro empty
    have nothing := filling.flushed empty
    have limit := filling.limit
    rw [reachTheSizeLimit, decide_eq_true_iff] at full
    omega
  · have open_ : ∀ x ∈ b.block.entries, x.userKey ≤ e.userKey := by
      intro x mem
      have inside : x ∈ b.entries := List.mem_append_right _ mem
      rw [filling.entries] at inside
      obtain ⟨y, hy, rfl⟩ := List.mem_map.mp inside
      exact above y hy
    obtain ⟨block, blockAdded⟩ := BlockBuilder.add_isSome opt e filling.block open_
    have blockInv := BlockBuilder.add_inv filling.block blockAdded
    have first : (b.firstUk.or (some e.userKey)).isSome = true := by
      cases b.firstUk <;> rfl
    have some_entry : group ++ [e] ≠ [] := List.append_ne_nil_of_right_ne_nil _ (List.cons_ne_nil _ _)
    have step : ∃ b', b.add opt filter e = some (true, b') ∧ b'.sizeLimit = b.sizeLimit ∧
        b'.block.Inv ∧ b'.firstUk.isSome = true ∧ b'.lastUk.isSome = true := by
      rw [SstableBuilder.add, if_neg full, blockAdded, Option.map_some]
      by_cases flush : opt.blockSize ≤ block.storageSize
      · exact ⟨_, congrArg some (if_pos flush), rfl, BlockBuilder.fresh_inv, first, rfl⟩
      · exact ⟨_, congrArg some (if_neg flush), rfl, blockInv, first, rfl⟩
    obtain ⟨b', added, limit, inv, firstUk, lastUk⟩ := step
    refine .inr ⟨b', added, ?_, fun empty => absurd empty some_entry, ?_, inv, fun _ => ⟨firstUk, lastUk⟩⟩
    · rw [limit]
      exact filling.limit
    · rw [add_entries added, filling.entries, List.map_append, List.map_singleton]

theorem Filling.finish (filling : b.Filling group) (some_entry : group ≠ []) :
    ∃ t, b.finish = some t ∧ t.entries = group.map KvEntry.stored := by
  obtain ⟨firstUk, first⟩ := Option.isSome_iff_exists.mp (filling.keys some_entry).1
  obtain ⟨lastUk, last⟩ := Option.isSome_iff_exists.mp (filling.keys some_entry).2
  have finished : b.finish = some ⟨b.written ++ if b.block.isEmpty then [] else [b.block.finish],
      firstUk, lastUk, b.filterRep⟩ := by rw [SstableBuilder.finish, first, last]
  exact ⟨_, finished, (finish_entries filling.block finished).trans filling.entries⟩

/-- The splitting loop on a builder that holds entries: its tables hold them and those to come, and
none is empty. -/
theorem Filling.buildTables {es : List KvEntry} (filling : b.Filling group) (opt : Options)
    (filter : FilterPolicy) (positive : 0 < sizeLimit)
    (sorted : (group ++ es).Pairwise (·.userKey ≤ ·.userKey)) (some_entry : group ++ es ≠ []) :
    ∃ ts, FrenzyKV.buildTables opt filter sizeLimit b es = some ts ∧
      ts.flatMap Sstable.entries = (group ++ es).map KvEntry.stored ∧ ∀ t ∈ ts, t.entries ≠ [] := by
  induction es generalizing b group with
  | nil =>
    rw [List.append_nil] at some_entry ⊢
    obtain ⟨t, finished, entries⟩ := filling.finish some_entry
    refine ⟨[t], by rw [FrenzyKV.buildTables, finished]; rfl, ?_, List.forall_mem_singleton.mpr ?_⟩
    · rw [List.flatMap_singleton, entries]
    · rw [entries]
      exact List.map_eq_nil_iff.not.mpr some_entry
  | cons e es ih =>
    have regroup : group ++ e :: es = (group ++ [e]) ++ es := by
      rw [List.append_assoc, List.singleton_append]
    have cross := (List.pairwise_append.mp sorted).2
    rw [FrenzyKV.buildTables]
    rcases filling.add opt filter fun x mem => cross.2 x mem e List.mem_cons_self with
      ⟨refused, taken⟩ | ⟨b', added, filling'⟩
    · -- The table is full: the builder is unchanged, and the entry opens the next table.
      obtain ⟨t, finished, entries⟩ := filling.finish taken
      obtain ⟨fresh, made, empty⟩ := make_filling positive
      obtain ⟨b', added, filling'⟩ : ∃ b', fresh.add opt filter e = some (true, b') ∧ b'.Filling ([] ++ [e]) := by
        rcases empty.add opt filter (List.forall_mem_nil _) with ⟨_, absurd_⟩ | taken
        · exact absurd rfl absurd_
        · exact taken
      obtain ⟨ts, built, all, filled⟩ := ih filling' cross.1 (List.cons_ne_nil e es)
      refine ⟨t :: ts, ?_, ?_, List.forall_mem_cons.mpr ⟨?_, filled⟩⟩
      · rw [refused, Option.bind_some, if_neg Bool.false_ne_true, finished, Option.bind_some, made,
          Option.bind_some, added, Option.bind_some, if_pos rfl, built]
        rfl
      · rw [List.flatMap_cons, entries, all, ← List.map_append]
        rfl
      · rw [entries]
        exact List.map_eq_nil_iff.not.mpr taken
    · rw [added, Option.bind_some, if_pos rfl, regroup]
      rw [regroup] at sorted
      exact ih filling' sorted (List.append_ne_nil_of_left_ne_nil
        (List.append_ne_nil_of_right_ne_nil _ (List.cons_ne_nil _ _)) _)

end SstableBuilder

theorem buildTablesFrom_entries {sizeLimit : Nat} {es : List KvEntry} (opt : Options) (filter : FilterPolicy)
    (positive : 0 < sizeLimit) (some_entry : es ≠ []) (sorted : es.Pairwise (·.key ≤ ·.key)) :
    ∃ ts, buildTablesFrom opt filter sizeLimit es = some ts ∧
      ts.flatMap Sstable.entries = es.map KvEntry.stored ∧ ∀ t ∈ ts, t.entries ≠ [] := by
  obtain ⟨b, made, filling⟩ := SstableBuilder.make_filling positive
  obtain ⟨ts, built, all⟩ := filling.buildTables opt filter positive
    (sorted.imp SequencedKey.userKey_mono) some_entry
  exact ⟨ts, by rw [buildTablesFrom, made, Option.bind_some, built], all⟩

/-- Sizes of a table that can be written: `block_builder::finish` asserts those of the blocks, the
file system limits that of the file. -/
structure Sstable.Room (d : TableDeps) (t : Sstable) : Prop where
  blocks : ∀ x ∈ t.blocks, (d.image x).length ≤ maxBtl
  metaBlock : (t.metaImage d).length ≤ maxBtl
  file : (t.image d).length ≤ maxFileSize

instance (d : TableDeps) (t : Sstable) : Decidable (t.Room d) :=
  decidable_of_iff ((∀ x ∈ t.blocks, (d.image x).length ≤ maxBtl) ∧
      (t.metaImage d).length ≤ maxBtl ∧ (t.image d).length ≤ maxFileSize)
    ⟨fun all => ⟨all.1, all.2.1, all.2.2⟩, fun room => ⟨room.blocks, room.metaBlock, room.file⟩⟩

/-- The tables that entries are split into can be written. -/
def TableDeps.Room (d : TableDeps) (sizeLimit : Nat) (es : List KvEntry) : Prop :=
  ∃ ts, buildTablesFrom d.opt.toOptions d.filter sizeLimit es = some ts ∧ ∀ t ∈ ts, t.Room d

instance (d : TableDeps) (sizeLimit : Nat) (es : List KvEntry) : Decidable (d.Room sizeLimit es) :=
  decidable_of_iff (((buildTablesFrom d.opt.toOptions d.filter sizeLimit es).any fun ts =>
      ts.all fun t => t.Room d) = true) <| by
    simp [TableDeps.Room, Option.any_eq_true]

theorem Sstable.Filed.room {d : TableDeps} {t : Sstable} (filed : t.Filed d) : t.Room d where
  blocks := filed.fileOf.small
  metaBlock := by
    obtain ⟨metaBuilder, added, small, -⟩ := filed.fileOf.whole filed.present
    rw [metaImage, added]
    exact small
  file := filed.fileOf.size

namespace RawSstableBuilder

variable {d : TableDeps} {r r' : RawSstableBuilder} {compressor : Option CompressorPolicy}

theorem appendToFile_of_room {file bytes : ByteString} (room : (file ++ bytes).length ≤ maxFileSize) :
    appendToFile file bytes = some (file ++ bytes) := if_pos room

/-- A flush whose block and file are small enough succeeds. -/
theorem flushCurrentBlock_of_room (opened : r.block.publicPrefix ≠ none)
    (small : (storeContent d.opt compressor d.crc32c r.block.content).length ≤ maxBtl)
    (room : (r.file ++ storeContent d.opt compressor d.crc32c r.block.content).length ≤ maxFileSize) :
    ∃ r', r.flushCurrentBlock d compressor = some r' := by
  have finished : r.block.finish d.opt compressor d.crc32c =
      some (storeContent d.opt compressor d.crc32c r.block.content) := by
    rw [RawBlockBuilder.finish, if_neg opened]
    exact if_pos small
  exact ⟨_, by rw [flushCurrentBlock, if_neg opened, finished, Option.bind_some, appendToFile_of_room room,
    Option.map_some]⟩

/-- The meta block and the footer are written where they fit. -/
theorem finish_of_room {flushed : RawSstableBuilder}
    (flush : r.flushCurrentBlock d (getCompressor d.zstd d.opt "zstd") = some flushed)
    (positive : 1 ≤ d.opt.maxBlockSegmentsNumber) (lastUk : flushed.lastUk ≠ []) (firstUk : flushed.firstUk ≠ [])
    (room : flushed.filterRep ≠ [] → ∀ metaBuilder : BlockBuilder,
      BlockBuilder.fresh.addAll d.opt.toOptions
        (MetaBlock.entries flushed.lastUk flushed.firstUk flushed.filterRep) = some metaBuilder →
      let block := sealBlock d.crc32c 0 metaBuilder.finish.openContent
      block.length ≤ maxBtl ∧ (flushed.file ++ block ++ (encodeBigEndian mboSize flushed.bytesAppendedToFile ++
        encodeBigEndian mgnSize magicNumber)).length ≤ maxFileSize) :
    ∃ file, r.finish d = some file := by
  rw [finish, flush, Option.bind_some]
  by_cases bare : flushed.filterRep = []
  · exact ⟨_, if_pos bare⟩
  · obtain ⟨metaBuilder, rawMeta, added, rawAdded, stores, started⟩ :=
      addAll_metaEntries d.opt.toOptions flushed.lastUk flushed.firstUk flushed.filterRep
    obtain ⟨small, whole⟩ := room bare metaBuilder added
    have opened : rawMeta.publicPrefix ≠ none := by
      rw [stores.publicPrefix]
      simpa using started
    have content : storeContent d.opt none d.crc32c rawMeta.moved.content =
        sealBlock d.crc32c 0 metaBuilder.finish.openContent := by
      rw [storeContent_plain rfl, BlockBuilder.content_moved stores started]
    have size : (flushed.file ++ storeContent d.opt none d.crc32c rawMeta.moved.content).length ≤ maxFileSize := by
      rw [List.length_append] at whole
      rw [content]
      omega
    obtain ⟨done, flushMeta⟩ : ∃ done, ({ flushed with block := rawMeta.moved }).flushCurrentBlock d none = some done :=
      flushCurrentBlock_of_room opened (content ▸ small) size
    have written : done.file = flushed.file ++ sealBlock d.crc32c 0 metaBuilder.finish.openContent := by
      rw [(flushCurrentBlock_of_content opened flushMeta).2.2]
      exact congrArg (flushed.file ++ ·) content
    refine ⟨flushed.file ++ sealBlock d.crc32c 0 metaBuilder.finish.openContent ++ (encodeBigEndian mboSize
      flushed.bytesAppendedToFile ++ encodeBigEndian mgnSize magicNumber), ?_⟩
    rw [if_neg bare, if_neg (not_or.mpr ⟨lastUk, firstUk⟩), if_neg (Nat.pos_iff_ne_zero.mp positive), rawAdded, Option.bind_some]
    dsimp only
    rw [flushMeta, Option.bind_some, written]
    exact appendToFile_of_room whole

end RawSstableBuilder

namespace SstableBuilder

variable {d : TableDeps} {b b' : SstableBuilder} {r : RawSstableBuilder} {e : KvEntry} {es : List KvEntry}
  {sizeLimit : Nat} {t : Sstable} {ts : List Sstable}

/-- The blocks of a table begin with those that its builder has written already. -/
theorem written_of_buildTables {opt : Options} {filter : FilterPolicy}
    (built : buildTables opt filter sizeLimit b es = some ts) :
    ∃ t ∈ ts, ∃ rest, t.blocks = b.written ++ rest := by
  induction es generalizing b ts with
  | nil =>
    obtain ⟨t, made, rfl⟩ := Option.map_eq_some_iff.mp built
    exact ⟨t, List.mem_cons_self, _, blocks_of_finish made⟩
  | cons e es ih =>
    obtain ⟨⟨taken, next⟩, added, rest⟩ := Option.bind_eq_some_iff.mp built
    cases taken with
    | true =>
      obtain ⟨t, mem, behind, blocks⟩ := ih rest
      obtain ⟨block, -, -, -, -, cutting⟩ := add_shape added
      split at cutting
      · exact ⟨t, mem, [block.finish] ++ behind, by rw [blocks, cutting.1, List.append_assoc]⟩
      · exact ⟨t, mem, behind, by rw [blocks, cutting.1]⟩
    | false =>
      obtain ⟨t, made, rest⟩ := Option.bind_eq_some_iff.mp rest
      obtain ⟨fresh, -, rest⟩ := Option.bind_eq_some_iff.mp rest
      obtain ⟨added', -, rest⟩ := Option.bind_eq_some_iff.mp rest
      obtain ⟨-, rest⟩ := Option.ite_none_right_eq_some.mp rest
      obtain ⟨later, -, rfl⟩ := Option.map_eq_some_iff.mp rest
      exact ⟨t, List.mem_cons_self, _, blocks_of_finish made⟩

/-- What comes before the meta block is no longer than the file. -/
theorem length_of_blocks {x : List Block} {rest : List Block} (room : t.Room d) (blocks : t.blocks = x ++ rest) :
    (x.flatMap d.image).length ≤ maxFileSize := by
  obtain ⟨behind, whole⟩ := Sstable.image_front d t
  have size := room.file
  rw [whole, blocks, List.flatMap_append, List.append_assoc, List.length_append] at size
  omega

theorem room_of_buildTables {opt : Options} {filter : FilterPolicy}
    (built : buildTables opt filter sizeLimit b es = some ts) (room : ∀ t ∈ ts, t.Room d) :
    (∀ x ∈ b.written, (d.image x).length ≤ maxBtl) ∧ (b.written.flatMap d.image).length ≤ maxFileSize := by
  obtain ⟨t, mem, rest, blocks⟩ := written_of_buildTables built
  refine ⟨fun x old => (room t mem).blocks x ?_, length_of_blocks (room t mem) blocks⟩
  rw [blocks]
  exact List.mem_append_left rest old

theorem stores_of_make (d : TableDeps) (made : make sizeLimit = some b) :
    ∃ r, RawSstableBuilder.make sizeLimit = some r ∧ b.Stores d r := by
  have positive : sizeLimit ≠ 0 := by
    intro zero
    rw [make, if_pos zero] at made
    cases made
  have rawMade : RawSstableBuilder.make sizeLimit = some _ := if_neg positive
  obtain ⟨b', made', stores⟩ := make_stores d rawMade
  obtain rfl := Option.some.inj (made.symm.trans made')
  exact ⟨_, rawMade, stores⟩

/-- An `add` on blocks succeeds on bytes where the table has room. -/
theorem Stores.add_of_room (stores : b.Stores d r) (short : e.userKey.size < 2 ^ 16)
    (added : b.add d.opt.toOptions d.filter e = some (true, b'))
    (small : ∀ x ∈ b'.written, (d.image x).length ≤ maxBtl)
    (room : (b'.written.flatMap d.image).length ≤ maxFileSize) :
    ∃ r', r.add d e = some (true, r') ∧ b'.Stores d r' := by
  obtain ⟨r', rawAdded⟩ : ∃ r', r.add d e = some (true, r') := by
    obtain ⟨block, blockAdded, -, -, -, cutting⟩ := add_shape added
    have open_ : ¬ r.reachTheSizeLimit = true := by
      intro full
      rw [SstableBuilder.add, if_pos (stores.reachTheSizeLimit ▸ full)] at added
      cases (Prod.mk.inj (Option.some.inj added)).1
    have run := BlockBuilder.add_stores d.opt.toOptions stores.block short stores.short
    rw [blockAdded] at run
    obtain ⟨seg, current, -⟩ := BlockBuilder.add_current blockAdded
    cases rawAdded : r.block.add d.opt.toOptions e with
    | none =>
      rw [rawAdded] at run
      cases run
    | some rawBlock =>
      rw [rawAdded] at run
      cases run with
      | some blockStores =>
        have started : block.current ≠ none := by
          rw [current]
          exact Option.some_ne_none seg
        rw [RawSstableBuilder.add, if_neg open_, rawAdded, Option.bind_some]
        dsimp only
        rw [blockStores.size]
        by_cases flush : d.opt.blockSize ≤ block.storageSize
        · rw [if_pos flush] at cutting ⊢
          rw [cutting.1, List.flatMap_append, List.flatMap_singleton, ← stores.file] at room
          have last := small block.finish (cutting.1 ▸ List.mem_append_right _ List.mem_cons_self)
          have content := BlockBuilder.content_eq blockStores started
          have opened : rawBlock.publicPrefix ≠ none := by
            rw [blockStores.publicPrefix]
            simpa using started
          rw [TableDeps.image, ← content] at room last
          obtain ⟨flushed, eq⟩ := RawSstableBuilder.flushCurrentBlock_of_room
            (r := ⟨_, _, _, _, _, rawBlock, _, _⟩) opened last room
          exact ⟨_, by rw [eq]; rfl⟩
        · rw [if_neg flush]
          exact ⟨_, rfl⟩
  obtain ⟨b'', added', stores'⟩ := add_stores stores short rawAdded
  obtain ⟨-, rfl⟩ := Prod.mk.inj (Option.some.inj (added.symm.trans added'))
  exact ⟨r', rawAdded, stores'⟩

/-- A builder on bytes refuses an entry where the one on blocks does. -/
theorem Stores.refused (stores : b.Stores d r) {opt : Options} {filter : FilterPolicy}
    (refused : b.add opt filter e = some (false, b')) : r.add d e = some (false, r) := by
  have full : b.reachTheSizeLimit = true := by
    by_contra open_
    rw [SstableBuilder.add, if_neg open_] at refused
    obtain ⟨block, -, eq⟩ := Option.map_eq_some_iff.mp refused
    dsimp only at eq
    split at eq
    · cases (Prod.mk.inj eq).1
    · cases (Prod.mk.inj eq).1
  rw [RawSstableBuilder.add, if_pos (stores.reachTheSizeLimit ▸ full)]

/-- A table that has room is finished. -/
theorem Stores.finish_of_room (stores : b.Stores d r) (positive : 1 ≤ d.opt.maxBlockSegmentsNumber)
    (made : b.finish = some t) (room : t.Room d) :
    ∃ file, r.finish d = some file := by
  have blocks := blocks_of_finish made
  have flushes : ∃ r', r.flushCurrentBlock d (getCompressor d.zstd d.opt "zstd") = some r' := by
    cases current : b.block.current with
    | none =>
      have closed : r.block.publicPrefix = none := by rw [stores.block.publicPrefix, current]; rfl
      exact ⟨r, if_pos closed⟩
    | some seg =>
      have all : t.blocks = b.written ++ [b.block.finish] := by
        rw [blocks, SstableBuilder.blocks, BlockBuilder.isEmpty, current]
        rfl
      have started : b.block.current ≠ none := by
        rw [current]
        exact Option.some_ne_none seg
      have opened : r.block.publicPrefix ≠ none := by
        rw [stores.block.publicPrefix]
        simpa using started
      have last := room.blocks b.block.finish (all ▸ List.mem_append_right _ List.mem_cons_self)
      have size := length_of_blocks room (all.trans (List.append_nil _).symm)
      rw [List.flatMap_append, List.flatMap_singleton, ← stores.file] at size
      rw [TableDeps.image, ← BlockBuilder.content_eq stores.block started] at last size
      exact RawSstableBuilder.flushCurrentBlock_of_room opened last size
  obtain ⟨flushed, flush⟩ := flushes
  obtain ⟨file, -, -, appended, firstUk, lastUk, filterRep⟩ := RawSstableBuilder.flush_last stores flush
  have keys : t.filterRep = b.filterRep ∧ b.firstUk = some t.firstUk ∧ b.lastUk = some t.lastUk := by
    rw [SstableBuilder.finish] at made
    split at made
    · rename_i first last
      obtain rfl := Option.some.inj made
      exact ⟨rfl, first, last⟩
    · cases made
  rw [stores.firstUk, keys.2.1] at firstUk
  rw [stores.lastUk, keys.2.2] at lastUk
  rw [stores.filterRep, ← keys.1] at filterRep
  refine RawSstableBuilder.finish_of_room flush positive (lastUk ▸ serialize_ne_nil _) (firstUk ▸ serialize_ne_nil _) ?_
  intro present metaBuilder added
  rw [firstUk, lastUk, filterRep] at added
  have metaBlock : t.metaImage d = sealBlock d.crc32c 0 metaBuilder.finish.openContent := by
    rw [Sstable.metaImage]
    exact congrArg (fun m => (Option.map _ m).getD []) added
  have whole : t.image d = flushed.file ++ sealBlock d.crc32c 0 metaBuilder.finish.openContent ++
      (encodeBigEndian mboSize flushed.bytesAppendedToFile ++ encodeBigEndian mgnSize magicNumber) := by
    rw [appended, file, ← blocks, ← metaBlock, List.append_assoc, Sstable.image, if_neg (filterRep ▸ present)]
  exact ⟨metaBlock ▸ room.metaBlock, whole ▸ room.file⟩

/-- The loop on bytes ends where the tables have room. -/
theorem Stores.buildFiles_of_room (stores : b.Stores d r)
    (positive : 1 ≤ d.opt.maxBlockSegmentsNumber) (short : ∀ e ∈ es, e.userKey.size < 2 ^ 16)
    (built : buildTables d.opt.toOptions d.filter sizeLimit b es = some ts) (room : ∀ t ∈ ts, t.Room d) :
    ∃ files, r.buildFiles d sizeLimit es = some files := by
  induction es generalizing b r ts with
  | nil =>
    obtain ⟨t, made, rfl⟩ := Option.map_eq_some_iff.mp built
    obtain ⟨file, finished⟩ := stores.finish_of_room positive made (room t List.mem_cons_self)
    exact ⟨[file], by rw [RawSstableBuilder.buildFiles, finished]; rfl⟩
  | cons e es ih =>
    obtain ⟨here, others⟩ := List.forall_mem_cons.mp short
    obtain ⟨⟨taken, b'⟩, added, rest⟩ := Option.bind_eq_some_iff.mp built
    cases taken with
    | true =>
      obtain ⟨small, size⟩ := room_of_buildTables rest room
      obtain ⟨r', rawAdded, stores'⟩ := stores.add_of_room here added small size
      obtain ⟨files, later⟩ := ih stores' others rest room
      exact ⟨files, by rw [RawSstableBuilder.buildFiles, rawAdded]; exact later⟩
    | false =>
      obtain ⟨t, made, rest⟩ := Option.bind_eq_some_iff.mp rest
      obtain ⟨fresh, freshMade, rest⟩ := Option.bind_eq_some_iff.mp rest
      obtain ⟨⟨taken, b''⟩, added', rest⟩ := Option.bind_eq_some_iff.mp rest
      cases taken with
      | false => cases rest
      | true =>
        obtain ⟨ts', tables, rfl⟩ := Option.map_eq_some_iff.mp rest
        obtain ⟨roomHere, roomLater⟩ := List.forall_mem_cons.mp room
        obtain ⟨file, finished⟩ := stores.finish_of_room positive made roomHere
        obtain ⟨raw, rawMade, stores0⟩ := stores_of_make d freshMade
        obtain ⟨small, size⟩ := room_of_buildTables tables roomLater
        obtain ⟨r', rawAdded, stores'⟩ := stores0.add_of_room here added' small size
        obtain ⟨files, later⟩ := ih stores' others tables roomLater
        refine ⟨file :: files, ?_⟩
        rw [RawSstableBuilder.buildFiles, stores.refused added, Option.bind_some, if_neg Bool.false_ne_true,
          finished, Option.bind_some, rawMade, Option.bind_some, rawAdded, Option.bind_some, if_pos rfl, later,
          Option.map_some]

end SstableBuilder

/-- The files of encodable entries can be written where their tables have room, and where the number by
which the builder of the meta block divides is not zero. -/
theorem RawSstableBuilder.buildFilesFrom_isSome_iff {d : TableDeps} {sizeLimit : Nat} {es : List KvEntry}
    (leaves : d.filter.Leaves) (some_entry : es ≠ []) (sorted : es.Pairwise (·.key ≤ ·.key))
    (encodable : ∀ e ∈ es, e.Encodable) :
    (buildFilesFrom d sizeLimit es).isSome = true ↔
      1 ≤ d.opt.maxBlockSegmentsNumber ∧ d.Room sizeLimit es := by
  constructor
  · intro some_files
    obtain ⟨files, filed⟩ := Option.isSome_iff_exists.mp some_files
    have positive : 0 < sizeLimit := by
      obtain ⟨b, made, -⟩ := Option.bind_eq_some_iff.mp filed
      by_contra zero
      rw [make, if_pos (by omega)] at made
      cases made
    obtain ⟨ts, built, -⟩ := buildTablesFrom_entries d.opt.toOptions d.filter positive some_entry sorted
    obtain ⟨rfl, done⟩ := buildFilesFrom_image leaves encodable built filed
    obtain ⟨t, mem⟩ := List.exists_mem_of_ne_nil ts (List.map_eq_nil_iff.not.mp (ne_nil_of_buildFilesFrom filed))
    exact ⟨(done t mem).fileOf.positive (done t mem).present, ts, built, fun t mem => (done t mem).room⟩
  · rintro ⟨positive, ts', built', room⟩
    obtain ⟨b, made, tables⟩ := Option.bind_eq_some_iff.mp built'
    obtain ⟨r, rawMade, stores⟩ := SstableBuilder.stores_of_make d made
    obtain ⟨files, filed⟩ := stores.buildFiles_of_room positive (fun e mem => by have := (encodable e mem).1; omega)
      tables room
    exact Option.isSome_iff_exists.mpr ⟨files, by rw [buildFilesFrom, rawMade]; exact filed⟩

end FrenzyKV
