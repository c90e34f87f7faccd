import FrenzyKV.Persistent.BlockFormat
import FrenzyKV.Table.FilterGate

/-! The bytes of a table: `sstable_builder` on its file (`table/sstable_builder.cc`). -/

namespace FrenzyKV

open Bytes

/-- What tables depend on: the options, the codec and checksum libraries, and the filter. -/
structure TableDeps where
  opt : StorageOptions
  zstd : Zstd
  crc32c : ByteString → UInt32
  filter : FilterPolicy

def mboSize : Nat := 8
def mgnSize : Nat := 4
def magicNumber : Nat := 0x47d6ddc3

/-- Files have no offsets beyond those of `off_t`; a longer append fails. -/
def maxFileSize : Nat := 2 ^ 63 - 1

/-- `seq_writable::append`. -/
def appendToFile (file bytes : ByteString) : Option ByteString :=
  if (file ++ bytes).length ≤ maxFileSize then some (file ++ bytes) else none

/-- `make_empty_filter`. -/
def makeEmptyFilter : FilterPolicy where
  appendNewFilter _ dst := dst
  mayMatch _ _ := true

structure RawSstableBuilder where
  sizeLimit : Nat
  sizeFlushed : Nat
  firstUk : ByteString
  lastUk : ByteString
  filterRep : ByteString
  block : RawBlockBuilder
  file : ByteString
  bytesAppendedToFile : Nat

namespace RawSstableBuilder

variable (d : TableDeps)

/-- The constructor on an empty file; it asserts that the limit is not zero. -/
def make (sizeLimit : Nat) : Option RawSstableBuilder :=
  if sizeLimit = 0 then none else some ⟨sizeLimit, 0, [], [], [], .fresh, [], 0⟩

def reachTheSizeLimit (b : RawSstableBuilder) : Bool := b.sizeLimit ≤ b.sizeFlushed

/-- `flush_current_block`, which does nothing when there is no block; no result means that an
assertion or the append fails. -/
def flushCurrentBlock (compressor : Option CompressorPolicy) (b : RawSstableBuilder) :
    Option RawSstableBuilder :=
  if b.block.publicPrefix = none then some b
  else
    (b.block.finish d.opt compressor d.crc32c).bind fun storage =>
      (appendToFile b.file storage).map fun file => {
        b with
        block := .fresh
        file
        bytesAppendedToFile := b.bytesAppendedToFile + storage.length }

/-- `sstable_builder::add`. -/
def add (b : RawSstableBuilder) (e : KvEntry) : Option (Bool × RawSstableBuilder) :=
  if b.reachTheSizeLimit then some (false, b)
  else
    let keyRep := e.key.serializeUserKey
    (b.block.add d.opt.toOptions e).bind fun block =>
      let b := {
        b with
        firstUk := if b.firstUk = [] then keyRep else b.firstUk
        filterRep :=
          if keyRep = b.lastUk then b.filterRep else d.filter.appendNewFilter keyRep b.filterRep
        lastUk := keyRep
        block }
      if d.opt.blockSize ≤ block.storage.length then
        (b.flushCurrentBlock d (getCompressor d.zstd d.opt "zstd")).map fun b =>
          (true, { b with sizeFlushed := b.sizeFlushed + b.block.storage.length })
      else some (true, b)

/-- Entries added one after another, each call returning true. -/
def addAll : RawSstableBuilder → List KvEntry → Option RawSstableBuilder
  | b, [] => some b
  | b, e :: es => (b.add d e).bind fun added => if added.1 then addAll added.2 es else none

end RawSstableBuilder

namespace MetaBlock

/-- The bytes of an identifier. -/
def identifier (chars : List Char) : UserKey := ⟨chars.map fun c => UInt8.ofNat c.toNat⟩

def lastUkKey : UserKey := identifier ['l', 'a', 's', 't', '_', 'u', 'k']
def firstUkKey : UserKey := identifier ['f', 'i', 'r', 's', 't', '_', 'u', 'k']
def bloomFilterKey : UserKey :=
  identifier ['b', 'l', 'o', 'o', 'm', '_', 'f', 'i', 'l', 't', 'e', 'r']

/-- What `finish` adds to the meta block. -/
def entries (lastUk firstUk filterRep : ByteString) : List KvEntry :=
  [⟨⟨0, lastUkKey⟩, some lastUk⟩, ⟨⟨0, firstUkKey⟩, some firstUk⟩, ⟨⟨0, bloomFilterKey⟩, some filterRep⟩]

end MetaBlock

namespace RawSstableBuilder

/-- `sstable_builder::finish`, and the file it leaves. A table whose filter is empty passes for
one without entries: nothing is written behind its blocks. The builder of the meta block is moved
while its last segment is open. -/
def finish (d : TableDeps) (b : RawSstableBuilder) : Option ByteString :=
  (b.flushCurrentBlock d (getCompressor d.zstd d.opt "zstd")).bind fun b =>
    if b.filterRep = [] then some b.file
    else if b.lastUk = [] ∨ b.firstUk = [] then none
    -- the meta block has three segments, and at the second its builder divides by this number
    else if d.opt.maxBlockSegmentsNumber = 0 then none
    else
      (RawBlockBuilder.fresh.addAll d.opt.toOptions
        (MetaBlock.entries b.lastUk b.firstUk b.filterRep)).bind fun metaBuilder =>
          let mbo := b.bytesAppendedToFile
          ({ b with block := metaBuilder.moved }.flushCurrentBlock d none).bind fun b =>
            appendToFile b.file (encodeBigEndian mboSize mbo ++ encodeBigEndian mgnSize magicNumber)

end RawSstableBuilder

namespace TableDeps

variable (d : TableDeps)

/-- The bytes of a data block. -/
def image (b : Block) : ByteString :=
  storeContent d.opt (getCompressor d.zstd d.opt "zstd") d.crc32c b.content

/-- The data blocks that are cut from entries. -/
def dataBlocks (opt : Options) : BlockBuilder → List KvEntry → Option (List Block)
  | b, [] => some (if b.isEmpty then [] else [b.finish])
  | b, e :: es =>
    (b.add opt e).bind fun b =>
      if opt.blockSize ≤ b.storageSize then (dataBlocks opt .fresh es).map (b.finish :: ·)
      else dataBlocks opt b es

end TableDeps

namespace RawSstableBuilder

variable {d : TableDeps} {r r' : RawSstableBuilder} {compressor : Option CompressorPolicy}

/-- A flush appends the stored content of the block. -/
theorem flushCurrentBlock_of_content (opened : r.block.publicPrefix ≠ none)
    (flushed : r.flushCurrentBlock d compressor = some r') :
    let storage := storeContent d.opt compressor d.crc32c r.block.content
    storage.length ≤ maxBtl ∧ (r.file ++ storage).length ≤ maxFileSize ∧
      r' = {
        r with
        block := .fresh
        file := r.file ++ storage
        bytesAppendedToFile := r.bytesAppendedToFile + storage.length } := by
  rw [flushCurrentBlock, if_neg opened] at flushed
  obtain ⟨storage, finished, written⟩ := Option.bind_eq_some_iff.mp flushed
  obtain ⟨file, appended, eq⟩ := Option.map_eq_some_iff.mp written
  rw [RawBlockBuilder.finish, if_neg opened] at finished
  dsimp only at finished
  split at finished
  · rename_i small
    obtain rfl := Option.some.inj finished
    rw [appendToFile] at appended
    split at appended
    · rename_i room
      obtain rfl := Option.some.inj appended
      exact ⟨small, room, eq.symm⟩
    · cases appended
  · cases finished

theorem flushCurrentBlock_of_stores {block : BlockBuilder} (stores : block.Stores r.block)
    (started : block.current ≠ none) (flushed : r.flushCurrentBlock d compressor = some r') :
    let storage := storeContent d.opt compressor d.crc32c block.finish.content
    storage.length ≤ maxBtl ∧ (r.file ++ storage).length ≤ maxFileSize ∧
      r' = {
        r with
        block := .fresh
        file := r.file ++ storage
        bytesAppendedToFile := r.bytesAppendedToFile + storage.length } := by
  rw [← BlockBuilder.content_eq stores started]
  refine flushCurrentBlock_of_content ?_ flushed
  rw [stores.publicPrefix]
  simpa using started

end RawSstableBuilder

/-- The file of a builder is the bytes of the blocks that were written. -/
structure SstableBuilder.Stores (d : TableDeps) (b : SstableBuilder) (r : RawSstableBuilder) :
    Prop where
  sizeLimit : r.sizeLimit = b.sizeLimit
  sizeFlushed : r.sizeFlushed = b.sizeFlushed
  firstUk : r.firstUk = (b.firstUk.map UserKey.serialize).getD []
  lastUk : r.lastUk = (b.lastUk.map UserKey.serialize).getD []
  filterRep : r.filterRep = b.filterRep
  block : b.block.Stores r.block
  short : ∀ seg, b.block.current = some seg → seg.userKey.size < 2 ^ 16
  file : r.file = b.written.flatMap d.image
  appended : r.bytesAppendedToFile = r.file.length
  size : r.file.length ≤ maxFileSize
  small : ∀ x ∈ b.written, (d.image x).length ≤ maxBtl

namespace SstableBuilder

variable {d : TableDeps} {b : SstableBuilder} {r r' : RawSstableBuilder} {e : KvEntry}
  {es : List KvEntry}

theorem make_stores (d : TableDeps) {sizeLimit : Nat} (made : RawSstableBuilder.make sizeLimit = some r) :
    ∃ b, make sizeLimit = some b ∧ b.Stores d r := by
  rw [RawSstableBuilder.make] at made
  split at made
  · cases made
  · rename_i positive
    obtain rfl := Option.some.inj made
    refine ⟨_, if_neg positive, ⟨rfl, rfl, rfl, rfl, rfl, BlockBuilder.fresh_stores, ?_, rfl, rfl, ?_, ?_⟩⟩
    · intro seg current
      cases current
    · exact Nat.zero_le _
    · intro x mem
      cases mem

theorem serialize_ne_nil (k : UserKey) : k.serialize ≠ [] := by
  intro empty
  have length := UserKey.serialize_length k
  rw [empty, List.length_nil, userKeyLengthBytesSize] at length
  omega

theorem Stores.reachTheSizeLimit (stores : b.Stores d r) :
    r.reachTheSizeLimit = b.reachTheSizeLimit := by
  rw [RawSstableBuilder.reachTheSizeLimit, stores.sizeLimit, stores.sizeFlushed,
    SstableBuilder.reachTheSizeLimit]

theorem Stores.nextFirstUk (stores : b.Stores d r) (uk : UserKey) :
    (if r.firstUk = [] then uk.serialize else r.firstUk) =
      ((b.firstUk.or (some uk)).map UserKey.serialize).getD [] := by
  rw [stores.firstUk]
  cases b.firstUk with
  | none => rfl
  | some k => exact if_neg (serialize_ne_nil k)

theorem Stores.lastUk_iff (stores : b.Stores d r) (uk : UserKey) :
    uk.serialize = r.lastUk ↔ b.lastUk = some uk := by
  rw [stores.lastUk]
  cases b.lastUk with
  | none => simp [serialize_ne_nil]
  | some k =>
    constructor
    · intro same
      exact congrArg some (UserKey.serialize_inj same).symm
    · intro same
      rw [Option.some.inj same]
      rfl

theorem Stores.nextFilterRep (stores : b.Stores d r) (e : KvEntry) :
    (if e.userKey.serialize = r.lastUk then r.filterRep
      else d.filter.appendNewFilter e.userKey.serialize r.filterRep) =
      if b.lastUk = some e.userKey then b.filterRep
        else d.filter.appendNewFilter e.key.serializeUserKey b.filterRep := by
  have key : e.key.serializeUserKey = e.userKey.serialize := UserKey.serializeUserKey_eq e.key
  simp only [stores.lastUk_iff, stores.filterRep, key]

/-- An `add` that returns true on bytes does so on blocks. -/
theorem add_stores (stores : b.Stores d r) (short : e.userKey.size < 2 ^ 16)
    (added : r.add d e = some (true, r')) :
    ∃ b', b.add d.opt.toOptions d.filter e = some (true, b') ∧ b'.Stores d r' := by
  have key : e.key.serializeUserKey = e.userKey.serialize := UserKey.serializeUserKey_eq e.key
  rw [RawSstableBuilder.add, stores.reachTheSizeLimit, key] at added
  rw [add]
  by_cases full : b.reachTheSizeLimit = true
  · rw [if_pos full] at added
    cases (Prod.mk.inj (Option.some.inj added)).1
  · rw [if_neg full] at added ⊢
    obtain ⟨rawBlock, rawAdded, later⟩ := Option.bind_eq_some_iff.mp added
    have run := BlockBuilder.add_stores d.opt.toOptions stores.block short stores.short
    rw [rawAdded] at run
    cases blockAdded : b.block.add d.opt.toOptions e with
    | none =>
      rw [blockAdded] at run
      cases run
    | some block =>
      rw [blockAdded] at run
      cases run with
      | some blockStores =>
        obtain ⟨seg, current, userKey⟩ := BlockBuilder.add_current blockAdded
        rw [blockStores.size, stores.nextFirstUk, stores.nextFilterRep] at later
        rw [Option.map_some]
        dsimp only at later ⊢
        by_cases flush : d.opt.blockSize ≤ block.storageSize
        · rw [if_pos flush] at later ⊢
          obtain ⟨next, flushed, eq⟩ := Option.map_eq_some_iff.mp later
          obtain ⟨small, room, shape⟩ := RawSstableBuilder.flushCurrentBlock_of_stores
            (r := ⟨_, _, _, _, _, rawBlock, _, _⟩) blockStores (by rw [current]; exact Option.some_ne_none _) flushed
          obtain rfl := (Prod.mk.inj eq).2
          refine ⟨_, rfl, ?_⟩
          rw [shape]
          constructor
          · exact stores.sizeLimit
          · exact congrArg (· + _) stores.sizeFlushed
          · rfl
          · rfl
          · rfl
          · exact BlockBuilder.fresh_stores
          · intro seg current
            cases current
          · change r.file ++ _ = _
            rw [List.flatMap_append, List.flatMap_singleton, stores.file]
            rfl
          · change r.bytesAppendedToFile + _ = (r.file ++ _).length
            rw [stores.appended, List.length_append]
          · exact room
          · intro x mem
            cases List.mem_append.mp mem with
            | inl old => exact stores.small x old
            | inr new =>
              rw [List.mem_singleton.mp new]
              exact small
        · rw [if_neg flush] at later ⊢
          obtain rfl := (Prod.mk.inj (Option.some.inj later)).2
          refine ⟨_, rfl, ⟨stores.sizeLimit, stores.sizeFlushed, rfl, rfl, rfl, blockStores, ?_,
            stores.file, stores.appended, stores.size, stores.small⟩⟩
          intro seg' current'
          change block.current = some seg' at current'
          rw [current] at current'
          rw [← Option.some.inj current', userKey]
          exact short

theorem addAll_stores (stores : b.Stores d r) (short : ∀ e ∈ es, e.userKey.size < 2 ^ 16)
    (added : r.addAll d es = some r') :
    ∃ b', b.addAll d.opt.toOptions d.filter es = some b' ∧ b'.Stores d r' := by
  induction es generalizing b r with
  | nil =>
    obtain rfl := Option.some.inj added
    exact ⟨b, rfl, stores⟩
  | cons e es ih =>
    obtain ⟨⟨taken, next⟩, first, later⟩ := Option.bind_eq_some_iff.mp added
    cases taken with
    | false => cases later
    | true =>
      obtain ⟨b', step, stores'⟩ := add_stores stores (short e List.mem_cons_self) first
      obtain ⟨last, run, done⟩ := ih stores' (fun x mem => short x (List.mem_cons_of_mem _ mem)) later
      exact ⟨last, by rw [addAll, step, Option.bind_some, if_pos rfl, run], done⟩

/-- What an `add` that returns true does. -/
theorem add_shape {opt : Options} {filter : FilterPolicy} {b' : SstableBuilder}
    (added : b.add opt filter e = some (true, b')) :
    ∃ block, b.block.add opt e = some block ∧ b'.firstUk = b.firstUk.or (some e.userKey) ∧
      b'.lastUk = some e.userKey ∧ b'.filterRep = nextRep filter b.lastUk b.filterRep e ∧
        if opt.blockSize ≤ block.storageSize then
          b'.written = b.written ++ [block.finish] ∧ b'.block = .fresh
        else b'.written = b.written ∧ b'.block = block := by
  rw [add] at added
  by_cases full : b.reachTheSizeLimit = true
  · rw [if_pos full] at added
    cases (Prod.mk.inj (Option.some.inj added)).1
  · rw [if_neg full] at added
    obtain ⟨block, done, eq⟩ := Option.map_eq_some_iff.mp added
    dsimp only at eq
    refine ⟨block, done, ?_⟩
    by_cases flush : opt.blockSize ≤ block.storageSize
    · rw [if_pos flush] at eq ⊢
      obtain rfl := (Prod.mk.inj eq).2
      exact ⟨rfl, rfl, rfl, rfl, rfl⟩
    · rw [if_neg flush] at eq ⊢
      obtain rfl := (Prod.mk.inj eq).2
      exact ⟨rfl, rfl, rfl, rfl, rfl⟩

/-- The blocks that are written, with the one that is still open. -/
def blocks (b : SstableBuilder) : List Block :=
  b.written ++ if b.block.isEmpty then [] else [b.block.finish]

theorem blocks_of_finish {t : Sstable} (made : b.finish = some t) : t.blocks = b.blocks := by
  rw [finish] at made
  split at made
  · obtain rfl := Option.some.inj made
    rfl
  · cases made

/-- A builder cuts its entries into the data blocks and knows the first and the last key. -/
theorem addAll_shape {opt : Options} {filter : FilterPolicy} {b' : SstableBuilder}
    (added : b.addAll opt filter es = some b') :
    (∃ cut, TableDeps.dataBlocks opt b.block es = some cut ∧ b'.blocks = b.written ++ cut) ∧
      b'.firstUk = b.firstUk.or (es.head?.map KvEntry.userKey) ∧
      b'.lastUk = (es.getLast?.map KvEntry.userKey).or b.lastUk ∧
      b'.filterRep = filterAfter filter b.lastUk b.filterRep es := by
  induction es generalizing b with
  | nil =>
    obtain rfl := Option.some.inj added
    exact ⟨⟨_, rfl, rfl⟩, (Option.or_none).symm, rfl, rfl⟩
  | cons e es ih =>
    obtain ⟨⟨taken, next⟩, first, later⟩ := Option.bind_eq_some_iff.mp added
    cases taken with
    | false => cases later
    | true =>
      obtain ⟨block, blockAdded, firstUk, lastUk, rep, cutting⟩ := add_shape first
      obtain ⟨⟨cut, split, all⟩, firstUk', lastUk', rep'⟩ := ih later
      refine ⟨?_, ?_, ?_, ?_⟩
      · rw [TableDeps.dataBlocks, blockAdded, Option.bind_some]
        by_cases flush : opt.blockSize ≤ block.storageSize
        · rw [if_pos flush] at cutting ⊢
          rw [cutting.2] at split
          rw [cutting.1] at all
          exact ⟨block.finish :: cut, by rw [split]; rfl, by rw [all, List.append_assoc]; rfl⟩
        · rw [if_neg flush] at cutting ⊢
          rw [cutting.2] at split
          rw [cutting.1] at all
          exact ⟨cut, split, all⟩
      · rw [firstUk', firstUk]
        cases b.firstUk <;> rfl
      · rw [lastUk', lastUk, List.getLast?_cons]
        cases es.getLast? <;> rfl
      · rw [rep', rep, lastUk, filterAfter]

end SstableBuilder

namespace TableDeps

variable {opt : Options} {b : BlockBuilder} {es : List KvEntry} {cut : List Block}

/-- The data blocks are well formed, begin with a special segment, and hold the entries. -/
theorem dataBlocks_spec (inv : b.Inv) (special : b.finish.segments.head?.all (·.special) = true)
    (split : dataBlocks opt b es = some cut) :
    (∀ x ∈ cut, x.Wf ∧ x.segments.head?.all (·.special) = true) ∧
      cut.flatMap Block.entries = b.entries ++ es.map KvEntry.stored := by
  induction es generalizing b cut with
  | nil =>
    obtain rfl := Option.some.inj split
    by_cases empty : b.isEmpty = true
    · rw [if_pos empty, (BlockBuilder.isEmpty_iff inv).mp empty]
      refine ⟨?_, rfl⟩
      intro x mem
      cases mem
    · rw [if_neg empty, List.flatMap_singleton, List.map_nil, List.append_nil]
      refine ⟨?_, rfl⟩
      intro x mem
      rw [List.mem_singleton.mp mem]
      exact ⟨BlockBuilder.finish_wf inv fun none_there =>
        empty ((BlockBuilder.isEmpty_iff inv).mpr none_there), special⟩
  | cons e es ih =>
    obtain ⟨next, added, later⟩ := Option.bind_eq_some_iff.mp split
    have inv' := BlockBuilder.add_inv inv added
    have special' := BlockBuilder.add_special inv special added
    have entries := BlockBuilder.add_entries added
    by_cases flush : opt.blockSize ≤ next.storageSize
    · rw [if_pos flush] at later
      obtain ⟨rest, behind, rfl⟩ := Option.map_eq_some_iff.mp later
      obtain ⟨good, all⟩ := ih BlockBuilder.fresh_inv rfl behind
      constructor
      · intro x mem
        cases List.mem_cons.mp mem with
        | inl eq =>
          rw [eq]
          exact ⟨BlockBuilder.finish_wf inv' (by rw [entries]; simp), special'⟩
        | inr mem => exact good x mem
      · have here : next.finish.entries = b.entries ++ [e.stored] := entries
        rw [List.flatMap_cons, here, all, BlockBuilder.entries_fresh, List.nil_append,
          List.append_assoc, List.map_cons, List.singleton_append]
    · rw [if_neg flush] at later
      obtain ⟨good, all⟩ := ih inv' special' later
      exact ⟨good, by rw [all, entries, List.append_assoc, List.map_cons, List.singleton_append]⟩

end TableDeps

theorem getCompressor_zstd (zstd : Zstd) (opt : StorageOptions) :
    getCompressor zstd opt "zstd" = some (zstdCompressor zstd) := rfl

/-- What `finish` leaves: the data blocks, and behind them the meta block and the footer unless
the filter is empty. -/
structure TableDeps.FileOf (d : TableDeps) (blocks : List Block)
    (lastUk firstUk filterRep file : ByteString) : Prop where
  small : ∀ x ∈ blocks, (d.image x).length ≤ maxBtl
  size : file.length ≤ maxFileSize
  bare : filterRep = [] → file = blocks.flatMap d.image
  positive : filterRep ≠ [] → 1 ≤ d.opt.maxBlockSegmentsNumber
  whole : filterRep ≠ [] → ∃ metaBuilder : BlockBuilder,
    BlockBuilder.fresh.addAll d.opt.toOptions (MetaBlock.entries lastUk firstUk filterRep) =
      some metaBuilder ∧
    (sealBlock d.crc32c 0 metaBuilder.finish.openContent).length ≤ maxBtl ∧
    file = blocks.flatMap d.image ++ (sealBlock d.crc32c 0 metaBuilder.finish.openContent ++
      (encodeBigEndian mboSize (blocks.flatMap d.image).length ++
        encodeBigEndian mgnSize magicNumber))

namespace RawSstableBuilder

variable {d : TableDeps} {b : SstableBuilder} {r r' : RawSstableBuilder} {es : List KvEntry}

/-- The flush before the meta block writes the block that is still open. -/
theorem flush_last (stores : b.Stores d r)
    (flushed : r.flushCurrentBlock d (getCompressor d.zstd d.opt "zstd") = some r') :
    r'.file = b.blocks.flatMap d.image ∧ (∀ x ∈ b.blocks, (d.image x).length ≤ maxBtl) ∧
      r'.file.length ≤ maxFileSize ∧ r'.bytesAppendedToFile = r'.file.length ∧
      r'.firstUk = r.firstUk ∧ r'.lastUk = r.lastUk ∧ r'.filterRep = r.filterRep := by
  cases current : b.block.current with
  | none =>
    have closed : r.block.publicPrefix = none := by rw [stores.block.publicPrefix, current]; rfl
    have blocks : b.blocks = b.written := by
      rw [SstableBuilder.blocks, BlockBuilder.isEmpty, current]
      exact List.append_nil _
    rw [flushCurrentBlock, if_pos closed] at flushed
    obtain rfl := Option.some.inj flushed
    rw [blocks]
    exact ⟨stores.file, stores.small, stores.size, stores.appended, rfl, rfl, rfl⟩
  | some seg =>
    have blocks : b.blocks = b.written ++ [b.block.finish] := by
      rw [SstableBuilder.blocks, BlockBuilder.isEmpty, current]
      rfl
    obtain ⟨small, room, shape⟩ := flushCurrentBlock_of_stores stores.block
      (by rw [current]; exact Option.some_ne_none seg) flushed
    have file : r'.file = b.blocks.flatMap d.image := by
      rw [shape, blocks, List.flatMap_append, List.flatMap_singleton, ← stores.file]
      rfl
    refine ⟨file, ?_, ?_, ?_, by rw [shape], by rw [shape], by rw [shape]⟩
    · intro x mem
      rw [blocks] at mem
      cases List.mem_append.mp mem with
      | inl old => exact stores.small x old
      | inr new =>
        rw [List.mem_singleton.mp new]
        exact small
    · rw [shape]
      exact room
    · rw [shape]
      change r.bytesAppendedToFile + _ = (r.file ++ _).length
      rw [stores.appended, List.length_append]

theorem eq_of_appendToFile {file bytes file' : ByteString} (appended : appendToFile file bytes = some file') :
    file' = file ++ bytes ∧ file'.length ≤ maxFileSize := by
  rw [appendToFile] at appended
  split at appended
  · rename_i room
    obtain rfl := Option.some.inj appended
    exact ⟨rfl, room⟩
  · cases appended

/-- The builder of the meta block takes its entries, on bytes as on segments. -/
theorem addAll_metaEntries (opt : Options) (lastUk firstUk filterRep : ByteString) :
    ∃ (metaBuilder : BlockBuilder) (rawMeta : RawBlockBuilder),
      BlockBuilder.fresh.addAll opt (MetaBlock.entries lastUk firstUk filterRep) = some metaBuilder ∧
      RawBlockBuilder.fresh.addAll opt (MetaBlock.entries lastUk firstUk filterRep) = some rawMeta ∧
      metaBuilder.Stores rawMeta ∧ metaBuilder.current ≠ none := by
  have keys : (MetaBlock.entries lastUk firstUk filterRep).map KvEntry.userKey =
      [MetaBlock.lastUkKey, MetaBlock.firstUkKey, MetaBlock.bloomFilterKey] := rfl
  have short : ∀ e ∈ MetaBlock.entries lastUk firstUk filterRep, e.userKey.size < 2 ^ 16 :=
    (List.forall_mem_map (P := fun k : UserKey => k.size < 2 ^ 16)).mp (by rw [keys]; decide)
  have sorted : (MetaBlock.entries lastUk firstUk filterRep).Pairwise (·.userKey ≤ ·.userKey) :=
    (List.pairwise_map (R := (· ≤ ·))).mp (by rw [keys]; decide)
  obtain ⟨metaBuilder, added⟩ : ∃ b, BlockBuilder.fresh.addAll opt
      (MetaBlock.entries lastUk firstUk filterRep) = some b :=
    BlockBuilder.addAll_isSome opt BlockBuilder.fresh_inv sorted
  have run := BlockBuilder.addAll_stores opt BlockBuilder.fresh_stores short
    (fun seg current => by cases current)
  rw [added] at run
  cases rawAdded : RawBlockBuilder.fresh.addAll opt (MetaBlock.entries lastUk firstUk filterRep) with
  | none =>
    rw [rawAdded] at run
    cases run
  | some rawMeta =>
    rw [rawAdded] at run
    cases run with
    | some stores =>
      refine ⟨metaBuilder, rawMeta, added, rfl, stores, ?_⟩
      intro missing
      have all := BlockBuilder.addAll_entries added
      rw [BlockBuilder.entries, BlockBuilder.finish, missing, stores.start missing] at all
      cases all

/-- A filter without bytes ends the file behind the blocks; else the meta block and the footer follow. -/
theorem finish_cases {file : ByteString} (finished : r.finish d = some file) :
    ∃ flushed, r.flushCurrentBlock d (getCompressor d.zstd d.opt "zstd") = some flushed ∧
      (flushed.filterRep = [] ∧ file = flushed.file ∨
        flushed.filterRep ≠ [] ∧ 1 ≤ d.opt.maxBlockSegmentsNumber ∧ flushed.lastUk ≠ [] ∧ flushed.firstUk ≠ [] ∧ file.length ≤ maxFileSize ∧
        ∃ metaBuilder : BlockBuilder,
          BlockBuilder.fresh.addAll d.opt.toOptions
            (MetaBlock.entries flushed.lastUk flushed.firstUk flushed.filterRep) = some metaBuilder ∧
          (sealBlock d.crc32c 0 metaBuilder.finish.openContent).length ≤ maxBtl ∧
          file = flushed.file ++ (sealBlock d.crc32c 0 metaBuilder.finish.openContent ++
            (encodeBigEndian mboSize flushed.bytesAppendedToFile ++ encodeBigEndian mgnSize magicNumber))) := by
  obtain ⟨flushed, flush, later⟩ := Option.bind_eq_some_iff.mp finished
  refine ⟨flushed, flush, ?_⟩
  by_cases empty : flushed.filterRep = []
  · rw [if_pos empty] at later
    exact .inl ⟨empty, (Option.some.inj later).symm⟩
  · rw [if_neg empty] at later
    by_cases keys : flushed.lastUk = [] ∨ flushed.firstUk = []
    · rw [if_pos keys] at later
      cases later
    · rw [if_neg keys] at later
      obtain ⟨positive, later⟩ := Option.ite_none_left_eq_some.mp later
      obtain ⟨rawMeta, metaAdded, later⟩ := Option.bind_eq_some_iff.mp later
      obtain ⟨done, flushMeta, footer⟩ := Option.bind_eq_some_iff.mp later
      obtain ⟨metaBuilder, rawMeta', added, rawAdded, stores, started⟩ :=
        addAll_metaEntries d.opt.toOptions flushed.lastUk flushed.firstUk flushed.filterRep
      obtain rfl := Option.some.inj (metaAdded.symm.trans rawAdded)
      have opened : rawMeta.publicPrefix ≠ none := by
        rw [stores.publicPrefix]
        simpa using started
      obtain ⟨smallMeta, _, shape⟩ := flushCurrentBlock_of_content
        (r := ⟨_, _, _, _, _, rawMeta.moved, _, _⟩) opened flushMeta
      obtain ⟨eq, room⟩ := eq_of_appendToFile footer
      rw [shape] at eq
      rw [storeContent_plain rfl, BlockBuilder.content_moved stores started] at eq smallMeta
      refine .inr ⟨empty, Nat.pos_of_ne_zero positive, fun none_last => keys (.inl none_last), fun none_first => keys (.inr none_first),
        room, metaBuilder, added, smallMeta, ?_⟩
      rw [eq]
      exact List.append_assoc _ _ _

theorem finish_fileOf (stores : b.Stores d r) {file : ByteString} (finished : r.finish d = some file) :
    d.FileOf b.blocks r.lastUk r.firstUk r.filterRep file := by
  obtain ⟨flushed, flush, ends⟩ := finish_cases finished
  obtain ⟨blocks, small, size, appended, firstUk, lastUk, filterRep⟩ := flush_last stores flush
  rw [firstUk, lastUk, filterRep, appended, blocks] at ends
  rcases ends with ⟨empty, rfl⟩ | ⟨present, positive, -, -, room, whole⟩
  · exact ⟨small, by rwa [← blocks], fun _ => rfl, fun present => absurd empty present,
      fun present => absurd empty present⟩
  · exact ⟨small, room, fun bare => absurd bare present, fun _ => positive, fun _ => whole⟩

/-- The file of a table, from the entries that were added. -/
theorem file_of_entries {sizeLimit : Nat} {file : ByteString} {e : KvEntry}
    (built : (make sizeLimit).bind (·.addAll d (e :: es)) = some r) (finished : r.finish d = some file)
    (storable : ∀ x ∈ e :: es, x.userKey.size < 2 ^ 16) :
    ∃ blocks, TableDeps.dataBlocks d.opt.toOptions .fresh (e :: es) = some blocks ∧
      d.FileOf blocks ((e :: es).getLast (List.cons_ne_nil e es)).userKey.serialize e.userKey.serialize
        (SstableBuilder.filterAfter d.filter none [] (e :: es)) file := by
  obtain ⟨r0, made, added⟩ := Option.bind_eq_some_iff.mp built
  obtain ⟨b0, made', stores0⟩ := SstableBuilder.make_stores d made
  obtain ⟨b, added', stores⟩ := SstableBuilder.addAll_stores stores0 storable added
  obtain rfl := SstableBuilder.eq_of_make made'
  obtain ⟨⟨blocks, cut, all⟩, firstUk, lastUk, rep⟩ := SstableBuilder.addAll_shape added'
  have fileOf := finish_fileOf stores finished
  rw [stores.firstUk, stores.lastUk, stores.filterRep, firstUk, lastUk, rep, all,
    List.getLast?_eq_some_getLast (List.cons_ne_nil e es)] at fileOf
  exact ⟨blocks, cut, fileOf⟩

end RawSstableBuilder

end FrenzyKV
