import FrenzyKV.Table.SstableLookup

/-! The file of a table as a function of the table, and what the readers find in it
(`table/sstable_builder.cc`, `table/sstable.cc`). -/

namespace FrenzyKV

open Bytes

/-- A filter that leaves something behind for every key. -/
def FilterPolicy.Leaves (filter : FilterPolicy) : Prop :=
  ∀ key dst, filter.appendNewFilter key dst ≠ []

/-- What opening tables rests on: the meta block has one special segment, and the reader's codec
undoes the builder's. -/
structure TableDeps.Readable (d : TableDeps) (compressor : CompressorPolicy) : Prop where
  wide : 5 ≤ d.opt.maxBlockSegmentsNumber
  named : getCompressor d.zstd d.opt d.opt.compressorName = some compressor
  inverts : d.CodecInverts compressor

namespace RawSstable

/-- `sstable::disjoint`. -/
def disjoint (t other : RawSstable) : Option Bool :=
  t.firstUserKeyWithoutSeq.bind fun al => t.lastUserKeyWithoutSeq.bind fun ar =>
    other.firstUserKeyWithoutSeq.bind fun bl => other.lastUserKeyWithoutSeq.map fun br =>
      (al < bl && ar < bl) || (bl < al && br < al)

def overlapped (t other : RawSstable) : Option Bool := (t.disjoint other).map (!·)

end RawSstable

namespace Sstable

variable (d : TableDeps)

def metaImage (t : Sstable) : ByteString :=
  ((BlockBuilder.fresh.addAll d.opt.toOptions
    (MetaBlock.entries t.lastUk.serialize t.firstUk.serialize t.filterRep)).map fun metaBuilder =>
      sealBlock d.crc32c 0 metaBuilder.finish.openContent).getD []

/-- The data blocks, and behind them the meta block and the footer. -/
def image (t : Sstable) : ByteString :=
  let data := t.blocks.flatMap d.image
  if t.filterRep = [] then data
  else data ++ (t.metaImage d ++
    (encodeBigEndian mboSize data.length ++ encodeBigEndian mgnSize magicNumber))

/-- What a finished builder leaves in the file of a table. -/
structure Filed (t : Sstable) : Prop where
  written : ∀ x ∈ t.blocks, d.Written x
  fileOf : d.FileOf t.blocks t.lastUk.serialize t.firstUk.serialize t.filterRep (t.image d)
  present : t.filterRep ≠ []

/-- A well-formed table in its file. -/
structure Stored (t : Sstable) : Prop extends Filed d t where
  wf : t.Wf d.filter

/-- A table that can be read back from its file. -/
structure Legible (t : Sstable) : Prop extends Stored d t where
  fits : ∀ x ∈ t.blocks, d.BlockFits x

/-- What `sstable::make` makes of the file. -/
def opened (compressor : CompressorPolicy) (t : Sstable) : RawSstable where
  deps := d
  compressor
  file := t.image d
  filterRep := t.filterRep
  firstUk := t.firstUk.serialize
  lastUk := t.lastUk.serialize
  blockOffsets := RawSstable.offsetsOf d 0 t.blocks

variable {d} {t u : Sstable} {file : ByteString} {compressor : CompressorPolicy}

theorem image_of_fileOf
    (fileOf : d.FileOf t.blocks t.lastUk.serialize t.firstUk.serialize t.filterRep file) :
    file = t.image d := by
  by_cases empty : t.filterRep = []
  · rw [image, if_pos empty]
    exact fileOf.bare empty
  · obtain ⟨metaBuilder, added, -, layout⟩ := fileOf.whole empty
    rw [image, if_neg empty, metaImage, added]
    exact layout

theorem image_front (d : TableDeps) (t : Sstable) :
    ∃ rest, t.image d = t.blocks.flatMap d.image ++ rest := by
  rw [image]
  split
  · exact ⟨[], (List.append_nil _).symm⟩
  · exact ⟨_, rfl⟩

/-- The file that `finish` leaves is the image of the table that the builder has made. -/
theorem image_of_finish {b : SstableBuilder} {r : RawSstableBuilder} (stores : b.Stores d r)
    (made : b.finish = some t) (finished : r.finish d = some file) :
    file = t.image d ∧
      d.FileOf t.blocks t.lastUk.serialize t.firstUk.serialize t.filterRep file := by
  have fileOf := RawSstableBuilder.finish_fileOf stores finished
  rw [stores.firstUk, stores.lastUk, stores.filterRep] at fileOf
  rw [SstableBuilder.finish] at made
  split at made
  · rename_i firstUk lastUk first last
    obtain rfl := Option.some.inj made
    rw [first, last] at fileOf
    exact ⟨image_of_fileOf fileOf, fileOf⟩
  · cases made

theorem stands_opened (d : TableDeps) (compressor : CompressorPolicy) (t : Sstable) :
    List.Forall₂ (t.opened d compressor).Stands (RawSstable.offsetsOf d 0 t.blocks) t.blocks := by
  obtain ⟨rest, layout⟩ := image_front d t
  have fromStart : (t.opened d compressor).file =
      [] ++ (t.blocks.flatMap (t.opened d compressor).deps.image ++ rest) := layout
  exact RawSstable.stands_of_layout fromStart

theorem image_ne_nil (present : t.filterRep ≠ []) : t.image d ≠ [] := by
  intro empty
  have length := congrArg List.length empty
  rw [image, if_neg present, List.length_append, List.length_append, List.length_append,
    encodeBigEndian_length, encodeBigEndian_length] at length
  change _ + (_ + (8 + 4)) = 0 at length
  omega

namespace Filed

theorem make_image (filed : t.Filed d) (wide : 5 ≤ d.opt.maxBlockSegmentsNumber)
    (named : getCompressor d.zstd d.opt d.opt.compressorName = some compressor) :
    RawSstable.make d (t.image d) = some (t.opened d compressor) :=
  (RawSstable.make_of_fileOf filed.fileOf wide (SstableBuilder.serialize_ne_nil _)
    (SstableBuilder.serialize_ne_nil _) filed.present named).2

theorem make_narrow (filed : t.Filed d) (narrow : d.opt.maxBlockSegmentsNumber < 5) :
    RawSstable.make d (t.image d) = none :=
  RawSstable.make_narrow filed.fileOf filed.present narrow

/-- Block by block, all entries come back, or none do. -/
theorem read_iff (filed : t.Filed d) (inverts : d.CodecInverts compressor) {ess : List (List KvEntry)} :
    (RawSstable.offsetsOf d 0 t.blocks).mapM
        (fun p => ((t.opened d compressor).getBlock p).bind RawBlock.entries) = some ess ↔
      (∀ x ∈ t.blocks, d.BlockFits x) ∧ ess = t.blocks.map Block.entries :=
  RawSstable.mapM_entries_iff (stands_opened d compressor t) filed.written inverts

theorem getEntries_iff (filed : t.Filed d) (inverts : d.CodecInverts compressor) {es : List KvEntry} :
    (t.opened d compressor).getEntries = some es ↔ (∀ x ∈ t.blocks, d.BlockFits x) ∧ es = t.entries := by
  rw [RawSstable.getEntries, Option.map_eq_some_iff]
  constructor
  · rintro ⟨ess, read, rfl⟩
    obtain ⟨fits, rfl⟩ := (filed.read_iff inverts).mp read
    exact ⟨fits, List.flatMap_def.symm⟩
  · rintro ⟨fits, rfl⟩
    exact ⟨_, (filed.read_iff inverts).mpr ⟨fits, rfl⟩, List.flatMap_def.symm⟩

end Filed

namespace Stored

theorem short (stored : t.Stored d) {e : KvEntry} (mem : e ∈ t.entries) : e.userKey.size < 2 ^ 16 := by
  obtain ⟨x, inside, mem⟩ := List.mem_flatMap.mp mem
  have := ((stored.written x inside).encodable e mem).1
  omega

theorem encodable (stored : t.Stored d) : ∀ e ∈ t.entries, e.Encodable := by
  intro e mem
  obtain ⟨x, inside, mem⟩ := List.mem_flatMap.mp mem
  exact (stored.written x inside).encodable e mem

theorem short_firstUk (stored : t.Stored d) : t.firstUk.size < 2 ^ 16 := by
  obtain ⟨e, head, key⟩ := Option.map_eq_some_iff.mp stored.wf.first
  exact key ▸ stored.short (List.mem_of_mem_head? head)

theorem short_lastUk (stored : t.Stored d) : t.lastUk.size < 2 ^ 16 := by
  obtain ⟨e, last, key⟩ := Option.map_eq_some_iff.mp stored.wf.last
  exact key ▸ stored.short (List.mem_of_getLast? last)

theorem make_image (stored : t.Stored d) (readable : d.Readable compressor) :
    RawSstable.make d (t.image d) = some (t.opened d compressor) :=
  stored.toFiled.make_image readable.wide readable.named

/-- All entries come back, or none do. -/
theorem getEntriesAtOnce_iff (stored : t.Stored d) (readable : d.Readable compressor)
    {es : List KvEntry} : (t.opened d compressor).getEntriesAtOnce true = some es ↔
      (∀ x ∈ t.blocks, d.BlockFits x) ∧ es = t.getEntriesAtOnce := by
  have read : ∀ ess, (RawSstable.offsetsOf d 0 t.blocks).mapM
        (fun p => ((t.opened d compressor).getBlock p).bind RawBlock.entries) = some ess ↔
      (∀ x ∈ t.blocks, d.BlockFits x) ∧ ess = t.blocks.map Block.entries :=
    fun _ => stored.read_iff readable.inverts
  constructor
  · intro all
    obtain ⟨blocks, opened, all⟩ := Option.bind_eq_some_iff.mp all
    obtain ⟨ess, entries, rfl⟩ := Option.map_eq_some_iff.mp all
    have both := PartialMap.mapM_bind (t.opened d compressor).getBlock RawBlock.entries
      (RawSstable.offsetsOf d 0 t.blocks)
    have together := both.symm.trans ((congrArg (Option.bind · _) opened).trans entries)
    obtain ⟨fits, rfl⟩ := (read ess).mp together
    refine ⟨fits, ?_⟩
    rw [if_pos rfl, ← List.flatMap_def]
    rfl
  · intro both
    have all := RawSstable.getEntriesAtOnce_of_read (t := t.opened d compressor)
      ((read _).mpr ⟨both.1, rfl⟩) true
    rw [all, both.2, if_pos rfl, ← List.flatMap_def]
    rfl

theorem firstUserKeyWithoutSeq (stored : t.Stored d) (compressor : CompressorPolicy) :
    (t.opened d compressor).firstUserKeyWithoutSeq = some t.firstUserKeyWithoutSeq :=
  RawSstable.keyOf_serialize stored.short_firstUk

theorem lastUserKeyWithoutSeq (stored : t.Stored d) (compressor : CompressorPolicy) :
    (t.opened d compressor).lastUserKeyWithoutSeq = some t.lastUserKeyWithoutSeq :=
  RawSstable.keyOf_serialize stored.short_lastUk

theorem overlapped (storedT : t.Stored d) (storedU : u.Stored d) (compressor : CompressorPolicy) :
    (t.opened d compressor).overlapped (u.opened d compressor) = some (t.overlapped u) := by
  rw [RawSstable.overlapped, RawSstable.disjoint, storedT.firstUserKeyWithoutSeq,
    storedT.lastUserKeyWithoutSeq, storedU.firstUserKeyWithoutSeq, storedU.lastUserKeyWithoutSeq]
  rfl

/-- The lookup in the file is the lookup in the table. -/
theorem getKvEntry (stored : t.Stored d) (readable : d.Readable compressor)
    (fits : ∀ x ∈ t.blocks, d.BlockFits x) {k : SequencedKey} (size : k.userKey.size < 2 ^ 16) :
    (t.opened d compressor).getKvEntry k = some (t.getKvEntry d.filter k) := by
  have sorted : (t.blocks.flatMap Block.entries).Pairwise (·.key ≤ ·.key) :=
    stored.wf.ascending.imp fun lt => lt.le
  by_cases pass : d.filter.mayMatch k.serializeUserKey t.filterRep = true
  · rw [RawSstable.getKvEntry_of_fits stored.wf.nonempty (stands_opened d compressor t) stored.written fits
      readable.inverts size sorted pass, Sstable.getKvEntry, getSegment, if_pos pass]
    rfl
  · rw [RawSstable.getKvEntry, RawSstable.getSegment, Sstable.getKvEntry, getSegment, if_neg pass]
    exact congrArg (Option.bind · _) (if_neg pass)

end Stored

theorem Legible.getEntriesAtOnce (legible : t.Legible d) (readable : d.Readable compressor)
    (backwards : Bool) : (t.opened d compressor).getEntriesAtOnce backwards =
      some (if backwards then t.entries.reverse else t.entries) := by
  have read : (RawSstable.offsetsOf d 0 t.blocks).mapM
      (fun p => ((t.opened d compressor).getBlock p).bind RawBlock.entries) =
        some (t.blocks.map Block.entries) :=
    (legible.read_iff readable.inverts).mpr ⟨legible.fits, rfl⟩
  rw [RawSstable.getEntriesAtOnce_of_read (t := t.opened d compressor) read backwards, ← List.flatMap_def]
  rfl

end Sstable

namespace RawSstableBuilder

variable (d : TableDeps) (sizeLimit : Nat)

/-- The splitting loop, and the files that it leaves. -/
def buildFiles (b : RawSstableBuilder) : List KvEntry → Option (List ByteString)
  | [] => (b.finish d).map fun file => [file]
  | e :: es =>
    (b.add d e).bind fun added =>
      if added.1 then buildFiles added.2 es
      else
        (b.finish d).bind fun file => (make sizeLimit).bind fun b' =>
          (b'.add d e).bind fun added' =>
            if added'.1 then (buildFiles added'.2 es).map (file :: ·) else none

def buildFilesFrom (es : List KvEntry) : Option (List ByteString) :=
  (make sizeLimit).bind fun b => b.buildFiles d sizeLimit es

variable {d : TableDeps} {sizeLimit : Nat} {es : List KvEntry} {files : List ByteString}

/-- The loop finishes at least one table. -/
theorem ne_nil_of_buildFiles {b : RawSstableBuilder} (built : b.buildFiles d sizeLimit es = some files) :
    files ≠ [] := by
  induction es generalizing b files with
  | nil =>
    obtain ⟨file, -, rfl⟩ := Option.map_eq_some_iff.mp built
    exact List.cons_ne_nil file []
  | cons e es ih =>
    obtain ⟨⟨took, b'⟩, -, rest⟩ := Option.bind_eq_some_iff.mp built
    cases took with
    | true => exact ih rest
    | false =>
      obtain ⟨file, -, rest⟩ := Option.bind_eq_some_iff.mp rest
      obtain ⟨fresh, -, rest⟩ := Option.bind_eq_some_iff.mp rest
      obtain ⟨added, -, rest⟩ := Option.bind_eq_some_iff.mp rest
      obtain ⟨-, rest⟩ := Option.ite_none_right_eq_some.mp rest
      obtain ⟨later, -, rfl⟩ := Option.map_eq_some_iff.mp rest
      exact List.cons_ne_nil file later

theorem ne_nil_of_buildFilesFrom (built : buildFilesFrom d sizeLimit es = some files) : files ≠ [] := by
  obtain ⟨b, -, built⟩ := Option.bind_eq_some_iff.mp built
  exact ne_nil_of_buildFiles built

end RawSstableBuilder

namespace SstableBuilder

/-- A builder on blocks and one on bytes that have taken the same entries. -/
structure Filing (d : TableDeps) (b : SstableBuilder) (r : RawSstableBuilder) : Prop where
  stores : b.Stores d r
  block : b.block.Inv
  special : b.block.finish.segments.head?.all (·.special) = true
  written : ∀ x ∈ b.written, x.Wf ∧ x.segments.head?.all (·.special) = true
  encodable : ∀ e ∈ b.entries, e.Encodable
  present : b.lastUk ≠ none → b.filterRep ≠ []

namespace Filing

variable {d : TableDeps} {b b' : SstableBuilder} {r r' : RawSstableBuilder} {e : KvEntry}
  {es : List KvEntry} {sizeLimit : Nat} {t : Sstable} {ts : List Sstable} {file : ByteString}
  {files : List ByteString}

theorem make (d : TableDeps) (made : RawSstableBuilder.make sizeLimit = some r)
    (made' : SstableBuilder.make sizeLimit = some b) : b.Filing d r := by
  obtain ⟨b', eq, stores⟩ := make_stores d made
  obtain rfl := Option.some.inj (made'.symm.trans eq)
  obtain rfl := eq_of_make made'
  exact ⟨stores, BlockBuilder.fresh_inv, rfl, by simp, by simp [entries, BlockBuilder.entries_fresh],
    fun some_key => absurd rfl some_key⟩

theorem add (leaves : d.filter.Leaves) (filing : b.Filing d r) (encodable : e.Encodable)
    (added : r.add d e = some (true, r')) :
    ∃ b', b.add d.opt.toOptions d.filter e = some (true, b') ∧ b'.Filing d r' := by
  have size := encodable.1
  obtain ⟨b', added', stores⟩ := add_stores filing.stores (by omega) added
  obtain ⟨block, blockAdded, -, -, rep, cutting⟩ := add_shape added'
  have inv := BlockBuilder.add_inv filing.block blockAdded
  have special := BlockBuilder.add_special filing.block filing.special blockAdded
  have all := add_entries added'
  have encodables : ∀ x ∈ b'.entries, x.Encodable := by
    rw [all]
    exact List.forall_mem_append.mpr ⟨filing.encodable, List.forall_mem_singleton.mpr encodable⟩
  have filter : b'.lastUk ≠ none → b'.filterRep ≠ [] := by
    intro _
    rw [rep, nextRep]
    split
    · rename_i same
      exact filing.present (by rw [same]; exact Option.some_ne_none _)
    · exact leaves _ _
  by_cases flush : d.opt.blockSize ≤ block.storageSize
  · rw [if_pos flush] at cutting
    have finished : block.finish.Wf :=
      BlockBuilder.finish_wf inv (by rw [BlockBuilder.add_entries blockAdded]; simp)
    refine ⟨b', added', stores, ?_, by rw [cutting.2]; rfl, ?_, encodables, filter⟩
    · rw [cutting.2]
      exact BlockBuilder.fresh_inv
    · rw [cutting.1]
      exact List.forall_mem_append.mpr ⟨filing.written, List.forall_mem_singleton.mpr ⟨finished, special⟩⟩
  · rw [if_neg flush] at cutting
    refine ⟨b', added', stores, ?_, ?_, ?_, encodables, filter⟩
    · rw [cutting.2]
      exact inv
    · rw [cutting.2]
      exact special
    · rw [cutting.1]
      exact filing.written

/-- A refusal changes neither builder. -/
theorem refused (filing : b.Filing d r) (added : r.add d e = some (false, r')) :
    r' = r ∧ b.add d.opt.toOptions d.filter e = some (false, b) := by
  rw [RawSstableBuilder.add] at added
  by_cases full : r.reachTheSizeLimit = true
  · rw [if_pos full] at added
    refine ⟨(Prod.mk.inj (Option.some.inj added)).2.symm, ?_⟩
    rw [SstableBuilder.add, if_pos (filing.stores.reachTheSizeLimit ▸ full)]
  · rw [if_neg full] at added
    obtain ⟨block, -, later⟩ := Option.bind_eq_some_iff.mp added
    dsimp only at later
    split at later
    · obtain ⟨_, -, eq⟩ := Option.map_eq_some_iff.mp later
      cases (Prod.mk.inj eq).1
    · cases (Prod.mk.inj (Option.some.inj later)).1

theorem finish (filing : b.Filing d r) (made : b.finish = some t) (finished : r.finish d = some file) :
    file = t.image d ∧ t.Filed d := by
  obtain ⟨rfl, fileOf⟩ := Sstable.image_of_finish filing.stores made finished
  have entries := finish_entries filing.block made
  have shape : t.blocks = b.blocks ∧ t.filterRep = b.filterRep ∧ b.lastUk ≠ none := by
    rw [SstableBuilder.finish] at made
    split at made
    · rename_i last
      obtain rfl := Option.some.inj made
      exact ⟨rfl, rfl, by rw [last]; exact Option.some_ne_none _⟩
    · cases made
  have good : ∀ x ∈ t.blocks, x.Wf ∧ x.segments.head?.all (·.special) = true := by
    rw [shape.1, blocks]
    refine List.forall_mem_append.mpr ⟨filing.written, ?_⟩
    intro x mem
    split at mem
    · cases mem
    · rename_i started
      rw [List.mem_singleton.mp mem]
      exact ⟨BlockBuilder.finish_wf filing.block fun none_there =>
        started ((BlockBuilder.isEmpty_iff filing.block).mpr none_there), filing.special⟩
  refine ⟨rfl, fun x mem => ⟨(good x mem).1, (good x mem).2, fun e inside => ?_, fileOf.small x mem⟩,
    fileOf, by rw [shape.2.1]; exact filing.present shape.2.2⟩
  exact filing.encodable e (entries ▸ List.mem_flatMap.mpr ⟨x, mem, inside⟩)

/-- The loop on bytes leaves the files of the tables that the loop on blocks makes. -/
theorem buildFiles (leaves : d.filter.Leaves) (filing : b.Filing d r) (encodable : ∀ e ∈ es, e.Encodable)
    (built : buildTables d.opt.toOptions d.filter sizeLimit b es = some ts)
    (filed : r.buildFiles d sizeLimit es = some files) :
    files = ts.map (·.image d) ∧ ∀ t ∈ ts, t.Filed d := by
  induction es generalizing b r ts files with
  | nil =>
    obtain ⟨t, made, rfl⟩ := Option.map_eq_some_iff.mp built
    obtain ⟨file, finished, rfl⟩ := Option.map_eq_some_iff.mp filed
    obtain ⟨rfl, done⟩ := filing.finish made finished
    exact ⟨rfl, List.forall_mem_singleton.mpr done⟩
  | cons e es ih =>
    obtain ⟨here, later⟩ := List.forall_mem_cons.mp encodable
    obtain ⟨⟨taken, next⟩, added, rest⟩ := Option.bind_eq_some_iff.mp filed
    cases taken with
    | true =>
      obtain ⟨b', added', filing'⟩ := filing.add leaves here added
      rw [buildTables, added', Option.bind_some, if_pos rfl] at built
      exact ih filing' later built rest
    | false =>
      obtain ⟨rfl, refusal⟩ := filing.refused added
      rw [buildTables, refusal, Option.bind_some, if_neg Bool.false_ne_true] at built
      obtain ⟨t, made, built⟩ := Option.bind_eq_some_iff.mp built
      obtain ⟨fresh, freshMade, built⟩ := Option.bind_eq_some_iff.mp built
      obtain ⟨⟨taken, b'⟩, added', built⟩ := Option.bind_eq_some_iff.mp built
      obtain ⟨file, finished, rest⟩ := Option.bind_eq_some_iff.mp rest
      obtain ⟨raw, rawMade, rest⟩ := Option.bind_eq_some_iff.mp rest
      obtain ⟨⟨rawTaken, r'⟩, rawAdded, rest⟩ := Option.bind_eq_some_iff.mp rest
      cases rawTaken with
      | false => cases rest
      | true =>
        obtain ⟨b'', added'', filing'⟩ := (Filing.make d rawMade freshMade).add leaves here rawAdded
        obtain ⟨rfl, rfl⟩ := Prod.mk.inj (Option.some.inj (added'.symm.trans added''))
        rw [if_pos rfl] at built rest
        obtain ⟨ts', builtLater, rfl⟩ := Option.map_eq_some_iff.mp built
        obtain ⟨files', filedLater, rfl⟩ := Option.map_eq_some_iff.mp rest
        obtain ⟨rfl, done⟩ := filing.finish made finished
        obtain ⟨rfl, others⟩ := ih filing' later builtLater filedLater
        exact ⟨rfl, List.forall_mem_cons.mpr ⟨done, others⟩⟩

end Filing

end SstableBuilder

/-- The files that the splitting loop leaves are those of the tables that it makes. -/
theorem RawSstableBuilder.buildFilesFrom_image {d : TableDeps} {sizeLimit : Nat} {es : List KvEntry}
    {ts : List Sstable} {files : List ByteString} (leaves : d.filter.Leaves)
    (encodable : ∀ e ∈ es, e.Encodable)
    (built : buildTablesFrom d.opt.toOptions d.filter sizeLimit es = some ts)
    (filed : buildFilesFrom d sizeLimit es = some files) :
    files = ts.map (·.image d) ∧ ∀ t ∈ ts, t.Filed d := by
  obtain ⟨b, made, built⟩ := Option.bind_eq_some_iff.mp built
  obtain ⟨r, rawMade, filed⟩ := Option.bind_eq_some_iff.mp filed
  exact (SstableBuilder.Filing.make d rawMade made).buildFiles leaves encodable built filed

namespace SstableBuilder

variable {opt : Options} {filter : FilterPolicy} {sizeLimit : Nat} {b b' : SstableBuilder} {e : KvEntry}
  {es : List KvEntry} {ts : List Sstable}

/-- A builder that refuses entries has no open block, since its size only grows at a flush. -/
def Closed (b : SstableBuilder) : Prop := b.reachTheSizeLimit = true → b.block = .fresh

theorem closed_make (made : make sizeLimit = some b) : b.Closed := by
  obtain rfl := eq_of_make made
  exact fun _ => rfl

theorem closed_add (added : b.add opt filter e = some (true, b')) : b'.Closed := by
  rw [SstableBuilder.add] at added
  by_cases full : b.reachTheSizeLimit = true
  · rw [if_pos full] at added
    cases (Prod.mk.inj (Option.some.inj added)).1
  · rw [if_neg full] at added
    obtain ⟨block, -, eq⟩ := Option.map_eq_some_iff.mp added
    dsimp only at eq
    split at eq
    · obtain rfl := (Prod.mk.inj eq).2
      exact fun _ => rfl
    · obtain rfl := (Prod.mk.inj eq).2
      exact fun reached => absurd reached full

/-- What is cut from an entry and those behind it: what is cut behind the entry, with the block that
the entry completes. -/
theorem dataBlocks_cons (added : b.add opt filter e = some (true, b')) {rest : List Block}
    (cut : TableDeps.dataBlocks opt b'.block es = some rest) :
    ∃ front, TableDeps.dataBlocks opt b.block (e :: es) = some (front ++ rest) ∧
      b'.written = b.written ++ front := by
  obtain ⟨block, blockAdded, -, -, -, cutting⟩ := add_shape added
  rw [TableDeps.dataBlocks, blockAdded, Option.bind_some]
  by_cases flush : opt.blockSize ≤ block.storageSize
  · rw [if_pos flush] at cutting ⊢
    rw [cutting.2] at cut
    exact ⟨[block.finish], by rw [cut]; rfl, cutting.1⟩
  · rw [if_neg flush] at cutting ⊢
    rw [cutting.2] at cut
    exact ⟨[], cut, by rw [cutting.1, List.append_nil]⟩

/-- The tables hold the blocks that are cut from the entries: no block is cut short between two
tables. -/
theorem dataBlocks_of_buildTables (closed : b.Closed)
    (built : buildTables opt filter sizeLimit b es = some ts) :
    ∃ rest, TableDeps.dataBlocks opt b.block es = some rest ∧
      ts.flatMap Sstable.blocks = b.written ++ rest := by
  induction es generalizing b ts with
  | nil =>
    obtain ⟨t, made, rfl⟩ := Option.map_eq_some_iff.mp built
    exact ⟨_, rfl, by rw [List.flatMap_singleton, blocks_of_finish made]; rfl⟩
  | cons e es ih =>
    obtain ⟨⟨taken, b'⟩, added, built⟩ := Option.bind_eq_some_iff.mp built
    cases taken with
    | true =>
      obtain ⟨rest, cut, all⟩ := ih (closed_add added) built
      obtain ⟨front, cut', written⟩ := dataBlocks_cons added cut
      exact ⟨front ++ rest, cut', by rw [all, written, List.append_assoc]⟩
    | false =>
      obtain ⟨t, made, built⟩ := Option.bind_eq_some_iff.mp built
      obtain ⟨fresh, freshMade, built⟩ := Option.bind_eq_some_iff.mp built
      obtain ⟨⟨taken, b''⟩, added', built⟩ := Option.bind_eq_some_iff.mp built
      have refused : b.block = .fresh := by
        refine closed ?_
        by_contra open_
        rw [SstableBuilder.add, if_neg open_] at added
        obtain ⟨block, -, eq⟩ := Option.map_eq_some_iff.mp added
        dsimp only at eq
        split at eq
        · cases (Prod.mk.inj eq).1
        · cases (Prod.mk.inj eq).1
      cases taken with
      | false => cases built
      | true =>
        rw [if_pos rfl] at built
        obtain ⟨ts', builtLater, rfl⟩ := Option.map_eq_some_iff.mp built
        obtain ⟨rest, cut, all⟩ := ih (closed_add added') builtLater
        obtain ⟨front, cut', written⟩ := dataBlocks_cons added' cut
        obtain rfl := eq_of_make freshMade
        refine ⟨front ++ rest, by rw [refused]; exact cut', ?_⟩
        rw [List.flatMap_cons, blocks_of_finish made, blocks, refused, all, written]
        exact congrArg (· ++ _) (List.append_nil _)

end SstableBuilder

theorem dataBlocks_of_buildTablesFrom {opt : Options} {filter : FilterPolicy} {sizeLimit : Nat}
    {es : List KvEntry} {ts : List Sstable} (built : buildTablesFrom opt filter sizeLimit es = some ts) :
    TableDeps.dataBlocks opt .fresh es = some (ts.flatMap Sstable.blocks) := by
  obtain ⟨b, made, built⟩ := Option.bind_eq_some_iff.mp built
  obtain ⟨rest, cut, all⟩ := SstableBuilder.dataBlocks_of_buildTables (SstableBuilder.closed_make made) built
  obtain rfl := SstableBuilder.eq_of_make made
  rw [all]
  exact cut

end FrenzyKV
