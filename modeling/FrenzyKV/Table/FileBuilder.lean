import FrenzyKV.Io.SeqWritable
import FrenzyKV.Table.SizeAccounting

/-! `sstable_builder` with the file that it writes through and closes
(`table/sstable_builder.cc`). -/

namespace FrenzyKV

open Bytes

/-- The builder of a table, with `m_finish` and the file behind `m_file`. The file of `core` is what
was handed to `append`. -/
structure FileBuilder where
  core : RawSstableBuilder
  wasFinish : Bool
  out : SeqWritable

namespace FileBuilder

variable (d : TableDeps) (opt : WritableOptions)

/-- The constructor on a new file. -/
def make (sizeLimit : Nat) : Option FileBuilder :=
  (RawSstableBuilder.make sizeLimit).map fun core => ⟨core, false, .opened opt⟩

/-- `m_file->append`. -/
def append (b : FileBuilder) (bytes : ByteString) : Option FileBuilder :=
  (b.out.append opt bytes).bind fun out =>
    (appendToFile b.core.file bytes).map fun file => { b with core := { b.core with file }, out }

/-- The block of `flush_current_block` in the file. -/
def writeCurrentBlock (compressor : Option CompressorPolicy) (b : FileBuilder) :
    Option FileBuilder :=
  if b.core.block.publicPrefix = none then some b
  else
    (b.core.block.finish d.opt compressor d.crc32c).bind fun storage =>
      let b : FileBuilder := { b with core := { b.core with block := .fresh } }
      (b.append opt storage).map fun b => {
        b with
        core := { b.core with bytesAppendedToFile := b.core.bytesAppendedToFile + storage.length } }

/-- `flush_current_block`, which flushes the file on request. -/
def flushCurrentBlock (compressor : Option CompressorPolicy) (needFlush : Bool) (b : FileBuilder) :
    Option FileBuilder :=
  (b.writeCurrentBlock d opt compressor).bind fun b =>
    if needFlush then b.out.flush.map fun out => { b with out } else some b

/-- `sstable_builder::add`. -/
def add (b : FileBuilder) (e : KvEntry) : Option (Bool × FileBuilder) :=
  if b.wasFinish then none
  else if b.core.reachTheSizeLimit then some (false, b)
  else
    let keyRep := e.key.serializeUserKey
    (b.core.block.add d.opt.toOptions e).bind fun block =>
      let b : FileBuilder := {
        b with
        core := {
          b.core with
          firstUk := if b.core.firstUk = [] then keyRep else b.core.firstUk
          filterRep :=
            if keyRep = b.core.lastUk then b.core.filterRep
            else d.filter.appendNewFilter keyRep b.core.filterRep
          lastUk := keyRep
          block } }
      if d.opt.blockSize ≤ block.storage.length then
        (b.flushCurrentBlock d opt (getCompressor d.zstd d.opt "zstd") true).map fun b =>
          (true, {
            b with
            core := { b.core with sizeFlushed := b.core.sizeFlushed + b.core.block.storage.length } })
      else some (true, b)

/-- `sstable_builder::finish`. It closes the file, unless it returns early for an empty filter. -/
def finish (b : FileBuilder) : Option FileBuilder :=
  if b.wasFinish then none
  else
    let b : FileBuilder := { b with wasFinish := true }
    (b.flushCurrentBlock d opt (getCompressor d.zstd d.opt "zstd") false).bind fun b =>
      if b.core.filterRep = [] then some b
      else if b.core.lastUk = [] ∨ b.core.firstUk = [] then none
      else if d.opt.maxBlockSegmentsNumber = 0 then none
      else
        (RawBlockBuilder.fresh.addAll d.opt.toOptions
          (MetaBlock.entries b.core.lastUk b.core.firstUk b.core.filterRep)).bind fun metaBuilder =>
            let mbo := b.core.bytesAppendedToFile
            let b : FileBuilder := { b with core := { b.core with block := metaBuilder.moved } }
            (b.flushCurrentBlock d opt none false).bind fun b =>
              (b.append opt
                (encodeBigEndian mboSize mbo ++ encodeBigEndian mgnSize magicNumber)).bind fun b =>
                  b.out.close.map fun out => { b with out }

variable {d opt} {b b' : FileBuilder} {e : KvEntry} {taken : Bool} {bytes : ByteString}
  {compressor : Option CompressorPolicy} {needFlush : Bool}

/-- The file has received what the builder handed to it. -/
def Hands (opt : WritableOptions) (b : FileBuilder) : Prop := b.out.Receives opt b.core.file

theorem append_core (hands : b.Hands opt) (appended : b.append opt bytes = some b') :
    ∃ file, appendToFile b.core.file bytes = some file ∧ b'.core = { b.core with file } ∧
      b'.wasFinish = b.wasFinish ∧ b'.Hands opt := by
  obtain ⟨out, received, receives⟩ := SeqWritable.Receives.append hands bytes
  rw [append, received, Option.bind_some] at appended
  obtain ⟨file, fits, rfl⟩ := Option.map_eq_some_iff.mp appended
  have eq : file = b.core.file ++ bytes := by
    rw [appendToFile] at fits
    split_ifs at fits
    exact (Option.some.inj fits).symm
  refine ⟨file, fits, rfl, rfl, ?_⟩
  rw [Hands, eq]
  exact receives

/-- With its file the builder does what it does without. -/
theorem writeCurrentBlock_core (hands : b.Hands opt)
    (flushed : b.writeCurrentBlock d opt compressor = some b') :
    b.core.flushCurrentBlock d compressor = some b'.core ∧ b'.wasFinish = b.wasFinish ∧
      b'.Hands opt := by
  rw [writeCurrentBlock] at flushed
  rw [RawSstableBuilder.flushCurrentBlock]
  by_cases empty : b.core.block.publicPrefix = none
  · rw [if_pos empty] at flushed ⊢
    obtain rfl := Option.some.inj flushed
    exact ⟨rfl, rfl, hands⟩
  · rw [if_neg empty] at flushed ⊢
    obtain ⟨storage, finished, written⟩ := Option.bind_eq_some_iff.mp flushed
    obtain ⟨b'', appended, rfl⟩ := Option.map_eq_some_iff.mp written
    obtain ⟨file, fits, core, same, hands⟩ := append_core (by exact hands) appended
    refine ⟨?_, same, hands⟩
    rw [finished, Option.bind_some]
    rw [show appendToFile b.core.file storage = some file from fits, core]
    rfl

/-- A flush on request moves bytes from the buffer to the file only. -/
theorem flushCurrentBlock_core (hands : b.Hands opt)
    (flushed : b.flushCurrentBlock d opt compressor needFlush = some b') :
    b.core.flushCurrentBlock d compressor = some b'.core ∧ b'.wasFinish = b.wasFinish ∧
      b'.Hands opt := by
  obtain ⟨b1, written, flushed⟩ := Option.bind_eq_some_iff.mp flushed
  obtain ⟨core, same, hands⟩ := writeCurrentBlock_core hands written
  cases needFlush with
  | false =>
    obtain rfl := Option.some.inj flushed
    exact ⟨core, same, hands⟩
  | true =>
    obtain ⟨out, flushes, rfl⟩ := Option.map_eq_some_iff.mp flushed
    exact ⟨core, same, SeqWritable.Receives.flushed hands flushes⟩

theorem add_core (hands : b.Hands opt) (added : b.add d opt e = some (taken, b')) :
    b.core.add d e = some (taken, b'.core) ∧ b'.wasFinish = b.wasFinish ∧ b'.Hands opt := by
  rw [add] at added
  rw [RawSstableBuilder.add]
  split at added
  · cases added
  · by_cases full : b.core.reachTheSizeLimit = true
    · rw [if_pos full] at added ⊢
      obtain ⟨rfl, rfl⟩ := Prod.mk.inj (Option.some.inj added)
      exact ⟨rfl, rfl, hands⟩
    · rw [if_neg full] at added ⊢
      obtain ⟨block, blockAdded, later⟩ := Option.bind_eq_some_iff.mp added
      rw [blockAdded, Option.bind_some]
      dsimp only at later ⊢
      by_cases large : d.opt.blockSize ≤ block.storage.length
      · rw [if_pos large] at later ⊢
        obtain ⟨b'', flushed, eq⟩ := Option.map_eq_some_iff.mp later
        obtain ⟨rfl, rfl⟩ := Prod.mk.inj eq
        obtain ⟨core, same, hands⟩ := flushCurrentBlock_core (by exact hands) flushed
        refine ⟨?_, same, hands⟩
        dsimp only at core
        rw [core]
        rfl
      · rw [if_neg large] at later ⊢
        obtain ⟨rfl, rfl⟩ := Prod.mk.inj (Option.some.inj later)
        exact ⟨rfl, rfl, hands⟩

/-- `finish` writes the file that it leaves without the writable behind it, and closes it if the
filter is not empty: a sync that follows does nothing then. -/
theorem finish_core (hands : b.Hands opt) (finished : b.finish d opt = some b') :
    b.core.finish d = some b'.core.file ∧
      if b.core.filterRep = [] then b'.Hands opt
      else b'.out.sync = some b'.out ∧ b'.out.file = SeqWritable.passed opt b'.core.file ∧
        b'.out.synced = [] := by
  rw [finish] at finished
  rw [RawSstableBuilder.finish]
  split at finished
  · cases finished
  · obtain ⟨b1, flushed, later⟩ := Option.bind_eq_some_iff.mp finished
    obtain ⟨core, -, hands⟩ := flushCurrentBlock_core (by exact hands) flushed
    dsimp only at core
    have rep : b1.core.filterRep = b.core.filterRep := by
      rcases RawSstableBuilder.flushCurrentBlock_cases core with ⟨-, eq⟩ | ⟨-, storage, -, eq⟩
      · rw [eq]
      · rw [eq]
    rw [core, Option.bind_some, ← rep]
    by_cases empty : b1.core.filterRep = []
    · rw [if_pos empty] at later ⊢
      obtain rfl := Option.some.inj later
      rw [if_pos empty]
      exact ⟨rfl, hands⟩
    · rw [if_neg empty] at later ⊢
      rw [if_neg empty]
      split at later
      · cases later
      · rename_i keys
        obtain ⟨positive, later⟩ := Option.ite_none_left_eq_some.mp later
        rw [if_neg keys, if_neg positive]
        obtain ⟨metaBuilder, built, later⟩ := Option.bind_eq_some_iff.mp later
        obtain ⟨b2, written, later⟩ := Option.bind_eq_some_iff.mp later
        obtain ⟨b3, footer, later⟩ := Option.bind_eq_some_iff.mp later
        obtain ⟨out, closed, rfl⟩ := Option.map_eq_some_iff.mp later
        obtain ⟨metaCore, -, hands⟩ := flushCurrentBlock_core (by exact hands) written
        obtain ⟨file, fits, core', -, hands⟩ := append_core hands footer
        obtain ⟨out', closes, again, passed, unsynced⟩ := SeqWritable.Receives.close hands
        obtain rfl : out' = out := Option.some.inj (closes.symm.trans closed)
        refine ⟨?_, again, passed, unsynced⟩
        rw [built, Option.bind_some]
        dsimp only at metaCore ⊢
        rw [metaCore, Option.bind_some, fits, core']

end FileBuilder

namespace RawSstableBuilder

variable {d : TableDeps} {r r' : RawSstableBuilder} {e : KvEntry} {image : ByteString}

/-- A key that is not the last one gets a filter. -/
theorem add_filterRep (added : r.add d e = some (true, r')) :
    r'.lastUk = e.key.serializeUserKey ∧ r'.filterRep =
      if e.key.serializeUserKey = r.lastUk then r.filterRep
      else d.filter.appendNewFilter e.key.serializeUserKey r.filterRep := by
  rw [add] at added
  split at added
  · cases added
  · obtain ⟨block, -, later⟩ := Option.bind_eq_some_iff.mp added
    dsimp only at later
    split at later
    · obtain ⟨next, flushed, eq⟩ := Option.map_eq_some_iff.mp later
      obtain rfl := (Prod.mk.inj eq).2
      rcases flushCurrentBlock_cases flushed with ⟨-, rfl⟩ | ⟨-, storage, -, rfl⟩
      · exact ⟨rfl, rfl⟩
      · exact ⟨rfl, rfl⟩
    · obtain rfl := (Prod.mk.inj (Option.some.inj later)).2
      exact ⟨rfl, rfl⟩

/-- The builder has taken these entries, one after another. -/
def Built (d : TableDeps) (sizeLimit : Nat) (es : List KvEntry) (r : RawSstableBuilder) : Prop :=
  (make sizeLimit).bind (·.addAll d es) = some r

theorem addAll_concat {es : List KvEntry} {b : RawSstableBuilder} (all : b.addAll d es = some r)
    (added : r.add d e = some (true, r')) : b.addAll d (es ++ [e]) = some r' := by
  induction es generalizing b with
  | nil =>
    obtain rfl := Option.some.inj all
    rw [List.nil_append, addAll, added]
    rfl
  | cons x es ih =>
    obtain ⟨⟨taken, next⟩, first, later⟩ := Option.bind_eq_some_iff.mp all
    cases taken with
    | false => cases later
    | true =>
      rw [List.cons_append, addAll, first]
      exact ih later

theorem Built.add {es : List KvEntry} {sizeLimit : Nat} (built : Built d sizeLimit es r)
    (added : r.add d e = some (true, r')) : Built d sizeLimit (es ++ [e]) r' := by
  obtain ⟨b, made, all⟩ := Option.bind_eq_some_iff.mp built
  rw [Built, made]
  exact addAll_concat all added

/-- The builder has bytes that belong to its table. -/
def Started (r : RawSstableBuilder) : Prop := r.block.publicPrefix ≠ none ∨ r.file ≠ []

theorem started_of_add (added : r.add d e = some (true, r')) : r'.Started := by
  rcases add_cases added with ⟨-, refused, -⟩ | ⟨-, -, -, block, blockAdded, written⟩
  · cases refused
  · split at written
    · obtain ⟨storage, long, -, file, -⟩ := written
      refine .inr fun empty => ?_
      rw [file, List.append_eq_nil_iff] at empty
      rw [empty.2] at long
      cases long
    · rw [Started, written.1]
      exact .inl (RawBlockBuilder.publicPrefix_of_add blockAdded)

theorem finish_ne_nil (started : r.Started) (finished : r.finish d = some image) : image ≠ [] := by
  obtain ⟨closed, flushed, later⟩ := Option.bind_eq_some_iff.mp finished
  have some_byte : closed.file ≠ [] := by
    rcases flushCurrentBlock_cases flushed with ⟨none_open, rfl⟩ | ⟨-, storage, long, rfl⟩
    · exact started.resolve_left fun opened => opened none_open
    · intro empty
      rw [(List.append_eq_nil_iff.mp empty).2] at long
      cases long
  dsimp only at later
  split at later
  · obtain rfl := Option.some.inj later
    exact some_byte
  · split at later
    · cases later
    · obtain ⟨-, later⟩ := Option.ite_none_left_eq_some.mp later
      obtain ⟨metaBuilder, -, later⟩ := Option.bind_eq_some_iff.mp later
      obtain ⟨last, -, appended⟩ := Option.bind_eq_some_iff.mp later
      rw [appendToFile] at appended
      split_ifs at appended
      obtain rfl := Option.some.inj appended
      intro empty
      have footer := congrArg List.length (List.append_eq_nil_iff.mp empty).2
      rw [List.length_append, encodeBigEndian_length, encodeBigEndian_length] at footer
      cases footer

end RawSstableBuilder

end FrenzyKV
