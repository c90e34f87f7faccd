import FrenzyKV.Framework.Machine
import FrenzyKV.Math.SortedDifference
import FrenzyKV.Table.FileBuilder
import Mathlib.Data.List.Sort
import Mathlib.Data.Prod.Lex

namespace FrenzyKV

open Bytes Framework SortedDifference

namespace SyncBeforePublish

/-- A table file: the bytes of the table, those in the file, and those that a sync has covered. -/
structure TableFile where
  level : Nat
  fileId : Nat
  table : ByteString
  file : ByteString
  synced : ByteString
deriving DecidableEq

namespace TableFile

/-- All bytes of the table were written and then covered by a sync. -/
def Durable (t : TableFile) : Prop := t.file = t.table ∧ t.synced = t.table

instance (t : TableFile) : Decidable t.Durable := inferInstanceAs (Decidable (_ ∧ _))

/-- `file_rep::operator<` compares level and id. -/
def rank (t : TableFile) : ℕ ×ₗ ℕ := toLex (t.level, t.fileId)

end TableFile

/-- `version_rep::operator+=` with a delta. -/
def addDelta (files compacted added : List TableFile) : List TableFile :=
  if compacted.isEmpty && added.isEmpty then files
  else
    let sort := fun ts : List TableFile => ts.insertionSort (TableFile.rank · ≤ TableFile.rank ·)
    added ++ setDifference TableFile.rank (sort files) (sort compacted)

/-- The variables of `flush_to_disk`: the builder with the file behind it, the name of that file, and
the new files of the delta. -/
structure Flushing where
  builder : FileBuilder
  fileId : Nat
  delta : List TableFile

namespace Flushing

variable (d : TableDeps) (opt : WritableOptions)

/-- `finish_current_building`. -/
def finishCurrentBuilding (s : Flushing) : Option Flushing :=
  (s.builder.finish d opt).bind fun builder =>
    builder.out.sync.map fun out => {
      s with
      builder := { builder with out }
      delta := s.delta ++ [⟨0, s.fileId, builder.core.file, out.file, out.synced⟩] }

/-- The next file, and a builder for it. -/
def openNext (s : Flushing) : Option Flushing :=
  (FileBuilder.make opt (d.opt.toOptions.allowedLevelFileSize 0)).map fun builder =>
    { s with builder, fileId := s.fileId + 1 }

/-- One pass of the loop; the builder of the next file has to take the entry. -/
def addEntry (s : Flushing) (e : KvEntry) : Option Flushing :=
  (s.builder.add d opt e).bind fun added =>
    let s := { s with builder := added.2 }
    if added.1 then some s
    else
      (s.finishCurrentBuilding d opt).bind fun s => (s.openNext d opt).bind fun s =>
        (s.builder.add d opt e).bind fun added =>
          if added.1 then some { s with builder := added.2 } else none

/-- The loop, and `finish_current_building` behind it. -/
def addEntries (s : Flushing) : List KvEntry → Option Flushing
  | [] => s.finishCurrentBuilding d opt
  | e :: es => (s.addEntry d opt e).bind fun s => s.addEntries es

end Flushing

section Tables

variable (d : TableDeps) (opt : WritableOptions)

/-- The tables of `flush_to_disk`, which returns at once for an empty memtable. -/
def flushToDisk (fileId : Nat) (storage : List KvEntry) : Option (List TableFile) :=
  if storage = [] then some []
  else
    (FileBuilder.make opt (d.opt.toOptions.allowedLevelFileSize 0)).bind fun builder =>
      (Flushing.addEntries d opt ⟨builder, fileId, []⟩ storage).map Flushing.delta

/-- `in_mem_rw::dump_to`, over the blocks of the file in memory. -/
def dumpTo (file : SeqWritable) : List ByteString → Option SeqWritable
  | [] => some file
  | block :: blocks =>
    if block = [] then dumpTo file blocks
    else (file.append opt block).bind fun file => dumpTo file blocks

/-- `fake_file_to_disk`; there may be no file, or an empty one. -/
def fakeFileToDisk (level fileId : Nat) : Option (List ByteString) → Option (List TableFile)
  | none => some []
  | some blocks =>
    if blocks.flatten = [] then some []
    else
      (dumpTo opt (.opened opt) blocks).bind fun file =>
        file.sync.map fun file => [⟨level, fileId, blocks.flatten, file.file, file.synced⟩]

/-- The loop over the files of a compaction. -/
def fakeFilesToDisk (level : Nat) : Nat → List (Option (List ByteString)) → Option (List TableFile)
  | _, [] => some []
  | fileId, fake :: fakes =>
    (fakeFileToDisk opt level fileId fake).bind fun first =>
      (fakeFilesToDisk level (fileId + first.length) fakes).map (first ++ ·)

end Tables

/-- A flush of the entries of a memtable, or what follows a compaction: its files in memory are
dumped, and the files that it has read leave the version. -/
inductive Call where
  | flush (storage : List KvEntry)
  | compaction (compacted : List TableFile) (level : Nat) (fakes : List (Option (List ByteString)))

namespace Call

variable (d : TableDeps) (opt : WritableOptions)

/-- The tables that the call writes before it makes a new version. -/
def tables (fileId : Nat) : Call → Option (List TableFile)
  | flush storage => flushToDisk d opt fileId storage
  | compaction _ level fakes => fakeFilesToDisk opt level fileId fakes

def compacted : Call → List TableFile
  | flush _ => []
  | compaction compacted _ _ => compacted

/-- Whether the call makes a new version at all. -/
def publishes : Call → Bool
  | flush storage => !storage.isEmpty
  | compaction _ _ fakes => !fakes.isEmpty

end Call

/-- A call that has written its tables and has still to replace the current-version file. -/
structure Written (d : TableDeps) (opt : WritableOptions) where
  call : Call
  fileId : Nat
  tables : List TableFile
  wrote : call.tables d opt fileId = some tables

/-- The files that the current version lists, the calls that are under way, and the number of the
next file. -/
structure State (d : TableDeps) (opt : WritableOptions) where
  current : List TableFile
  written : List (Written d opt)
  names : Nat

/-- A call writes its tables, or the `n`-th of those that did replaces the current-version file. -/
inductive Action where
  | write (call : Call)
  | publish (n : Nat)

section Steps

variable {d : TableDeps} {opt : WritableOptions}

def write (s : State d opt) (call : Call) : Option (State d opt) :=
  match wrote : call.tables d opt s.names with
  | none => none
  | some tables =>
    if call.publishes then
      some {
        s with
        written := s.written ++ [⟨call, s.names, tables, wrote⟩]
        names := s.names + tables.length }
    else some s

def publish (s : State d opt) (n : Nat) : Option (State d opt) :=
  s.written[n]?.map fun w => {
    s with
    current := addDelta s.current w.call.compacted w.tables
    written := s.written.eraseIdx n }

def State.Durable (s : State d opt) : Prop := ∀ t ∈ s.current, t.Durable

end Steps

/-- Calls write their tables and publish them in any order, from a version whose tables are durable. -/
def machine (d : TableDeps) (opt : WritableOptions) : Machine (State d opt) Action where
  init s := s.Durable ∧ s.written = []
  step s
    | .write call => write s call
    | .publish n => publish s n

section Flush

variable {d : TableDeps} {opt : WritableOptions} {b b' : FileBuilder} {e : KvEntry} {s s' : Flushing}
  {es : List KvEntry} {ts : List TableFile} {taken : Bool} {sizeLimit fileId : Nat}

/-- The filter of this key alone is empty. -/
def Unfiltered (d : TableDeps) (e : KvEntry) : Prop :=
  d.filter.appendNewFilter e.key.serializeUserKey [] = []

/-- A builder that has taken an entry. -/
structure Filling (d : TableDeps) (opt : WritableOptions) (b : FileBuilder) : Prop where
  hands : b.Hands opt
  started : b.core.Started
  last : b.core.filterRep = [] → d.filter.appendNewFilter b.core.lastUk [] = []

theorem serializeUserKey_ne_nil (k : SequencedKey) : k.serializeUserKey ≠ [] := by
  intro empty
  have length := congrArg List.length empty
  rw [SequencedKey.serializeUserKey, List.length_append, encodeBigEndian_length] at length
  cases (Nat.add_eq_zero_iff.mp length).1

theorem built_make (d : TableDeps) (made : FileBuilder.make opt sizeLimit = some b) :
    RawSstableBuilder.Built d sizeLimit [] b.core := by
  obtain ⟨core, coreMade, rfl⟩ := Option.map_eq_some_iff.mp made
  rw [RawSstableBuilder.Built, coreMade]
  rfl

/-- The file of a new builder is empty. -/
theorem hands_make (made : FileBuilder.make opt sizeLimit = some b) : b.Hands opt := by
  obtain ⟨core, coreMade, rfl⟩ := Option.map_eq_some_iff.mp made
  rw [RawSstableBuilder.make] at coreMade
  split at coreMade
  · cases coreMade
  · obtain rfl := Option.some.inj coreMade
    exact SeqWritable.opened_receives opt

/-- A new builder takes an entry, and its filter is the one of the key. -/
theorem add_make (made : FileBuilder.make opt sizeLimit = some b)
    (added : b.add d opt e = some (taken, b')) :
    taken = true ∧ Filling d opt b' ∧ (b'.core.filterRep = [] ↔ Unfiltered d e) := by
  obtain ⟨coreAdded, -, hands⟩ := FileBuilder.add_core (hands_make made) added
  obtain ⟨core, coreMade, rfl⟩ := Option.map_eq_some_iff.mp made
  rw [RawSstableBuilder.make] at coreMade
  split at coreMade
  · cases coreMade
  · rename_i positive
    obtain rfl := Option.some.inj coreMade
    obtain rfl : taken = true := by
      rcases RawSstableBuilder.add_cases coreAdded with ⟨full, -, -⟩ | ⟨-, yes, -⟩
      · exact absurd (Nat.le_zero.mp full) positive
      · exact yes
    obtain ⟨lastUk, rep⟩ := RawSstableBuilder.add_filterRep coreAdded
    rw [if_neg (serializeUserKey_ne_nil e.key)] at rep
    refine ⟨rfl, ⟨hands, RawSstableBuilder.started_of_add coreAdded, ?_⟩, ?_⟩
    · rw [lastUk, rep]
      exact id
    · rw [rep]
      exact Iff.rfl

/-- Another entry leaves the filter empty if it was, and if the filter of the key is. -/
theorem Filling.add (grows : ∀ key dst, dst <+: d.filter.appendNewFilter key dst)
    (filling : Filling d opt b) (added : b.add d opt e = some (true, b')) :
    Filling d opt b' ∧ (b'.core.filterRep = [] ↔ b.core.filterRep = [] ∧ Unfiltered d e) := by
  obtain ⟨coreAdded, -, hands⟩ := FileBuilder.add_core filling.hands added
  obtain ⟨lastUk, rep⟩ := RawSstableBuilder.add_filterRep coreAdded
  have exactly : b'.core.filterRep = [] ↔ b.core.filterRep = [] ∧ Unfiltered d e := by
    rw [rep]
    split
    · rename_i same
      rw [Unfiltered, same]
      exact ⟨fun empty => ⟨empty, filling.last empty⟩, And.left⟩
    · constructor
      · intro empty
        have before : b.core.filterRep = [] := List.prefix_nil.mp (empty ▸ grows _ _)
        rw [before] at empty
        exact ⟨before, empty⟩
      · rintro ⟨before, unfiltered⟩
        rw [before]
        exact unfiltered
  refine ⟨⟨hands, RawSstableBuilder.started_of_add coreAdded, fun empty => ?_⟩, exactly⟩
  rw [lastUk]
  exact (exactly.mp empty).2

/-- A refused entry changes nothing. -/
theorem eq_of_refused (refused : b.add d opt e = some (false, b')) : b' = b := by
  rw [FileBuilder.add] at refused
  split at refused
  · cases refused
  · split at refused
    · exact (Prod.mk.inj (Option.some.inj refused)).2.symm
    · obtain ⟨block, -, later⟩ := Option.bind_eq_some_iff.mp refused
      dsimp only at later
      split at later
      · obtain ⟨next, -, eq⟩ := Option.map_eq_some_iff.mp later
        cases (Prod.mk.inj eq).1
      · cases (Prod.mk.inj (Option.some.inj later)).1

/-- A finished table is durable if appends are buffered and the builder has left the file open for
the sync, as it does with an empty filter. -/
theorem Filling.finish (filling : Filling d opt s.builder)
    (finished : s.finishCurrentBuilding d opt = some s') :
    ∃ t, s'.delta = s.delta ++ [t] ∧
      (t.Durable ↔ opt.needBufferedWrite = true ∧ s.builder.core.filterRep = []) := by
  obtain ⟨closed, builderFinished, later⟩ := Option.bind_eq_some_iff.mp finished
  obtain ⟨out, synced, rfl⟩ := Option.map_eq_some_iff.mp later
  obtain ⟨core, file⟩ := FileBuilder.finish_core filling.hands builderFinished
  have some_byte := RawSstableBuilder.finish_ne_nil filling.started core
  refine ⟨_, rfl, ?_⟩
  by_cases empty : s.builder.core.filterRep = []
  · rw [if_pos empty] at file
    obtain ⟨out', again, passed, covered⟩ := SeqWritable.Receives.sync file
    obtain rfl : out' = out := Option.some.inj (again.symm.trans synced)
    rw [TableFile.Durable, passed, covered, SeqWritable.passed]
    cases opt.needBufferedWrite with
    | true => simp [empty]
    | false => simp [some_byte.symm]
  · -- the file was closed before the sync
    rw [if_neg empty] at file
    obtain rfl : closed.out = out := Option.some.inj (file.1.symm.trans synced)
    rw [TableFile.Durable, file.2.2]
    simp [empty, some_byte.symm]

theorem addEntries_durable_iff (grows : ∀ key dst, dst <+: d.filter.appendNewFilter key dst)
    (filling : Filling d opt s.builder) (ran : s.addEntries d opt es = some s') :
    (∀ t ∈ s'.delta, t.Durable) ↔ (∀ t ∈ s.delta, t.Durable) ∧ opt.needBufferedWrite = true ∧
      s.builder.core.filterRep = [] ∧ ∀ e ∈ es, Unfiltered d e := by
  induction es generalizing s with
  | nil =>
    obtain ⟨t, delta, durable⟩ := filling.finish ran
    rw [delta, List.forall_mem_append, List.forall_mem_singleton, durable]
    simp
  | cons e es ih =>
    obtain ⟨next, passed, later⟩ := Option.bind_eq_some_iff.mp ran
    obtain ⟨⟨taken, b⟩, added, passed⟩ := Option.bind_eq_some_iff.mp passed
    cases taken with
    | true =>
      obtain rfl := Option.some.inj passed
      obtain ⟨filling, rep⟩ := filling.add grows added
      rw [ih filling later, rep, List.forall_mem_cons, and_assoc]
    | false =>
      -- the table is finished, and the entry opens the next one
      obtain rfl := eq_of_refused added
      obtain ⟨closed, finished, passed⟩ := Option.bind_eq_some_iff.mp passed
      obtain ⟨opened, opens, passed⟩ := Option.bind_eq_some_iff.mp passed
      obtain ⟨⟨taken, b'⟩, takes, passed⟩ := Option.bind_eq_some_iff.mp passed
      obtain ⟨fresh, made, rfl⟩ := Option.map_eq_some_iff.mp opens
      obtain ⟨rfl, filling', rep⟩ := add_make made takes
      obtain rfl := Option.some.inj passed
      obtain ⟨t, delta, durable⟩ := filling.finish finished
      rw [ih filling' later, rep]
      dsimp only at delta ⊢
      rw [delta, List.forall_mem_append, List.forall_mem_singleton, durable, List.forall_mem_cons]
      tauto

/-- The tables of a flush are durable exactly if there are none, or if appends are buffered and no key
gets a filter. -/
theorem flushToDisk_durable_iff (grows : ∀ key dst, dst <+: d.filter.appendNewFilter key dst)
    (flushed : flushToDisk d opt fileId es = some ts) :
    (∀ t ∈ ts, t.Durable) ↔
      es = [] ∨ opt.needBufferedWrite = true ∧ ∀ e ∈ es, Unfiltered d e := by
  rw [flushToDisk] at flushed
  cases es with
  | nil =>
    obtain rfl := Option.some.inj flushed
    exact iff_of_true (List.forall_mem_nil _) (.inl rfl)
  | cons e es =>
    rw [if_neg (List.cons_ne_nil e es)] at flushed
    obtain ⟨fresh, made, flushed⟩ := Option.bind_eq_some_iff.mp flushed
    obtain ⟨last, ran, rfl⟩ := Option.map_eq_some_iff.mp flushed
    obtain ⟨next, passed, later⟩ := Option.bind_eq_some_iff.mp ran
    obtain ⟨⟨taken, b⟩, added, passed⟩ := Option.bind_eq_some_iff.mp passed
    obtain ⟨rfl, filling, rep⟩ := add_make made added
    obtain rfl := Option.some.inj passed
    rw [addEntries_durable_iff grows filling later, rep, List.forall_mem_cons]
    simp

/-- The files of a flush hold the entries group by group, in the tables that builders make of them. -/
def Holds (d : TableDeps) (es : List KvEntry) (ts : List TableFile) : Prop :=
  ∃ groups : List (List KvEntry × TableFile),
    groups.flatMap Prod.fst = es ∧ groups.map Prod.snd = ts ∧ ∀ g ∈ groups, ∃ r,
      RawSstableBuilder.Built d (d.opt.toOptions.allowedLevelFileSize 0) g.1 r ∧
        r.finish d = some g.2.table

/-- The file that is held becomes a table of the entries in the builder. -/
theorem Holds.finish {front group : List KvEntry} (holds : Holds d front s.delta)
    (hands : s.builder.Hands opt)
    (built : RawSstableBuilder.Built d (d.opt.toOptions.allowedLevelFileSize 0) group s.builder.core)
    (finished : s.finishCurrentBuilding d opt = some s') : Holds d (front ++ group) s'.delta := by
  obtain ⟨closed, builderFinished, later⟩ := Option.bind_eq_some_iff.mp finished
  obtain ⟨out, synced, rfl⟩ := Option.map_eq_some_iff.mp later
  obtain ⟨core, -⟩ := FileBuilder.finish_core hands builderFinished
  obtain ⟨groups, entries, tables, made⟩ := holds
  let t : TableFile := ⟨0, s.fileId, closed.core.file, out.file, out.synced⟩
  refine ⟨groups ++ [(group, t)], ?_, ?_, ?_⟩
  · rw [List.flatMap_append, entries, List.flatMap_singleton]
  · rw [List.map_append, tables]
    rfl
  · exact List.forall_mem_append.mpr ⟨made, List.forall_mem_singleton.mpr ⟨_, built, core⟩⟩

theorem addEntries_holds {front group : List KvEntry} (holds : Holds d front s.delta)
    (hands : s.builder.Hands opt)
    (built : RawSstableBuilder.Built d (d.opt.toOptions.allowedLevelFileSize 0) group s.builder.core)
    (ran : s.addEntries d opt es = some s') : Holds d (front ++ (group ++ es)) s'.delta := by
  induction es generalizing s front group with
  | nil =>
    rw [List.append_nil]
    exact holds.finish hands built ran
  | cons e es ih =>
    obtain ⟨next, passed, later⟩ := Option.bind_eq_some_iff.mp ran
    obtain ⟨⟨taken, b⟩, added, passed⟩ := Option.bind_eq_some_iff.mp passed
    obtain ⟨coreAdded, -, hands'⟩ := FileBuilder.add_core hands added
    cases taken with
    | true =>
      obtain rfl := Option.some.inj passed
      have all := ih (s := { s with builder := b }) holds hands' (built.add coreAdded) later
      rwa [List.append_assoc group, List.singleton_append] at all
    | false =>
      obtain rfl := eq_of_refused added
      obtain ⟨closed, finished, passed⟩ := Option.bind_eq_some_iff.mp passed
      obtain ⟨opened, opens, passed⟩ := Option.bind_eq_some_iff.mp passed
      obtain ⟨⟨taken, b'⟩, takes, passed⟩ := Option.bind_eq_some_iff.mp passed
      obtain ⟨fresh, made, rfl⟩ := Option.map_eq_some_iff.mp opens
      obtain ⟨freshAdded, -, hands'⟩ := FileBuilder.add_core (hands_make made) takes
      obtain ⟨rfl, -⟩ := add_make made takes
      obtain rfl := Option.some.inj passed
      have before : Holds d (front ++ group) closed.delta := holds.finish hands built finished
      have all := ih (s := ⟨b', closed.fileId + 1, closed.delta⟩) before hands'
        ((built_make d made).add freshAdded) later
      rwa [List.nil_append, List.singleton_append, List.append_assoc] at all

/-- Nothing is lost between the memtable and the files: each holds a table of the next entries. -/
theorem flushToDisk_holds (flushed : flushToDisk d opt fileId es = some ts) : Holds d es ts := by
  rw [flushToDisk] at flushed
  split at flushed
  · rename_i empty
    obtain rfl := Option.some.inj flushed
    exact ⟨[], empty.symm, rfl, List.forall_mem_nil _⟩
  · obtain ⟨fresh, made, flushed⟩ := Option.bind_eq_some_iff.mp flushed
    obtain ⟨last, ran, rfl⟩ := Option.map_eq_some_iff.mp flushed
    exact addEntries_holds ⟨[], rfl, rfl, List.forall_mem_nil _⟩ (hands_make made) (built_make d made) ran

end Flush

section Compaction

variable {opt : WritableOptions} {f : SeqWritable} {bytes : ByteString} {blocks : List ByteString}
  {fake : Option (List ByteString)} {fakes : List (Option (List ByteString))} {level fileId : Nat}
  {ts : List TableFile}

/-- A file in memory is handed over whole. -/
theorem dumpTo_receives (blocks : List ByteString) (receives : f.Receives opt bytes) :
    ∃ f', dumpTo opt f blocks = some f' ∧ f'.Receives opt (bytes ++ blocks.flatten) := by
  induction blocks generalizing f bytes with
  | nil => exact ⟨f, rfl, by rwa [List.flatten_nil, List.append_nil]⟩
  | cons block blocks ih =>
    rw [dumpTo, List.flatten_cons]
    by_cases empty : block = []
    · rw [if_pos empty, empty, List.nil_append]
      exact ih receives
    · obtain ⟨next, appended, receives⟩ := receives.append block
      obtain ⟨f', dumped, receives⟩ := ih receives
      rw [List.append_assoc] at receives
      exact ⟨f', by rw [if_neg empty, appended, Option.bind_some, dumped], receives⟩

theorem fakeFileToDisk_durable_iff (written : fakeFileToDisk opt level fileId fake = some ts) :
    (∀ t ∈ ts, t.Durable) ↔
      opt.needBufferedWrite = true ∨ ∀ blocks ∈ fake, blocks.flatten = [] := by
  cases fake with
  | none =>
    obtain rfl := Option.some.inj written
    simp
  | some blocks =>
    rw [fakeFileToDisk] at written
    by_cases empty : blocks.flatten = []
    · rw [if_pos empty] at written
      obtain rfl := Option.some.inj written
      refine iff_of_true (List.forall_mem_nil _) (.inr fun other same => ?_)
      rwa [← Option.some.inj same]
    · obtain ⟨file, dumped, receives⟩ := dumpTo_receives blocks (SeqWritable.opened_receives opt)
      rw [List.nil_append] at receives
      obtain ⟨file', synced, passed, covered⟩ := receives.sync
      rw [if_neg empty, dumped, Option.bind_some, synced, Option.map_some] at written
      obtain rfl := Option.some.inj written
      rw [List.forall_mem_singleton, TableFile.Durable, passed, covered, SeqWritable.passed]
      cases opt.needBufferedWrite with
      | true => simp
      | false =>
        have unpassed : ¬ ([] = blocks.flatten ∧ [] = blocks.flatten) := fun same => empty same.1.symm
        rw [if_neg Bool.false_ne_true]
        refine iff_of_false unpassed ?_
        rintro (off | nothing)
        · cases off
        · exact empty (nothing blocks rfl)

/-- The tables behind a compaction are durable exactly if appends are buffered or there is nothing to
write. -/
theorem fakeFilesToDisk_durable_iff
    (written : fakeFilesToDisk opt level fileId fakes = some ts) : (∀ t ∈ ts, t.Durable) ↔
      opt.needBufferedWrite = true ∨ ∀ fake ∈ fakes, ∀ blocks ∈ fake, blocks.flatten = [] := by
  induction fakes generalizing fileId ts with
  | nil =>
    obtain rfl := Option.some.inj written
    simp
  | cons fake fakes ih =>
    obtain ⟨first, one, later⟩ := Option.bind_eq_some_iff.mp written
    obtain ⟨rest, others, rfl⟩ := Option.map_eq_some_iff.mp later
    rw [List.forall_mem_append, fakeFileToDisk_durable_iff one, ih others, List.forall_mem_cons,
      ← or_and_left]

end Compaction

/-- The tables of the call are durable when it has written them: a flush finds no entry, or no key
that gets a filter, and what there is to write is written through a buffer. -/
def Call.Synced (d : TableDeps) (opt : WritableOptions) : Call → Prop
  | flush storage => storage = [] ∨ opt.needBufferedWrite = true ∧ ∀ e ∈ storage, Unfiltered d e
  | compaction _ _ fakes =>
    opt.needBufferedWrite = true ∨ ∀ fake ∈ fakes, ∀ blocks ∈ fake, blocks.flatten = []

/-- With the filter of the database a flush is synced only if there is nothing to flush. -/
theorem flush_synced_iff_of_bloom {d : TableDeps} {opt : WritableOptions} {hash : ByteString → UInt64}
    {numKeyBits : Nat} (bloom : d.filter = makeBloomFilter hash numKeyBits) (storage : List KvEntry) :
    (Call.flush storage).Synced d opt ↔ storage = [] := by
  have filtered : ∀ e, ¬ Unfiltered d e := by
    intro e empty
    rw [Unfiltered, bloom] at empty
    have length : (BloomFilter.appendNewFilter hash numKeyBits e.key.serializeUserKey []).length = 0 :=
      congrArg List.length empty
    rw [BloomFilter.appendNewFilter_length] at length
    omega
  constructor
  · rintro (none_there | ⟨-, unfiltered⟩)
    · exact none_there
    · exact List.eq_nil_iff_forall_not_mem.mpr fun e mem => filtered e (unfiltered e mem)
  · exact .inl

/-- The step does not publish a call that is not synced. -/
def PublishesSynced {d : TableDeps} {opt : WritableOptions} (s : State d opt) : Action → Prop
  | .write _ => True
  | .publish n => ∀ w ∈ s.written[n]?, w.call.Synced d opt

section Runs

variable {d : TableDeps} {opt : WritableOptions} {s s' : State d opt} {a : Action}
  {files compacted added : List TableFile} {t : TableFile}

theorem Written.durable_iff (grows : ∀ key dst, dst <+: d.filter.appendNewFilter key dst)
    (w : Written d opt) : (∀ t ∈ w.tables, t.Durable) ↔ w.call.Synced d opt := by
  obtain ⟨call, fileId, tables, wrote⟩ := w
  cases call with
  | flush storage => exact flushToDisk_durable_iff grows wrote
  | compaction compacted level fakes => exact fakeFilesToDisk_durable_iff wrote

theorem added_mem_addDelta (mem : t ∈ added) : t ∈ addDelta files compacted added := by
  rw [addDelta]
  split
  · rename_i empty
    rw [Bool.and_eq_true, List.isEmpty_iff, List.isEmpty_iff] at empty
    rw [empty.2] at mem
    cases mem
  · exact List.mem_append_left _ mem

theorem mem_of_mem_addDelta (mem : t ∈ addDelta files compacted added) : t ∈ added ∨ t ∈ files := by
  rw [addDelta] at mem
  split at mem
  · exact .inr mem
  · cases List.mem_append.mp mem with
    | inl new => exact .inl new
    | inr kept =>
      have sorted := (setDifference_sublist _ _ _).subset kept
      exact .inr ((List.mem_insertionSort _).mp sorted)

/-- A step keeps the listed tables durable exactly if it publishes a call that is synced. -/
theorem step_durable_iff (grows : ∀ key dst, dst <+: d.filter.appendNewFilter key dst)
    (durable : s.Durable) (taken : (machine d opt).step s a = some s') :
    s'.Durable ↔ PublishesSynced s a := by
  cases a with
  | write call =>
    have same : s'.current = s.current := by
      change write s call = some s' at taken
      rw [write] at taken
      split at taken
      · cases taken
      · split at taken
        · obtain rfl := Option.some.inj taken
          rfl
        · obtain rfl := Option.some.inj taken
          rfl
    rw [State.Durable, same]
    exact iff_of_true durable trivial
  | publish n =>
    obtain ⟨w, there, rfl⟩ := Option.map_eq_some_iff.mp taken
    have synced : PublishesSynced s (.publish n) ↔ ∀ t ∈ w.tables, t.Durable := by
      rw [w.durable_iff grows]
      simp [PublishesSynced, there]
    rw [synced]
    constructor
    · exact fun all t mem => all t (added_mem_addDelta mem)
    · intro new t mem
      cases mem_of_mem_addDelta mem with
      | inl added => exact new t added
      | inr old => exact durable t old

/-- Whenever the current-version file is replaced all tables that it lists are durable, exactly if
every call that is published is synced. -/
theorem published_durable_iff (grows : ∀ key dst, dst <+: d.filter.appendNewFilter key dst)
    (initial : (machine d opt).init s) (as : List Action) :
    (machine d opt).Throughout State.Durable s as ↔
      (machine d opt).StepsMeet PublishesSynced s as :=
  Machine.throughout_iff (fun _ _ _ => step_durable_iff grows) initial.1

/-- What a compaction leaves in memory is published with its bytes synced. -/
theorem compaction_published : ∃ s, (machine RawSstable.wholeBlock ⟨true, 4096⟩).run ⟨[], [], 0⟩
      [.write (.compaction [] 1 [some [[1, 2], [3]]]), .publish 0] = some s ∧
    s.current = [⟨1, 0, [1, 2, 3], [1, 2, 3], [1, 2, 3]⟩] ∧
    ((machine RawSstable.wholeBlock ⟨true, 4096⟩).Throughout State.Durable ⟨[], [], 0⟩
        [.write (.compaction [] 1 [some [[1, 2], [3]]]), .publish 0] ↔
      (machine RawSstable.wholeBlock ⟨true, 4096⟩).StepsMeet PublishesSynced ⟨[], [], 0⟩
        [.write (.compaction [] 1 [some [[1, 2], [3]]]), .publish 0]) := by
  have runs : ((machine RawSstable.wholeBlock ⟨true, 4096⟩).run ⟨[], [], 0⟩
      [.write (.compaction [] 1 [some [[1, 2], [3]]]), .publish 0]).any (fun s =>
        s.current = [⟨1, 0, [1, 2, 3], [1, 2, 3], [1, 2, 3]⟩]) = true := by decide +kernel
  obtain ⟨s, ran, listed⟩ := (Option.any_eq_true _ _).mp runs
  refine ⟨s, ran, of_decide_eq_true listed, published_durable_iff (fun key dst => ?_) ⟨?_, rfl⟩ _⟩
  · exact FilterGate.appendNewFilter_grows _ _ key dst
  · exact List.forall_mem_nil _

/-- A flush of one entry publishes a table whose file was closed before the sync. -/
theorem flush_not_durable : ∃ s, (machine RawSstable.wholeBlock ⟨true, 4096⟩).run ⟨[], [], 0⟩
      [.write (.flush [.brief 97 0 1]), .publish 0] = some s ∧ ¬ s.Durable := by
  have runs : ((machine RawSstable.wholeBlock ⟨true, 4096⟩).run ⟨[], [], 0⟩
      [.write (.flush [.brief 97 0 1]), .publish 0]).any (fun s =>
        !decide (∀ t ∈ s.current, t.Durable)) = true := by decide +kernel
  obtain ⟨s, ran, listed⟩ := (Option.any_eq_true _ _).mp runs
  rw [Bool.not_eq_true', decide_eq_false_iff_not] at listed
  exact ⟨s, ran, listed⟩

end Runs

end SyncBeforePublish

end FrenzyKV
