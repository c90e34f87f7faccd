import FrenzyKV.Db.HeldEntries
import FrenzyKV.Table.TableRoom
import FrenzyKV.Log.EntryBuffer

namespace FrenzyKV

open Bytes

/-- An `sstable_builder` object: what it builds, whether `finish` has run, the file that it writes
to and the file that it owns. Files are numbered in the order in which they are opened. -/
structure BuilderObject where
  core : RawSstableBuilder
  wasFinish : Bool
  file : Nat
  selfManagedFile : Option Nat

namespace BuilderObject

/-- The constructor that is given a file it does not own. -/
def make (sizeLimit file : Nat) : Option BuilderObject :=
  (RawSstableBuilder.make sizeLimit).map fun core => ⟨core, false, file, none⟩

/-- `sstable_builder::swap`, which leaves the owned files where they are. -/
def swap (b other : BuilderObject) : BuilderObject × BuilderObject :=
  ({ other with selfManagedFile := b.selfManagedFile },
    { b with selfManagedFile := other.selfManagedFile })

/-- Move assignment: both objects afterwards. -/
def moveAssign (b other : BuilderObject) : BuilderObject × BuilderObject :=
  let (b, other) := b.swap other
  (b, { other with wasFinish := true })

/-- `sstable_builder::add` with its assertion. -/
def add (d : TableDeps) (b : BuilderObject) (e : KvEntry) : Option (Bool × BuilderObject) :=
  if b.wasFinish then none
  else (b.core.add d e).map fun added => (added.1, { b with core := added.2 })

/-- `sstable_builder::finish` with its assertion: the bytes that are in the file now. -/
def finish (d : TableDeps) (b : BuilderObject) : Option (ByteString × BuilderObject) :=
  if b.wasFinish then none
  else (b.core.finish d).map fun bytes => (bytes, { b with wasFinish := true })

end BuilderObject

/-- The variables of the loops: the builder, the file or guard that is held, and the delta or the
result vector. `names` is the number of the next file, `tables` the bytes of the finished files. -/
structure Splitting where
  builder : BuilderObject
  held : Nat
  names : Nat
  tables : List (Nat × ByteString)
  listed : List Nat

namespace Splitting

variable (d : TableDeps) (sizeLimit : Nat) (reopens : Bool)

/-- Before the loop. -/
def start : Option Splitting :=
  (BuilderObject.make sizeLimit 0).map fun builder => ⟨builder, 0, 1, [], []⟩

/-- Finish the builder and list the file that is held; the compaction opens it as a table. -/
def finishCurrentBuilding (s : Splitting) : Option Splitting :=
  (s.builder.finish d).bind fun finished =>
    if reopens && (RawSstable.make d finished.1).isNone then none
    else some {
      s with
      builder := finished.2
      tables := s.tables ++ [(finished.2.file, finished.1)]
      listed := s.listed ++ [s.held] }

/-- Open the next file and move a new builder for it into the old one. -/
def openNext (s : Splitting) : Option Splitting :=
  (BuilderObject.make sizeLimit s.names).map fun fresh => {
    s with
    builder := (s.builder.moveAssign fresh).1
    held := s.names
    names := s.names + 1 }

/-- One pass of the loop; the builder of the next file has to take the entry. -/
def addEntry (s : Splitting) (e : KvEntry) : Option Splitting :=
  (s.builder.add d e).bind fun added =>
    let s := { s with builder := added.2 }
    if added.1 then some s
    else
      (s.finishCurrentBuilding d reopens).bind fun s => (s.openNext sizeLimit).bind fun s =>
        (s.builder.add d e).bind fun added =>
          if added.1 then some { s with builder := added.2 } else none

/-- The loop, and what finishes the last table behind it. -/
def addEntries (s : Splitting) : List KvEntry → Option Splitting
  | [] => s.finishCurrentBuilding d reopens
  | e :: es => (s.addEntry d sizeLimit reopens e).bind fun s => s.addEntries es

def run (es : List KvEntry) : Option Splitting :=
  (start sizeLimit).bind fun s => s.addEntries d sizeLimit reopens es

end Splitting

/-- The loop of `memtable_flusher::flush_to_disk` on a memtable that is not empty. -/
def flushLoop (d : DiskDeps) (storage : List KvEntry) : Option Splitting :=
  Splitting.run d.table (d.opt.allowedLevelFileSize 0) false storage

/-- The loop of `compactor::merged_list_to_sst`, with its assertions and those of `sstable::make`. -/
def mergedListLoop (d : DiskDeps) (merged : List KvEntry) (newLevel : Nat) : Option Splitting :=
  if merged.isEmpty || !isSorted merged.reverse then none
  else Splitting.run d.table (d.opt.allowedLevelFileSize newLevel) true merged.reverse

/-- A refusal changes nothing. -/
theorem RawSstableBuilder.eq_of_refused {d : TableDeps} {b b' : RawSstableBuilder} {e : KvEntry}
    (refused : b.add d e = some (false, b')) : b' = b := by
  rw [RawSstableBuilder.add] at refused
  split at refused
  · exact (Prod.mk.inj (Option.some.inj refused)).2.symm
  · obtain ⟨block, -, eq⟩ := Option.bind_eq_some_iff.mp refused
    dsimp only at eq
    split at eq
    · obtain ⟨flushed, -, eq⟩ := Option.map_eq_some_iff.mp eq
      cases (Prod.mk.inj eq).1
    · cases (Prod.mk.inj (Option.some.inj eq)).1

namespace TableDeps

/-- The same dependencies, with the builder's codec for the reader as well. -/
def unpacked (d : TableDeps) : TableDeps := { d with opt := { d.opt with compressorName := "zstd" } }

/-- The entries of the table in a file, decompressed by what has compressed them. -/
def entriesOf (d : TableDeps) (file : ByteString) : Option (List KvEntry) :=
  (RawSstable.make d.unpacked file).bind (·.getEntries)

end TableDeps

namespace Sstable.Filed

variable {d : TableDeps} {t : Sstable}

theorem unpacked (filed : t.Filed d) : t.Filed d.unpacked where
  written x mem := ⟨(filed.written x mem).wf, (filed.written x mem).special, (filed.written x mem).encodable,
    (filed.written x mem).small⟩
  fileOf := ⟨filed.fileOf.small, filed.fileOf.size, filed.fileOf.bare, filed.fileOf.positive,
    filed.fileOf.whole⟩
  present := filed.present

/-- The entries of a table come back where its intervals have five segments and its blocks fit. -/
theorem entriesOf_iff (filed : t.Filed d)
    (inverts : d.opt.needCompress = true → (zstdCompressor d.zstd).Inverts (zstdCompressor d.zstd))
    {es : List KvEntry} : d.entriesOf (t.image d) = some es ↔
      5 ≤ d.opt.maxBlockSegmentsNumber ∧ (∀ x ∈ t.blocks, d.BlockFits x) ∧ es = t.entries := by
  by_cases wide : 5 ≤ d.opt.maxBlockSegmentsNumber
  · have made : RawSstable.make d.unpacked (t.image d) = some (t.opened d.unpacked (zstdCompressor d.zstd)) :=
      filed.unpacked.make_image wide rfl
    have read := @getEntries_iff _ _ _ filed.unpacked inverts es
    rw [TableDeps.entriesOf, made, Option.bind_some, read, and_iff_right wide]
    refine and_congr_left fun _ => forall₂_congr fun x _ => ?_
    exact ⟨fun fits => ⟨fits.few, fits.total, fits.stored⟩, fun fits => ⟨fits.few, fits.total, fits.stored⟩⟩
  · have none_made : RawSstable.make d.unpacked (t.image d) = none := filed.unpacked.make_narrow (by
      change d.opt.maxBlockSegmentsNumber < 5
      omega)
    rw [TableDeps.entriesOf, none_made]
    exact iff_of_false (fun eq => by cases eq) fun both => wide both.1

end Sstable.Filed

namespace Splitting

variable {d : TableDeps} {sizeLimit : Nat} {reopens : Bool} {s s' : Splitting} {es : List KvEntry}
  {e : KvEntry} {files : List ByteString}

/-- The builder writes to the file that is held, a file that is not listed yet; each finished table is
listed under its file. -/
structure Follows (s : Splitting) : Prop where
  unfinished : s.builder.wasFinish = false
  writes : s.builder.file = s.held
  listed : s.listed = s.tables.map Prod.fst
  distinct : (s.listed ++ [s.held]).Pairwise (· < ·)
  fresh : s.held < s.names

/-- The finished tables, each listed once. -/
structure Listed (s : Splitting) : Prop where
  listed : s.listed = s.tables.map Prod.fst
  distinct : s.listed.Pairwise (· < ·)

theorem start_follows (started : start sizeLimit = some s) : s.Follows ∧ s.tables = [] := by
  obtain ⟨builder, made, rfl⟩ := Option.map_eq_some_iff.mp started
  obtain ⟨core, -, rfl⟩ := Option.map_eq_some_iff.mp made
  exact ⟨⟨rfl, rfl, rfl, List.pairwise_singleton _ _, Nat.zero_lt_one⟩, rfl⟩

/-- A finished table is in the file that was held, and is opened where the loop does that. -/
theorem Follows.finishCurrentBuilding_iff (follows : s.Follows) :
    s.finishCurrentBuilding d reopens = some s' ↔ ∃ file, s.builder.core.finish d = some file ∧
      (reopens = true → (RawSstable.make d file).isSome = true) ∧
      s' = {
        s with
        builder := { s.builder with wasFinish := true }
        tables := s.tables ++ [(s.held, file)]
        listed := s.listed ++ [s.held] } := by
  have closes : s.finishCurrentBuilding d reopens = (s.builder.core.finish d).bind fun file =>
      if reopens && (RawSstable.make d file).isNone then none
      else some {
        s with
        builder := { s.builder with wasFinish := true }
        tables := s.tables ++ [(s.held, file)]
        listed := s.listed ++ [s.held] } := by
    rw [finishCurrentBuilding, BuilderObject.finish, if_neg (Bool.eq_false_iff.mp follows.unfinished),
      ← follows.writes]
    cases s.builder.core.finish d with
    | none => rfl
    | some file => rfl
  rw [closes, Option.bind_eq_some_iff]
  refine exists_congr fun file => and_congr_right fun _ => ?_
  rw [Option.ite_none_left_eq_some, Option.some.injEq, @eq_comm _ _ s']
  refine and_congr_left fun _ => ?_
  cases reopens with
  | false => simp
  | true => simp [Option.isSome_iff_ne_none]

/-- After the builder has taken an entry. -/
def took (s : Splitting) (core : RawSstableBuilder) : Splitting := { s with builder := { s.builder with core } }

/-- After the held file is finished and the builder of the next one has taken an entry. -/
def opened (s : Splitting) (file : ByteString) (core : RawSstableBuilder) : Splitting where
  builder := { s.builder with core, wasFinish := false, file := s.names }
  held := s.names
  names := s.names + 1
  tables := s.tables ++ [(s.held, file)]
  listed := s.listed ++ [s.held]

theorem Follows.took (follows : s.Follows) (core : RawSstableBuilder) : (s.took core).Follows :=
  ⟨follows.unfinished, follows.writes, follows.listed, follows.distinct, follows.fresh⟩

theorem Follows.opened (follows : s.Follows) (file : ByteString) (core : RawSstableBuilder) :
    (s.opened file core).Follows where
  unfinished := rfl
  writes := rfl
  listed := by
    change s.listed ++ [s.held] = (s.tables ++ [(s.held, file)]).map Prod.fst
    rw [List.map_append, ← follows.listed]
    rfl
  distinct := by
    refine List.pairwise_append.mpr ⟨follows.distinct, List.pairwise_singleton _ _, fun m mem n last => ?_⟩
    rw [List.mem_singleton.mp last]
    cases List.mem_append.mp mem with
    | inl old =>
      have below := (List.pairwise_append.mp follows.distinct).2.2 m old s.held List.mem_cons_self
      exact below.trans follows.fresh
    | inr here =>
      rw [List.mem_singleton.mp here]
      exact follows.fresh
  fresh := Nat.lt_succ_self _

/-- One pass: the open table takes the entry, or it is finished and the next one takes it. -/
theorem Follows.addEntry_iff (follows : s.Follows) : s.addEntry d sizeLimit reopens e = some s' ↔
    (∃ core, s.builder.core.add d e = some (true, core) ∧ s' = s.took core) ∨
      ∃ full file fresh core, s.builder.core.add d e = some (false, full) ∧ full.finish d = some file ∧
        (reopens = true → (RawSstable.make d file).isSome = true) ∧
        RawSstableBuilder.make sizeLimit = some fresh ∧ fresh.add d e = some (true, core) ∧
        s' = s.opened file core := by
  have adds : ∀ b : BuilderObject, b.wasFinish = false →
      b.add d e = (b.core.add d e).map fun added => (added.1, { b with core := added.2 }) :=
    fun b unfinished => if_neg (Bool.eq_false_iff.mp unfinished)
  rw [addEntry, adds _ follows.unfinished]
  constructor
  · intro ran
    obtain ⟨added, eq, ran⟩ := Option.bind_eq_some_iff.mp ran
    obtain ⟨⟨taken, core⟩, first, rfl⟩ := Option.map_eq_some_iff.mp eq
    cases taken with
    | true => exact .inl ⟨core, first, (Option.some.inj ran).symm⟩
    | false =>
      obtain ⟨closed, finished, ran⟩ := Option.bind_eq_some_iff.mp ran
      obtain ⟨file, done, reads, rfl⟩ := (follows.took core).finishCurrentBuilding_iff.mp finished
      obtain ⟨next, opens, ran⟩ := Option.bind_eq_some_iff.mp ran
      obtain ⟨builder, constructs, rfl⟩ := Option.map_eq_some_iff.mp opens
      obtain ⟨fresh, made, rfl⟩ := Option.map_eq_some_iff.mp constructs
      obtain ⟨added, retries, ran⟩ := Option.bind_eq_some_iff.mp ran
      rw [adds _ rfl] at retries
      obtain ⟨⟨taken, last⟩, second, rfl⟩ := Option.map_eq_some_iff.mp retries
      obtain ⟨yes, same⟩ := Option.ite_none_right_eq_some.mp ran
      have yes : taken = true := yes
      subst yes
      exact .inr ⟨core, file, fresh, last, first, done, reads, made, second, (Option.some.inj same).symm⟩
  · rintro (⟨core, first, rfl⟩ | ⟨core, file, fresh, last, first, done, reads, made, second, rfl⟩)
    · rw [first]
      rfl
    · rw [first, Option.map_some, Option.bind_some, if_neg Bool.false_ne_true]
      have finished := (follows.took core).finishCurrentBuilding_iff.mpr ⟨file, done, reads, rfl⟩
      change ((s.took core).finishCurrentBuilding d reopens).bind _ = _
      rw [finished, Option.bind_some, openNext, BuilderObject.make, made, Option.map_some, Option.map_some,
        Option.bind_some, adds _ rfl]
      change ((fresh.add d e).map _).bind _ = _
      rw [second]
      rfl

/-- The objects of the loop do what the loop without them does. -/
theorem Follows.of_addEntries (follows : s.Follows) (ran : s.addEntries d sizeLimit reopens es = some s') :
    ∃ files, s.builder.core.buildFiles d sizeLimit es = some files ∧
      (reopens = true → ∀ file ∈ files, (RawSstable.make d file).isSome = true) ∧
      s'.tables.map Prod.snd = s.tables.map Prod.snd ++ files ∧ s'.Listed := by
  induction es generalizing s with
  | nil =>
    obtain ⟨file, done, reads, rfl⟩ := follows.finishCurrentBuilding_iff.mp ran
    refine ⟨[file], by rw [RawSstableBuilder.buildFiles, done]; rfl,
      fun yes => List.forall_mem_singleton.mpr (reads yes), List.map_append, ?_, follows.distinct⟩
    rw [List.map_append, ← follows.listed]
    rfl
  | cons e es ih =>
    obtain ⟨next, step, later⟩ := Option.bind_eq_some_iff.mp ran
    rcases follows.addEntry_iff.mp step with
      ⟨core, added, rfl⟩ | ⟨full, file, fresh, core, refused, done, reads, made, added, rfl⟩
    · obtain ⟨files, built, rest⟩ := ih (follows.took core) later
      exact ⟨files, by rw [RawSstableBuilder.buildFiles, added]; exact built, rest⟩
    · obtain ⟨files, built, opens, tables, listed⟩ := ih (follows.opened file core) later
      have built : core.buildFiles d sizeLimit es = some files := built
      refine ⟨file :: files, ?_, fun yes => List.forall_mem_cons.mpr ⟨reads yes, opens yes⟩, ?_, listed⟩
      · obtain rfl := RawSstableBuilder.eq_of_refused refused
        rw [RawSstableBuilder.buildFiles, refused, Option.bind_some, if_neg Bool.false_ne_true, done,
          Option.bind_some, made, Option.bind_some, added, Option.bind_some, if_pos rfl, built]
        rfl
      · rw [tables]
        change (s.tables ++ [(s.held, file)]).map Prod.snd ++ files = _
        rw [List.map_append, List.append_assoc]
        rfl

theorem Follows.exists_addEntries (follows : s.Follows)
    (built : s.builder.core.buildFiles d sizeLimit es = some files)
    (opens : reopens = true → ∀ file ∈ files, (RawSstable.make d file).isSome = true) :
    ∃ s', s.addEntries d sizeLimit reopens es = some s' := by
  induction es generalizing s files with
  | nil =>
    obtain ⟨file, done, rfl⟩ := Option.map_eq_some_iff.mp built
    exact ⟨_, follows.finishCurrentBuilding_iff.mpr
      ⟨file, done, fun yes => opens yes file List.mem_cons_self, rfl⟩⟩
  | cons e es ih =>
    obtain ⟨⟨taken, core⟩, added, rest⟩ := Option.bind_eq_some_iff.mp built
    cases taken with
    | true =>
      obtain ⟨s', later⟩ := ih (follows.took core) rest opens
      exact ⟨s', by rw [addEntries, follows.addEntry_iff.mpr (.inl ⟨core, added, rfl⟩), Option.bind_some, later]⟩
    | false =>
      obtain ⟨file, done, rest⟩ := Option.bind_eq_some_iff.mp rest
      obtain ⟨fresh, made, rest⟩ := Option.bind_eq_some_iff.mp rest
      obtain ⟨⟨taken, last⟩, again, rest⟩ := Option.bind_eq_some_iff.mp rest
      obtain rfl := RawSstableBuilder.eq_of_refused added
      cases taken with
      | false => cases rest
      | true =>
        obtain ⟨files', built', rfl⟩ := Option.map_eq_some_iff.mp rest
        obtain ⟨s', later⟩ := ih (follows.opened file last) built'
          fun yes => (List.forall_mem_cons.mp (opens yes)).2
        have step := follows.addEntry_iff.mpr (.inr ⟨_, file, fresh, last, added, done,
          fun yes => opens yes file List.mem_cons_self, made, again, rfl⟩)
        exact ⟨s', by rw [addEntries, step, Option.bind_some, later]⟩

theorem of_run (ran : run d sizeLimit reopens es = some s) :
    ∃ files, RawSstableBuilder.buildFilesFrom d sizeLimit es = some files ∧
      (reopens = true → ∀ file ∈ files, (RawSstable.make d file).isSome = true) ∧
      s.tables.map Prod.snd = files ∧ s.Listed := by
  obtain ⟨s0, started, ran⟩ := Option.bind_eq_some_iff.mp ran
  obtain ⟨follows, empty⟩ := start_follows started
  obtain ⟨files, built, opens, tables, listed⟩ := follows.of_addEntries ran
  obtain ⟨builder, made, rfl⟩ := Option.map_eq_some_iff.mp started
  obtain ⟨core, makes, rfl⟩ := Option.map_eq_some_iff.mp made
  refine ⟨files, by rw [RawSstableBuilder.buildFilesFrom, makes]; exact built, opens, ?_, listed⟩
  rw [tables, empty, List.map_nil, List.nil_append]

theorem exists_run (built : RawSstableBuilder.buildFilesFrom d sizeLimit es = some files)
    (opens : reopens = true → ∀ file ∈ files, (RawSstable.make d file).isSome = true) :
    ∃ s, run d sizeLimit reopens es = some s := by
  obtain ⟨core, made, built⟩ := Option.bind_eq_some_iff.mp built
  have started : start sizeLimit = some ⟨⟨core, false, 0, none⟩, 0, 1, [], []⟩ := by
    rw [start, BuilderObject.make, made]
    rfl
  obtain ⟨s, ran⟩ := (start_follows started).1.exists_addEntries built opens
  exact ⟨s, by rw [run, started]; exact ran⟩

/-- The tables hold the entries, each at least one of them, and each table is listed once. -/
structure Exact (d : TableDeps) (s : Splitting) (es : List KvEntry) : Prop where
  entries : ∃ ess, (s.tables.map Prod.snd).mapM d.entriesOf = some ess ∧ ess.flatten = es ∧ [] ∉ ess
  listed : s.Listed

end Splitting

/-- What the splitting loops rely on: what they write can be read back, and has room in table files. -/
structure TableDeps.Keeps (d : TableDeps) (sizeLimit : Nat) (es : List KvEntry) : Prop where
  segments : 5 ≤ d.opt.maxBlockSegmentsNumber
  encodable : ∀ e ∈ es, e.Encodable
  values : ∀ e ∈ es, e.value ≠ some []
  blocks : d.BlocksFit es
  room : d.Room sizeLimit es

namespace Splitting

variable {d : TableDeps} {sizeLimit : Nat} {reopens : Bool} {es : List KvEntry}

/-- What a table gives back is within the bounds of the format. -/
theorem bounds_of_entriesOf {file : ByteString} (read : d.entriesOf file = some es) :
    ∀ e ∈ es, e.Encodable ∧ e.value ≠ some [] := by
  obtain ⟨t, -, read⟩ := Option.bind_eq_some_iff.mp read
  obtain ⟨ess, all, rfl⟩ := Option.map_eq_some_iff.mp read
  intro e mem
  obtain ⟨es, inside, mem⟩ := List.mem_flatten.mp mem
  obtain ⟨p, -, entries⟩ := PartialMap.mem_of_mapM all inside
  obtain ⟨b, -, entries⟩ := Option.bind_eq_some_iff.mp entries
  obtain ⟨size, value⟩ := RawBlock.bounds_of_entries entries e mem
  exact ⟨⟨size, RawBlock.numbers_of_entries entries e mem⟩, value⟩

/-- A splitting loop loses and repeats nothing if and only if what it writes can be read back. -/
theorem run_exact_iff (leaves : d.filter.Leaves) (some_entry : es ≠ [])
    (sorted : es.Pairwise (·.key ≤ ·.key)) (positive : 0 < sizeLimit)
    (inverts : d.opt.needCompress = true → (zstdCompressor d.zstd).Inverts (zstdCompressor d.zstd)) :
    (∃ s, run d sizeLimit reopens es = some s ∧ s.Exact d es) ↔ d.Keeps sizeLimit es ∧
      (reopens = true → (getCompressor d.zstd d.opt d.opt.compressorName).isSome = true) := by
  obtain ⟨ts, built, all, filled⟩ := buildTablesFrom_entries d.opt.toOptions d.filter positive some_entry sorted
  have cut := dataBlocks_of_buildTablesFrom built
  constructor
  · rintro ⟨s, ran, ⟨ess, read, rfl, some_each⟩, -⟩
    obtain ⟨files, filed, opens, rfl, -⟩ := of_run ran
    have bounds : ∀ e ∈ ess.flatten, e.Encodable ∧ e.value ≠ some [] := by
      intro e mem
      obtain ⟨es, inside, mem⟩ := List.mem_flatten.mp mem
      obtain ⟨file, -, entries⟩ := PartialMap.mem_of_mapM read inside
      exact bounds_of_entriesOf entries e mem
    have encodable := fun e mem => (bounds e mem).1
    obtain ⟨image, done⟩ := RawSstableBuilder.buildFilesFrom_image leaves encodable built filed
    have fits : ∀ t ∈ ts, 5 ≤ d.opt.maxBlockSegmentsNumber ∧ ∀ x ∈ t.blocks, d.BlockFits x := by
      intro t mem
      obtain ⟨es, entries⟩ := PartialMap.exists_of_mapM read (image ▸ List.mem_map_of_mem mem)
      obtain ⟨wide, fit, -⟩ := ((done t mem).entriesOf_iff inverts).mp entries
      exact ⟨wide, fit⟩
    obtain ⟨t, mem⟩ := List.exists_mem_of_ne_nil ts (List.map_eq_nil_iff.not.mp
      (image ▸ RawSstableBuilder.ne_nil_of_buildFilesFrom filed))
    refine ⟨⟨(fits t mem).1, encodable, fun e mem => (bounds e mem).2, ⟨_, cut, ?_⟩, ?_⟩, fun yes => ?_⟩
    · intro x inside
      obtain ⟨t, mem, inside⟩ := List.mem_flatMap.mp inside
      exact (fits t mem).2 x inside
    · exact ((RawSstableBuilder.buildFilesFrom_isSome_iff leaves some_entry sorted encodable).mp
        (Option.isSome_of_eq_some filed)).2
    · have opened := opens yes _ (image ▸ List.mem_map_of_mem mem)
      obtain ⟨table, made⟩ := Option.isSome_iff_exists.mp opened
      obtain ⟨-, -, -, -, -, -, named⟩ := RawSstable.shape_of_make made
      exact Option.isSome_of_eq_some named
  · rintro ⟨keeps, named⟩
    have wide := keeps.segments
    have some_files := (RawSstableBuilder.buildFilesFrom_isSome_iff leaves some_entry sorted keeps.encodable).mpr
      ⟨by omega, keeps.room⟩
    obtain ⟨files, filed⟩ := Option.isSome_iff_exists.mp some_files
    obtain ⟨rfl, done⟩ := RawSstableBuilder.buildFilesFrom_image leaves keeps.encodable built filed
    obtain ⟨s, ran⟩ : ∃ s, run d sizeLimit reopens es = some s := by
      refine exists_run filed fun yes => List.forall_mem_map.mpr fun t mem => ?_
      obtain ⟨compressor, named⟩ := Option.isSome_iff_exists.mp (named yes)
      exact Option.isSome_of_eq_some ((done t mem).make_image wide named)
    obtain ⟨files', filed', -, tables, listed⟩ := of_run ran
    obtain rfl := Option.some.inj (filed.symm.trans filed')
    obtain ⟨blocks, cut', fits⟩ := keeps.blocks
    obtain rfl := Option.some.inj (cut.symm.trans cut')
    have read : ((ts.map (·.image d)).mapM d.entriesOf) = some (ts.map Sstable.entries) := by
      refine PartialMap.mapM_map_eq_some fun t mem => ((done t mem).entriesOf_iff inverts).mpr ⟨wide, ?_, rfl⟩
      exact fun x inside => fits x (List.mem_flatMap.mpr ⟨t, mem, inside⟩)
    refine ⟨s, ran, ⟨_, tables ▸ read, ?_, ?_⟩, listed⟩
    · rw [← List.flatMap_def, all]
      exact KvEntry.map_stored_iff.mpr keeps.values
    · intro empty
      obtain ⟨t, mem, none_there⟩ := List.mem_map.mp empty
      exact filled t mem none_there

end Splitting

/-- Each loop creates tables that hold exactly its input if and only if what it writes can be read
back; the compaction needs the configured codec besides, to open them. -/
theorem splitting_loops_exact_iff {d : DiskDeps} {es : List KvEntry} {newLevel : Nat} (some_entry : es ≠ [])
    (sorted : es.Pairwise (·.key ≤ ·.key)) (flushLimit : 0 < d.opt.allowedLevelFileSize 0)
    (mergeLimit : 0 < d.opt.allowedLevelFileSize newLevel)
    (inverts : d.table.opt.needCompress = true →
      (zstdCompressor d.table.zstd).Inverts (zstdCompressor d.table.zstd)) :
    ((∃ s, flushLoop d es = some s ∧ s.Exact d.table es) ↔
      d.table.Keeps (d.opt.allowedLevelFileSize 0) es) ∧
    ((∃ s, mergedListLoop d es.reverse newLevel = some s ∧ s.Exact d.table es) ↔
      d.table.Keeps (d.opt.allowedLevelFileSize newLevel) es ∧
        (getCompressor d.table.zstd d.table.opt d.table.opt.compressorName).isSome = true) := by
  have leaves : d.table.filter.Leaves := d.filter ▸ FilterPolicy.leaves_makeBloomFilter d.hash 64
  constructor
  · have flushed := @Splitting.run_exact_iff d.table _ false es leaves some_entry sorted flushLimit inverts
    rw [flushLoop, flushed, and_iff_left]
    exact fun no => absurd no Bool.false_ne_true
  · have merged := @Splitting.run_exact_iff d.table _ true es leaves some_entry sorted mergeLimit inverts
    have checked : ¬ (es.reverse.isEmpty || !isSorted es.reverse.reverse) = true := by
      rw [List.reverse_reverse, isSorted_iff.mpr sorted]
      simpa using some_entry
    rw [mergedListLoop, if_neg checked, List.reverse_reverse, merged]
    exact and_congr_right fun _ => ⟨fun named => named rfl, fun named _ => named⟩

theorem splitting_loops_exact_three :
    (∃ s, flushLoop .small RawBlock.threeEntries = some s ∧
      s.Exact DiskDeps.small.table RawBlock.threeEntries) ∧
    ∃ s, mergedListLoop .small RawBlock.threeEntries.reverse 1 = some s ∧
      s.Exact DiskDeps.small.table RawBlock.threeEntries := by
  have loops := @splitting_loops_exact_iff .small RawBlock.threeEntries 1 (by decide) (by decide) (by decide)
    (by decide) fun _ => tagging_inverts
  have limits : DiskDeps.small.opt.allowedLevelFileSize 0 = DiskDeps.small.opt.allowedLevelFileSize 1 := rfl
  have keeps : DiskDeps.small.table.Keeps (DiskDeps.small.opt.allowedLevelFileSize 0) RawBlock.threeEntries :=
    ⟨by decide, by decide, by decide, by decide +kernel, by decide +kernel⟩
  exact ⟨loops.1.mpr keeps, loops.2.mpr ⟨limits ▸ keeps, rfl⟩⟩

/-- An empty value comes back as a tombstone. -/
theorem flushLoop_empty_value : ∃ s, flushLoop .small [⟨⟨1, ⟨[1]⟩⟩, some []⟩] = some s ∧
    (s.tables.map Prod.snd).mapM DiskDeps.small.table.entriesOf = some [[⟨⟨1, ⟨[1]⟩⟩, none⟩]] ∧
      ¬ s.Exact DiskDeps.small.table [⟨⟨1, ⟨[1]⟩⟩, some []⟩] := by
  have runs : ((flushLoop .small [⟨⟨1, ⟨[1]⟩⟩, some []⟩]).any fun s =>
      (s.tables.map Prod.snd).mapM DiskDeps.small.table.entriesOf = some [[⟨⟨1, ⟨[1]⟩⟩, none⟩]]) = true := by
    decide +kernel
  obtain ⟨s, ran, read⟩ := (Option.any_eq_true _ _).mp runs
  have read := of_decide_eq_true read
  refine ⟨s, ran, read, ?_⟩
  rintro ⟨⟨ess, read', same, -⟩, -⟩
  obtain rfl := Option.some.inj (read.symm.trans read')
  exact absurd same (by decide)

end FrenzyKV
