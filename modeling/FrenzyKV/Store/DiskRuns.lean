import FrenzyKV.Db.DiskOrder
import FrenzyKV.Framework.Simulation
import FrenzyKV.Store.SequentialRuns

namespace FrenzyKV.DiskRuns

open Framework SequentialRuns

/-- The store on tables, with no check of what is flushed. -/
def tables (deps : KvdbDeps) : Machine (Store File) Action where
  init s := s = Store.empty
  step s
    | .flush m => flushToDisk deps s m
    | .mayCompact from_ r => mayCompact deps s from_ r

/-- The store on disk. -/
def machine (d : DiskDeps) : Machine DiskStore Action where
  init t := t = Store.empty
  step t
    | .flush m => t.flushToDisk d m
    | .mayCompact from_ r => t.mayCompact d from_ r

/-- The entries of a flush have encodings. -/
def Writable : Action → Prop
  | .flush m => ∀ e ∈ m.storage, e.Encodable
  | .mayCompact _ _ => True

instance : (a : Action) → Decidable (Writable a)
  | .flush m => inferInstanceAs (Decidable (∀ e ∈ m.storage, e.Encodable))
  | .mayCompact _ _ => isTrue trivial

/-- Flushed entries are numbered above the stored ones. -/
def Ascending (d : DiskDeps) (t : DiskStore) : Action → Prop
  | .flush m => Fresh (.onDisk d.table) t.current m
  | .mayCompact _ _ => True

/-- What is written can be read back. -/
def Fits (d : DiskDeps) (t : DiskStore) : Action → Prop
  | .flush m => DiskStore.FlushFits d m
  | .mayCompact from_ r => DiskStore.MergeFits d t.current from_ r

/-- Compactions pull in safe files. -/
def PullsSafe (d : DiskDeps) (t : DiskStore) : Action → Prop
  | .flush _ => True
  | .mayCompact from_ r => DiskStore.SafeCompaction d t.current from_ r

def InOrder (d : DiskDeps) (t : DiskStore) (a : Action) : Prop :=
  Ascending d t a ∧ Fits d t a ∧ PullsSafe d t a

instance (d : DiskDeps) (t : DiskStore) : (a : Action) → Decidable (Ascending d t a)
  | .flush m => inferInstanceAs (Decidable (Fresh (.onDisk d.table) t.current m))
  | .mayCompact _ _ => isTrue trivial

instance (d : DiskDeps) (t : DiskStore) : (a : Action) → Decidable (Fits d t a)
  | .flush m => inferInstanceAs (Decidable (DiskStore.FlushFits d m))
  | .mayCompact from_ r => inferInstanceAs (Decidable (DiskStore.MergeFits d t.current from_ r))

instance (d : DiskDeps) (t : DiskStore) : (a : Action) → Decidable (PullsSafe d t a)
  | .flush _ => isTrue trivial
  | .mayCompact from_ r => inferInstanceAs (Decidable (DiskStore.SafeCompaction d t.current from_ r))

instance (d : DiskDeps) (t : DiskStore) (a : Action) : Decidable (InOrder d t a) :=
  inferInstanceAs (Decidable (Ascending d t a ∧ Fits d t a ∧ PullsSafe d t a))

/-- The entries of all flushed memtables. -/
def flushed (as : List Action) : List KvEntry :=
  as.flatMap fun
    | .flush m => m.storage.map KvEntry.stored
    | .mayCompact _ _ => []

/-- The flushed entry of a user key with the largest number. -/
def newestFlushed (as : List Action) (uk : UserKey) : Option KvEntry :=
  ((flushed as).filter (·.userKey = uk)).argmax KvEntry.seq

/-- The files hold the tables, and every table is readable. -/
def OnDisk (d : DiskDeps) (s : Store File) (t : DiskStore) : Prop :=
  t = s.onDisk d.table ∧ s.current.Stored d.table

variable {d : DiskDeps} {compressor : CompressorPolicy}

theorem simulates (readable : d.Readable compressor) :
    Simulates (tables d.toKvdbDeps) (machine d) (fun _ a => Writable a) (OnDisk d) where
  start := by
    rintro t rfl
    exact ⟨Store.empty, rfl, rfl, fun f mem => absurd mem List.not_mem_nil⟩
  step := by
    rintro s t a t' ⟨rfl, stored⟩ writable taken
    cases a with
    | flush m =>
      obtain ⟨s', eq, rfl, kept⟩ := DiskStore.flushToDisk_onDisk readable.buffered stored writable taken
      exact ⟨s', eq, rfl, kept.1⟩
    | mayCompact from_ r =>
      obtain ⟨s', eq, rfl, kept⟩ := DiskStore.mayCompact_onDisk readable stored taken
      exact ⟨s', eq, rfl, kept.1⟩

theorem exists_onDisk (readable : d.Readable compressor) {as : List Action} {t : DiskStore}
    (writable : ∀ a ∈ as, Writable a) (ran : (machine d).run Store.empty as = some t) :
    ∃ s, (tables d.toKvdbDeps).run Store.empty as = some s ∧ OnDisk d s t := by
  have allowed : ∀ as (t : DiskStore), (∀ a ∈ as, Writable a) →
      (machine d).StepsMeet (fun _ a => Writable a) t as := by
    intro as
    induction as with
    | nil => exact fun _ _ => trivial
    | cons a as ih =>
      intro t all t' _
      obtain ⟨here, later⟩ := List.forall_mem_cons.mp all
      exact ⟨here, ih t' later⟩
  obtain ⟨_, rfl, related⟩ := (simulates readable).start Store.empty rfl
  exact (simulates readable).run related (allowed as _ writable) ran

/-- A run on disk is the run on tables: the files are those of the tables, every file opens, and
what opens is the table. -/
theorem run_onDisk (readable : d.Readable compressor) {as : List Action} {t : DiskStore}
    (writable : ∀ a ∈ as, Writable a) (ran : (machine d).run Store.empty as = some t) :
    ∃ s, (tables d.toKvdbDeps).run Store.empty as = some s ∧ t = s.onDisk d.table ∧
      ∀ f ∈ s.current, f.table.Wf d.filterPolicy ∧ RawSstable.make d.table (f.onDisk d.table).bytes =
        some (f.table.opened d.table compressor) := by
  obtain ⟨s, ran', rfl, stored⟩ := exists_onDisk readable writable ran
  exact ⟨s, ran', rfl, fun f mem => ⟨d.filter ▸ (stored f mem).wf, (stored f mem).make_image readable.toReadable⟩⟩

/-- Key 4 is written twice, and its versions move to level 1 with the keys 2 and 9. -/
def twice : List Action :=
  [flushKeys 1 [4, 9], flushKeys 3 [2, 4], flushKeys 5 [3], .mayCompact 0 1]

theorem exists_run_twice : ∃ t, (machine .small).run Store.empty twice = some t :=
  Option.isSome_iff_exists.mp (show _ = true by decide +kernel)

theorem run_onDisk_twice :
    ∃ t s, (machine .small).run Store.empty twice = some t ∧
      (tables DiskDeps.small.toKvdbDeps).run Store.empty twice = some s ∧ t = s.onDisk DiskDeps.small.table ∧
      ∀ f ∈ s.current, f.table.Wf DiskDeps.small.filterPolicy ∧
        RawSstable.make DiskDeps.small.table (f.onDisk DiskDeps.small.table).bytes =
          some (f.table.opened DiskDeps.small.table (zstdCompressor .tagging)) := by
  obtain ⟨t, ran⟩ := exists_run_twice
  obtain ⟨s, ran', onDisk, opens⟩ := run_onDisk DiskDeps.small_readable (by decide +kernel) ran
  exact ⟨t, s, ran, ran', onDisk, opens⟩

/-- The store is in order and holds, of what was flushed, the newest entries. -/
structure Holds (d : DiskDeps) (as : List Action) (t : DiskStore) : Prop where
  good : t.Good d
  sub : DiskStore.contents d.table t.current ⊆ {e | e ∈ flushed as}
  cover : Covers (DiskStore.contents d.table t.current) {e | e ∈ flushed as}
  unique : ∀ x ∈ flushed as, ∀ y ∈ flushed as, x.key = y.key → x = y

namespace Holds

variable {front as : List Action} {t t' : DiskStore}

theorem empty (d : DiskDeps) : Holds d [] Store.empty where
  good := DiskStore.good_empty d
  sub := fun _ ⟨_, mem, _⟩ => absurd mem List.not_mem_nil
  cover := fun _ mem => absurd mem List.not_mem_nil
  unique := fun _ mem => absurd mem List.not_mem_nil

/-- The entries of a memtable have keys of their own. -/
theorem eq_of_storage {m : Memtable} {x y : KvEntry} (hx : x ∈ m.storage) (hy : y ∈ m.storage)
    (same : x.key = y.key) : x = y := by
  by_contra ne
  have symm : Std.Symm fun a b : KvEntry => a.key ≠ b.key := ⟨fun _ _ h => h.symm⟩
  have distinct := m.storage_ascending.imp fun lt => lt.ne
  exact List.Pairwise.forall distinct hx hy ne same

/-- Keys and numbers stay unique when the numbers of a memtable are above the earlier ones. -/
theorem unique_append {m : Memtable} {old : List KvEntry}
    (unique : ∀ x ∈ old, ∀ y ∈ old, x.key = y.key → x = y)
    (above : ∀ x ∈ old, ∀ e ∈ m.storage, x.userKey = e.stored.userKey → x.seq < e.stored.seq) :
    ∀ x ∈ old ++ m.storage.map KvEntry.stored, ∀ y ∈ old ++ m.storage.map KvEntry.stored,
      x.key = y.key → x = y := by
  have apart : ∀ x ∈ old, ∀ e ∈ m.storage, x.key ≠ e.stored.key := fun x hx e he same =>
    (above x hx e he (congrArg SequencedKey.userKey same)).ne (congrArg SequencedKey.seq same)
  intro x hx y hy same
  rcases List.mem_append.mp hx with oldX | newX
  · rcases List.mem_append.mp hy with oldY | newY
    · exact unique x oldX y oldY same
    · obtain ⟨e, he, rfl⟩ := List.mem_map.mp newY
      exact absurd same (apart x oldX e he)
  · obtain ⟨a, ha, rfl⟩ := List.mem_map.mp newX
    rcases List.mem_append.mp hy with oldY | newY
    · exact absurd same.symm (apart y oldY a ha)
    · obtain ⟨b, hb, rfl⟩ := List.mem_map.mp newY
      exact congrArg KvEntry.stored (eq_of_storage ha hb same)

theorem flush {m : Memtable} (holds : Holds d front t) (readable : d.Readable compressor)
    (fresh : Fresh (.onDisk d.table) t.current m) (fits : DiskStore.FlushFits d m)
    (done : t.flushToDisk d m = some t') : Holds d (front ++ [.flush m]) t' := by
  have all : flushed (front ++ [.flush m]) = flushed front ++ m.storage.map KvEntry.stored := by
    rw [flushed, List.flatMap_append, List.flatMap_singleton]
    rfl
  have newer : Newer m.contents (DiskStore.contents d.table t.current) := by
    rintro e he x ⟨f, hf, hx⟩ _
    exact fresh e he f hf x hx
  obtain ⟨good, contents⟩ := holds.good.flush readable fits newer done
  -- the numbers of the memtable are above those of all flushed entries of the same key
  have above : ∀ x ∈ flushed front, ∀ e ∈ m.storage, x.userKey = e.stored.userKey →
      x.seq < e.stored.seq := by
    intro x old e he same
    obtain ⟨a, ⟨f, hf, inFile⟩, -, le⟩ := holds.cover x old
    exact le.trans_lt (fresh e he f hf a inFile)
  refine ⟨good, fun e mem => ?_, fun b mem => ?_, ?_⟩
  · rw [Set.mem_ofPred_eq, all, List.mem_append]
    exact ((contents e).mp mem).imp (@holds.sub e) id
  · rw [Set.mem_ofPred_eq, all, List.mem_append] at mem
    cases mem with
    | inl old =>
      obtain ⟨a, ha, key, le⟩ := holds.cover b old
      exact ⟨a, (contents a).mpr (.inl ha), key, le⟩
    | inr new => exact ⟨b, (contents b).mpr (.inr new), rfl, le_rfl⟩
  · rw [all]
    exact unique_append holds.unique above

theorem mayCompact {from_ : Nat} {r : ThreshRatio} (holds : Holds d front t)
    (readable : d.Readable compressor) (safe : DiskStore.SafeCompaction d t.current from_ r)
    (done : t.mayCompact d from_ r = some t') : Holds d (front ++ [.mayCompact from_ r]) t' := by
  have all : flushed (front ++ [.mayCompact from_ r]) = flushed front := by
    rw [flushed, List.flatMap_append, List.flatMap_singleton]
    exact List.append_nil _
  obtain ⟨good, sub, cover⟩ := holds.good.mayCompact readable safe done
  refine ⟨good, ?_, ?_, all ▸ holds.unique⟩
  · rw [all]
    exact sub.trans holds.sub
  · rw [all]
    exact cover.trans holds.cover

theorem step {a : Action} (holds : Holds d front t) (readable : d.Readable compressor)
    (inOrder : InOrder d t a) (taken : (machine d).step t a = some t') : Holds d (front ++ [a]) t' := by
  obtain ⟨ascending, fits, safe⟩ := inOrder
  cases a with
  | flush m => exact holds.flush readable ascending fits taken
  | mayCompact from_ r => exact holds.mayCompact readable safe taken

theorem run (holds : Holds d front t) (readable : d.Readable compressor)
    (inOrder : (machine d).StepsMeet (InOrder d) t as) (ran : (machine d).run t as = some t') :
    Holds d (front ++ as) t' := by
  induction as generalizing front t with
  | nil =>
    obtain rfl := Option.some.inj ran
    rwa [List.append_nil]
  | cons a as ih =>
    obtain ⟨mid, taken, rest⟩ := Option.bind_eq_some_iff.mp ran
    obtain ⟨met, later⟩ := inOrder mid taken
    rw [← List.singleton_append, ← List.append_assoc]
    exact ih (holds.step readable met taken) later rest

/-- The newest of all entries in the files is the newest of all that were flushed. -/
theorem newestOfAllFiles_eq (holds : Holds d as t) (uk : UserKey) :
    newestOfAllFiles (.onDisk d.table) t.current uk = newestFlushed as uk := by
  have unique : ∀ x ∈ flushed as, ∀ y ∈ flushed as, x.userKey = y.userKey → x.seq = y.seq → x = y :=
    fun x hx y hy sameUser sameSeq => holds.unique x hx y hy (KvEntry.key_eq sameUser sameSeq)
  have inFiles : ∀ x, x ∈ t.current.flatMap (DiskFile.entries d.table) ↔
      x ∈ DiskStore.contents d.table t.current := fun _ => List.mem_flatMap
  have contents : {x | x ∈ t.current.flatMap (DiskFile.entries d.table)} =
      DiskStore.contents d.table t.current := Set.ext inFiles
  ext e
  rw [newestOfAllFiles, newestFlushed, Versioned.argmax_filter_eq_some_iff, contents,
    Versioned.argmax_filter_eq_some_iff unique]
  · exact Versioned.isNewest_iff_of_covers holds.sub holds.cover unique
  · intro x hx y hy
    exact unique x (holds.sub ((inFiles x).mp hx)) y (holds.sub ((inFiles y).mp hy))

end Holds

theorem good_of_reach {t : DiskStore} (readable : d.Readable compressor)
    (reached : Reach (machine d) (InOrder d) t) : t.Good d := by
  obtain ⟨as, holds⟩ : ∃ as, Holds d as t := by
    induction reached with
    | init initial =>
      obtain rfl := initial
      exact ⟨[], Holds.empty d⟩
    | step _ inOrder taken ih =>
      obtain ⟨as, holds⟩ := ih
      exact ⟨as ++ [_], holds.step readable inOrder taken⟩
  exact holds.good

/-- While every compaction pulls in safe files, every file can be read, the level search finds what a
search of all files finds, and no deeper level holds a newer version of a key. -/
theorem findFromSsts_eq_newestOfAllFiles {t : DiskStore} (readable : d.Readable compressor)
    (reached : Reach (machine d) (InOrder d) t) :
    (∀ f ∈ t.current,
      ((RawSstable.make d.table f.bytes).bind (·.getEntriesAtOnce false)).isSome = true) ∧
    (∀ k : SequencedKey, k.userKey.size < 2 ^ 16 →
      (∀ f ∈ t.current, ∀ x ∈ f.entries d.table, x.seq ≤ k.seq) →
        DiskStore.findFromSsts d t.current k =
          some (newestOfAllFiles (.onDisk d.table) t.current k.userKey)) ∧
    LevelOrdered (.onDisk d.table) t.current := by
  have good := good_of_reach readable reached
  refine ⟨good.legible.isSome readable.toReadable, fun k size top => ?_, good.levelOrdered readable⟩
  exact good.findFromSsts_eq readable size fun x ⟨f, hf, hx⟩ _ => top f hf x hx

theorem findFromSsts_movingDown :
    ∃ t, (machine .small).run Store.empty movingDown = some t ∧
      ∀ k : SequencedKey, k.userKey.size < 2 ^ 16 →
        (∀ f ∈ t.current, ∀ x ∈ f.entries DiskDeps.small.table, x.seq ≤ k.seq) →
          DiskStore.findFromSsts .small t.current k =
            some (newestOfAllFiles (.onDisk DiskDeps.small.table) t.current k.userKey) := by
  obtain ⟨t, ran⟩ := Option.isSome_iff_exists.mp (show (((machine .small).restrict
    (InOrder .small)).run Store.empty movingDown).isSome = true by decide +kernel)
  have reached : Reach (machine .small) (InOrder .small) t := Machine.reach_of_restrict
    (Machine.reach_of_run _ (fun _ _ => trivial) (.init rfl) ran)
  exact ⟨t, Machine.run_of_restrict ran, (findFromSsts_eq_newestOfAllFiles DiskDeps.small_readable reached).2.1⟩

/-- Level 3 holds key 4 with number 1 and, in a younger file, with number 6. The next merge
of level 2 takes in only the file with number 1, which overlaps its oldest file, and writes
the youngest file of level 3. So number 6 moves on to level 4 and number 1 stays above it. -/
def strayVersion : List Action :=
  movingDown ++ [flushKeys 11 [5, 6, 7], .mayCompact 0 1, .mayCompact 1 1, .mayCompact 2 1,
    .mayCompact 3 (.ofRat (7 / 10))]

theorem findFromSsts_strayVersion :
    ∃ t, Reach (machine .small) (fun t a => Ascending .small t a ∧ Fits .small t a) t ∧
      (∀ f ∈ t.current, ∀ x ∈ f.entries DiskDeps.small.table, x.seq ≤ 13) ∧
      DiskStore.findFromSsts .small t.current ⟨13, ⟨[4]⟩⟩ = some (some (KvEntry.brief 4 1 0)) ∧
      newestOfAllFiles (.onDisk DiskDeps.small.table) t.current ⟨[4]⟩ = some (KvEntry.brief 4 6 0) ∧
      ¬ LevelOrdered (.onDisk DiskDeps.small.table) t.current := by
  let view : FileView DiskFile := .onDisk DiskDeps.small.table
  let check (t : DiskStore) : Prop :=
    (∀ f ∈ t.current, ∀ x ∈ f.entries DiskDeps.small.table, x.seq ≤ 13) ∧
    DiskStore.findFromSsts .small t.current ⟨13, ⟨[4]⟩⟩ = some (some (KvEntry.brief 4 1 0)) ∧
    newestOfAllFiles view t.current ⟨[4]⟩ = some (KvEntry.brief 4 6 0) ∧
    ∃ f ∈ t.current, ∃ g ∈ t.current, f.level < g.level ∧
      ∃ x ∈ view.entries f, ∃ y ∈ view.entries g, x.userKey = y.userKey ∧ x.seq < y.seq
  let ok (t : DiskStore) (a : Action) : Prop := Ascending .small t a ∧ Fits .small t a
  obtain ⟨t, ran, top, found, newest, f, hf, g, hg, lt, x, hx, y, hy, same, older⟩ :
      ∃ t ∈ ((machine .small).restrict ok).run Store.empty strayVersion, check t := by decide +kernel
  refine ⟨t, Machine.reach_of_restrict (Machine.reach_of_run _ (fun _ _ => trivial) (.init rfl) ran), top,
    found, newest, fun ordered => ?_⟩
  exact absurd (ordered f hf g hg lt x hx y hy same) older.asymm

end FrenzyKV.DiskRuns
