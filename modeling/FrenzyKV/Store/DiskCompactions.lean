import FrenzyKV.Db.HeldEntries
import FrenzyKV.Framework.Simulation
import FrenzyKV.Log.EntryBuffer
import FrenzyKV.Store.ConcurrentCompaction

namespace FrenzyKV.DiskStore.Concurrent

open Bytes Framework
open ConcurrentCompaction (Action Known)

/-- Where one call of `may_compact` or `flush_to_disk` stands. -/
inductive Task where
  | idle
  | probing (l : Nat) (threshRatio : ThreshRatio)
  | pinned (l : Nat) (threshRatio : ThreshRatio) (version : Version DiskFile)
  | merging (l : Nat) (threshRatio : ThreshRatio) (version : Version DiskFile)
  | merged (l : Nat) (newtables : List ByteString) (inputs : List DiskFile)
  | compacted (newfiles inputs : List DiskFile)
  | flushed (newfiles : List DiskFile) (storage : List KvEntry)

/-- `busy` are the flags of `m_mutexes`; `flushed` is a ghost, the entries of all memtables that were
flushed. -/
structure State where
  store : DiskStore
  tasks : Nat → Task
  busy : Nat → Bool
  flushed : List KvEntry

def State.setTask (s : State) (i : Nat) (t : Task) : State :=
  { s with tasks := Function.update s.tasks i t }

/-- Create the files of tables and hand them to the call. -/
def State.createFor (s : State) (i : Nat) (files : List ByteString) (t : Task) : State :=
  { s.setTask i t with store := { s.store with created := s.store.created + files.length } }

/-- The end of a call, which hands its new files to the store. -/
def State.applyFor (s : State) (i : Nat) (inputs newfiles : List DiskFile) (flushed : List KvEntry) : State where
  store := { s.store with current := apply s.store.current inputs newfiles }
  tasks := Function.update s.tasks i .idle
  busy := s.busy
  flushed

def step (d : DiskDeps) (s : State) : Action → Option State
  | .flush i m =>
    match s.tasks i with
    | .idle => (flushFiles d m).map fun files =>
      s.createFor i files (.flushed (createFiles d 0 s.store.created files) m.storage)
    | _ => none
  | .start i from_ r =>
    match s.tasks i with
    | .idle => some (s.setTask i (.probing from_ r))
    | _ => none
  | .probe i =>
    match s.tasks i with
    | .probing l r =>
      if d.opt.maxLevel < l then some (s.setTask i .idle)
      else if needCompaction d s.store.current l r then some (s.setTask i (.pinned l r s.store.current))
      else some (s.setTask i (.probing (l + 1) r))
    | _ => none
  | .enter i =>
    match s.tasks i with
    | .pinned l r version =>
      if d.opt.maxLevel ≤ l then none
      -- the flag is taken: `compact` returns nothing and the call ends
      else if s.busy l then some (s.setTask i .idle)
      else some { s.setTask i (.merging l r version) with busy := Function.update s.busy l true }
    | _ => none
  | .merge i =>
    match s.tasks i with
    | .merging l r version =>
      (compact d version l r).map fun done =>
        { s.setTask i (.merged l done.1 done.2) with busy := Function.update s.busy l false }
    | _ => none
  | .write i =>
    match s.tasks i with
    | .merged l newtables inputs =>
      if newtables.isEmpty then some (s.setTask i .idle)
      else
        -- `fake_file_to_disk` skips empty files
        let files := newtables.filter fun file => !file.isEmpty
        some (s.createFor i files (.compacted (createFiles d (l + 1) s.store.created files) inputs))
    | _ => none
  | .update i =>
    match s.tasks i with
    | .compacted newfiles inputs => some (s.applyFor i inputs newfiles s.flushed)
    | .flushed newfiles storage => some (s.applyFor i [] newfiles (s.flushed ++ storage))
    | _ => none

/-- The flushes and compactions of a process, on a store that it has opened and can read. -/
def machine (d : DiskDeps) : Machine State Action where
  init s := Named d s.store ∧ Legible d.table s.store.current ∧ (∀ i, s.tasks i = .idle) ∧
    (∀ l, s.busy l = false) ∧ ∀ e, e ∈ s.flushed ↔ e ∈ contents d.table s.store.current
  step := step d

/-- What a step writes fits into tables, and a memtable that is flushed has no empty value. -/
def Fits (d : DiskDeps) (s : State) : Action → Prop
  | .flush _ m => FlushFits d m ∧ ∀ e ∈ m.storage, e.value ≠ some []
  | .merge i =>
    match s.tasks i with
    | .merging l r version => ∀ inputs ∈ compactionInputs d version l r,
        ∀ merged ∈ mergedEntries d inputs, d.table.BlocksFit merged.reverse
    | _ => True
  | _ => True

instance (d : DiskDeps) (s : State) : (a : Action) → Decidable (Fits d s a)
  | .flush _ m => inferInstanceAs (Decidable (FlushFits d m ∧ ∀ e ∈ m.storage, e.value ≠ some []))
  | .merge i =>
    match h : s.tasks i with
    | .merging l r version =>
      decidable_of_iff (∀ inputs ∈ compactionInputs d version l r,
        ∀ merged ∈ mergedEntries d inputs, d.table.BlocksFit merged.reverse) (by simp [Fits, h])
    | .idle | .probing _ _ | .pinned _ _ _ | .merged _ _ _ | .compacted _ _ | .flushed _ _ =>
      isTrue (by simp [Fits, h])
  | .start _ _ _ | .probe _ | .enter _ | .write _ | .update _ => isTrue trivial

/-- The task of a call on tables, in the files of these. -/
def onDisk (d : TableDeps) : ConcurrentCompaction.Task → Task
  | .idle => .idle
  | .probing l r => .probing l r
  | .pinned l r version => .pinned l r (version.map (File.onDisk d))
  | .merging l r version => .merging l r (version.map (File.onDisk d))
  | .merged l newtables inputs => .merged l (newtables.map (·.image d)) (inputs.map (File.onDisk d))
  | .compacted newfiles inputs => .compacted (newfiles.map (File.onDisk d)) (inputs.map (File.onDisk d))
  | .flushed newfiles => .flushed (newfiles.map (File.onDisk d)) (newfiles.flatMap (·.table.entries))

/-- Every table of the store and of its calls can be read back from its file. -/
structure Readable (d : TableDeps) (u : ConcurrentCompaction.State) : Prop where
  files : ∀ f, Known u f → f.table.Legible d
  tables : ∀ i l newtables inputs, u.tasks i = .merged l newtables inputs → ∀ t ∈ newtables, t.Legible d

/-- The files hold the tables. -/
structure OnDisk (d : TableDeps) (u : ConcurrentCompaction.State) (s : State) : Prop where
  readable : Readable d u
  store : s.store = u.store.onDisk d
  tasks : s.tasks = fun i => onDisk d (u.tasks i)
  busy : s.busy = u.busy
  flushed : s.flushed = u.written

section Related

variable {d : TableDeps} {u : ConcurrentCompaction.State} {s : State} {i : Nat}
  {t : ConcurrentCompaction.Task} {f : File}

theorem OnDisk.task (related : OnDisk d u s) (i : Nat) : s.tasks i = onDisk d (u.tasks i) :=
  congrFun related.tasks i

/-- The tables of a merged task, before it has files for them. -/
theorem tables_update (readable : Readable d u)
    (tables : ∀ l newtables inputs, t = .merged l newtables inputs → ∀ x ∈ newtables, x.Legible d) :
    ∀ j l newtables inputs, Function.update u.tasks i t j = .merged l newtables inputs →
      ∀ x ∈ newtables, x.Legible d := by
  intro j l newtables inputs eq
  by_cases same : j = i
  · subst same
    rw [Function.update_self] at eq
    exact tables l newtables inputs eq
  · rw [Function.update_of_ne same] at eq
    exact readable.tables j l newtables inputs eq

theorem tasks_update (related : OnDisk d u s) (t : ConcurrentCompaction.Task) :
    Function.update s.tasks i (onDisk d t) = fun j => onDisk d (Function.update u.tasks i t j) := by
  rw [related.tasks]
  exact (Function.comp_update (onDisk d) u.tasks i t).symm

theorem OnDisk.setTask (related : OnDisk d u s) (busy : Nat → Bool) (held : ∀ f ∈ t.files, Known u f)
    (tables : ∀ l newtables inputs, t = .merged l newtables inputs → ∀ x ∈ newtables, x.Legible d) :
    OnDisk d { u.setTask i t with busy } { s.setTask i (onDisk d t) with busy } where
  readable :=
    { files := fun f known => related.readable.files f (ConcurrentCompaction.known_of_setTask held known)
      tables := tables_update related.readable tables }
  store := related.store
  tasks := tasks_update related t
  busy := rfl
  flushed := related.flushed

/-- A task that ends, or starts over, holds no tables. -/
theorem OnDisk.release (related : OnDisk d u s) (none_held : t.files = [])
    (unmerged : ∀ l newtables inputs, t ≠ .merged l newtables inputs) :
    OnDisk d (u.setTask i t) (s.setTask i (onDisk d t)) := by
  have same := related.setTask (i := i) (t := t) u.busy (fun f hf => by rw [none_held] at hf; cases hf)
    fun l newtables inputs eq => absurd eq (unmerged l newtables inputs)
  exact ⟨same.readable, same.store, same.tasks, related.busy, same.flushed⟩

theorem OnDisk.createFor (related : OnDisk d u s) (ts : List Sstable) {new : List File}
    (legible : ∀ f ∈ new, f.table.Legible d) (held : ∀ f ∈ t.files, f ∈ new ∨ Known u f)
    (unmerged : ∀ l newtables inputs, t ≠ .merged l newtables inputs) :
    OnDisk d (u.createFor i ts t) (s.createFor i (ts.map (·.image d)) (onDisk d t)) where
  readable :=
    { files := fun f known => (ConcurrentCompaction.known_of_createFor held known).elim (legible f)
        (related.readable.files f)
      tables := tables_update related.readable fun l newtables inputs eq => absurd eq (unmerged l newtables inputs) }
  store := by
    rw [State.createFor, related.store, List.length_map]
    rfl
  tasks := tasks_update related t
  busy := related.busy
  flushed := related.flushed

theorem OnDisk.applyFor (related : OnDisk d u s) (inputs : List File) {newfiles : List File} {entries : List KvEntry}
    (held : ∀ f ∈ newfiles, Known u f) :
    OnDisk d (u.applyFor i inputs newfiles entries)
      (s.applyFor i (inputs.map (File.onDisk d)) (newfiles.map (File.onDisk d)) entries) where
  readable :=
    { files := fun f known => related.readable.files f (ConcurrentCompaction.known_of_applyFor held known)
      tables := tables_update related.readable fun l newtables inputs eq => by cases eq }
  store := by
    rw [State.applyFor, related.store]
    exact congrArg (Store.mk · _) (apply_map u.store.current ⟨inputs, newfiles⟩)
  tasks := tasks_update related .idle
  busy := related.busy
  flushed := rfl

end Related

section Steps

variable {d : DiskDeps} {compressor : CompressorPolicy} {u : ConcurrentCompaction.State} {s s' : State} {i : Nat}

/-- The entries of the tables of a flush are those of the memtable, if no value is empty. -/
theorem flush_simulated (readable : d.Readable compressor) {m : Memtable} (related : OnDisk d.table u s)
    (fits : Fits d s (.flush i m)) (taken : step d s (.flush i m) = some s') :
    ∃ u', ConcurrentCompaction.step d.toKvdbDeps u (.flush i m) = some u' ∧ OnDisk d.table u' s' := by
  obtain ⟨⟨encodable, blocks⟩, values⟩ := fits
  have task := related.task i
  cases here : u.tasks i with
  | idle =>
    rw [here] at task
    simp only [step, task, onDisk] at taken
    obtain ⟨files, flushed, rfl⟩ := Option.map_eq_some_iff.mp taken
    obtain ⟨ts, tables, rfl, -, legible⟩ := flushFiles_stored encodable flushed
    let newfiles := FrenzyKV.createFiles d.toKvdbDeps 0 u.store.created ts
    have all : newfiles.flatMap (·.table.entries) = m.storage := by
      have entries := (flushTables_spec tables).2
      rw [KvEntry.map_stored_iff.mpr values, ← @createFiles_map_table d.toKvdbDeps 0 u.store.created ts,
        List.flatMap_map] at entries
      exact entries
    refine ⟨u.createFor i ts (.flushed newfiles), ?_, ?_⟩
    · simp only [ConcurrentCompaction.step, here, tables, Option.map_some, newfiles]
    · have created := related.createFor (i := i) (t := .flushed newfiles) ts
        (fun f hf => legible blocks _ (FrenzyKV.mem_createFiles hf).2.1) (fun f hf => .inl hf) (by simp)
      rw [onDisk, all, ← createFiles_image readable.buffered] at created
      rw [related.store]
      exact created
  | _ =>
    rw [here] at task
    simp only [step, task, onDisk] at taken
    cases taken

theorem probe_simulated (related : OnDisk d.table u s) (taken : step d s (.probe i) = some s') :
    ∃ u', ConcurrentCompaction.step d.toKvdbDeps u (.probe i) = some u' ∧ OnDisk d.table u' s' := by
  have task := related.task i
  cases here : u.tasks i with
  | probing l r =>
    rw [here] at task
    have need : needCompaction d s.store.current l r =
        FrenzyKV.needCompaction d.toKvdbDeps u.store.current l r := by
      rw [related.store]
      exact needCompaction_map u.store.current l r
    simp only [step, task, onDisk, need] at taken
    simp only [ConcurrentCompaction.step, here]
    split_ifs at taken ⊢
    · obtain rfl := Option.some.inj taken
      exact ⟨_, rfl, related.release rfl (by simp)⟩
    · obtain rfl := Option.some.inj taken
      have pinned := related.setTask (i := i) (t := .pinned l r u.store.current) u.busy (fun f hf => .inl hf) (by simp)
      refine ⟨_, rfl, ?_⟩
      rw [related.store]
      exact ⟨pinned.readable, pinned.store, pinned.tasks, related.busy, pinned.flushed⟩
    · obtain rfl := Option.some.inj taken
      exact ⟨_, rfl, related.release rfl (by simp)⟩
  | _ =>
    rw [here] at task
    simp only [step, task, onDisk] at taken
    cases taken

theorem enter_simulated (related : OnDisk d.table u s) (taken : step d s (.enter i) = some s') :
    ∃ u', ConcurrentCompaction.step d.toKvdbDeps u (.enter i) = some u' ∧ OnDisk d.table u' s' := by
  have task := related.task i
  cases here : u.tasks i with
  | pinned l r version =>
    rw [here] at task
    simp only [step, task, onDisk, related.busy] at taken
    simp only [ConcurrentCompaction.step, here]
    split_ifs at taken ⊢
    · obtain rfl := Option.some.inj taken
      exact ⟨_, rfl, related.release rfl (by simp)⟩
    · obtain rfl := Option.some.inj taken
      exact ⟨_, rfl, related.setTask (i := i) (t := .merging l r version) _ (fun f hf => .inr ⟨i, here ▸ hf⟩) (by simp)⟩
  | _ =>
    rw [here] at task
    simp only [step, task, onDisk] at taken
    cases taken

theorem merge_simulated (readable : d.Readable compressor) (related : OnDisk d.table u s)
    (fits : Fits d s (.merge i)) (taken : step d s (.merge i) = some s') :
    ∃ u', ConcurrentCompaction.step d.toKvdbDeps u (.merge i) = some u' ∧ OnDisk d.table u' s' := by
  have task := related.task i
  cases here : u.tasks i with
  | merging l r version =>
    rw [here] at task
    simp only [step, task, onDisk] at taken
    simp only [Fits, task, onDisk] at fits
    obtain ⟨⟨files, inputs⟩, done, rfl⟩ := Option.map_eq_some_iff.mp taken
    have held : ∀ f ∈ version, Known u f := fun f hf => .inr ⟨i, here ▸ hf⟩
    have stored : Version.Stored d.table version := fun f hf => (related.readable.files f (held f hf)).toStored
    obtain ⟨ts, delta, merged, eq, rfl, rfl, -, read, legible⟩ := compact_map readable.toReadable stored done
    have legible := legible (fits _ (compactionInputs_of_compact done) merged read)
    have chosen := (compact_spec (fun f hf => d.filter ▸ (stored f hf).wf) eq).2.2.1
    refine ⟨{ u.setTask i (.merged l ts delta.compacted) with busy := Function.update u.busy l false }, ?_, ?_⟩
    · simp only [ConcurrentCompaction.step, here, eq, Option.map_some]
    · rw [related.busy]
      refine related.setTask (t := .merged l ts delta.compacted) _
        (fun f hf => held f (compactionInputs_mem chosen hf).1) ?_
      rintro _ _ _ ⟨rfl, rfl, rfl⟩
      exact legible
  | _ =>
    rw [here] at task
    simp only [step, task, onDisk] at taken
    cases taken

theorem write_simulated (readable : d.Readable compressor) (related : OnDisk d.table u s)
    (taken : step d s (.write i) = some s') :
    ∃ u', ConcurrentCompaction.step d.toKvdbDeps u (.write i) = some u' ∧ OnDisk d.table u' s' := by
  have task := related.task i
  cases here : u.tasks i with
  | merged l newtables inputs =>
    rw [here] at task
    have legible := related.readable.tables i l newtables inputs here
    simp only [step, task, onDisk, List.isEmpty_map, filter_image fun t mem => (legible t mem).toStored] at taken
    simp only [ConcurrentCompaction.step, here]
    split_ifs at taken ⊢
    · obtain rfl := Option.some.inj taken
      exact ⟨_, rfl, related.release rfl (by simp)⟩
    · obtain rfl := Option.some.inj taken
      let newfiles := FrenzyKV.createFiles d.toKvdbDeps (l + 1) u.store.created newtables
      have created := related.createFor (i := i) (t := .compacted newfiles inputs) newtables
        (fun f hf => legible _ (FrenzyKV.mem_createFiles hf).2.1)
        (fun f hf => (List.mem_append.mp hf).imp_right fun input => .inr ⟨i, here ▸ input⟩) (by simp)
      rw [onDisk, ← createFiles_image readable.buffered] at created
      rw [related.store]
      exact ⟨_, rfl, created⟩
  | _ =>
    rw [here] at task
    simp only [step, task, onDisk] at taken
    cases taken

theorem update_simulated (related : OnDisk d.table u s) (taken : step d s (.update i) = some s') :
    ∃ u', ConcurrentCompaction.step d.toKvdbDeps u (.update i) = some u' ∧ OnDisk d.table u' s' := by
  have task := related.task i
  cases here : u.tasks i with
  | compacted newfiles inputs =>
    rw [here] at task
    simp only [step, task, onDisk, related.flushed] at taken
    obtain rfl := Option.some.inj taken
    simp only [ConcurrentCompaction.step, here]
    exact ⟨_, rfl, related.applyFor inputs fun f hf => .inr ⟨i, here ▸ List.mem_append_left _ hf⟩⟩
  | flushed newfiles =>
    rw [here] at task
    simp only [step, task, onDisk, related.flushed] at taken
    obtain rfl := Option.some.inj taken
    simp only [ConcurrentCompaction.step, here]
    exact ⟨_, rfl, related.applyFor [] fun f hf => .inr ⟨i, here ▸ hf⟩⟩
  | _ =>
    rw [here] at task
    simp only [step, task, onDisk] at taken
    cases taken

theorem start_simulated {from_ : Nat} {r : ThreshRatio} (related : OnDisk d.table u s)
    (taken : step d s (.start i from_ r) = some s') :
    ∃ u', ConcurrentCompaction.step d.toKvdbDeps u (.start i from_ r) = some u' ∧ OnDisk d.table u' s' := by
  have task := related.task i
  cases here : u.tasks i with
  | idle =>
    rw [here] at task
    simp only [step, task, onDisk] at taken
    obtain rfl := Option.some.inj taken
    simp only [ConcurrentCompaction.step, here]
    exact ⟨_, rfl, related.release rfl (by simp)⟩
  | _ =>
    rw [here] at task
    simp only [step, task, onDisk] at taken
    cases taken

/-- A store that can be read is one of tables. -/
theorem init_simulated (readable : d.Readable compressor) (initial : (machine d).init s) :
    ∃ u, (ConcurrentCompaction.machine d.toKvdbDeps).init u ∧ OnDisk d.table u s := by
  obtain ⟨named, ⟨v, current, legible⟩, idle, free, flushed⟩ := initial
  have mem : ∀ f ∈ v, f.onDisk d.table ∈ s.store.current := fun f hf => current ▸ List.mem_map_of_mem hf
  let u : ConcurrentCompaction.State := ⟨⟨v, s.store.created⟩, fun _ => .idle, s.busy, s.flushed⟩
  have known : ∀ f, Known u f → f ∈ v := by
    rintro f (inside | ⟨j, held⟩)
    · exact inside
    · cases held
  refine ⟨u, ⟨⟨fun f hf => named.named _ (mem f hf), ?_⟩, fun f hf => d.filter ▸ (legible f hf).wf,
    fun _ => rfl, free, fun e => ?_⟩, ?_⟩
  · have distinct := named.distinct
    rw [current, List.pairwise_map] at distinct
    exact distinct
  · rw [← contents_map readable.toReadable legible, ← current]
    exact flushed e
  · exact {
      readable := ⟨fun f hf => legible f (known f hf), fun i l newtables inputs eq => by cases eq⟩
      store := congrArg (Store.mk · _) current
      tasks := funext idle
      busy := rfl
      flushed := rfl }

theorem simulates (readable : d.Readable compressor) : Simulates
    (ConcurrentCompaction.machine d.toKvdbDeps) (machine d) (Fits d) (OnDisk d.table) where
  start s initial := init_simulated readable initial
  step u s a s' related fits taken := by
    cases a with
    | flush i m => exact flush_simulated readable related fits taken
    | start i from_ r => exact start_simulated related taken
    | probe i => exact probe_simulated related taken
    | enter i => exact enter_simulated related taken
    | merge i => exact merge_simulated readable related fits taken
    | write i => exact write_simulated readable related taken
    | update i => exact update_simulated related taken

theorem OnDisk.contents_eq (related : OnDisk d.table u s) (readable : d.Readable compressor) :
    contents d.table s.store.current = u.store.current.contents := by
  rw [related.store]
  exact contents_map readable.toReadable fun f mem => related.readable.files f (.inl mem)

end Steps

variable {d : DiskDeps} {compressor : CompressorPolicy} {s : State}

/-- While tables can be read back and what is written fits, the newest entry of a key is never lost and
never replaced by an older one, and nothing appears that was not flushed, whatever stale versions the
compactions started from. -/
theorem newest_survives (readable : d.Readable compressor) (reached : Reach (machine d) (Fits d) s) :
    (∀ e ∈ contents d.table s.store.current, e ∈ s.flushed) ∧
    (∀ e ∈ s.flushed, ∃ e' ∈ contents d.table s.store.current, e'.userKey = e.userKey ∧ e.seq ≤ e'.seq) ∧
    ∀ a s', Fits d s a → step d s a = some s' → ∀ uk e, IsNewest (contents d.table s.store.current) uk e →
      ∃ e', IsNewest (contents d.table s'.store.current) uk e' ∧ (e'.key = e.key ∨ e.seq < e'.seq) ∧
        ((∀ x ∈ s'.flushed, ∀ y ∈ s'.flushed, x.key = y.key → x = y) → e' = e ∨ e.seq < e'.seq) := by
  obtain ⟨u, reached', related⟩ := (simulates readable).reach reached
  have inv := ConcurrentCompaction.inv_of_reach reached'
  rw [related.contents_eq readable, related.flushed]
  refine ⟨inv.sub, inv.covers, fun a s' fits taken uk e newest => ?_⟩
  obtain ⟨u', taken', related'⟩ := (simulates readable).step u s a s' related fits taken
  rw [related'.contents_eq readable, related'.flushed]
  exact inv.newest_kept taken' newest

/-- Before anything is written. -/
def start : State := ⟨Store.empty, fun _ => .idle, fun _ => false, []⟩

theorem start_initial (d : DiskDeps) : (machine d).init start := by
  refine ⟨named_empty d, ⟨[], rfl, fun f hf => absurd hf List.not_mem_nil⟩, fun _ => rfl, fun _ => rfl, fun e => ?_⟩
  refine iff_of_false List.not_mem_nil ?_
  rintro ⟨f, mem, -⟩
  cases mem

theorem newest_survives_sharedInputs :
    ∃ s, (machine .small).run start ConcurrentCompaction.sharedInputs = some s ∧ s.flushed.length = 5 ∧
      ∀ e ∈ s.flushed, ∃ e' ∈ contents DiskDeps.small.table s.store.current,
        e'.userKey = e.userKey ∧ e.seq ≤ e'.seq := by
  obtain ⟨s, ran, five⟩ : ∃ s ∈ ((machine .small).restrict (Fits .small)).run start
      ConcurrentCompaction.sharedInputs, s.flushed.length = 5 := by decide +kernel
  have reached : Reach (machine .small) (Fits .small) s := Machine.reach_of_restrict
    (Machine.reach_of_run _ (fun _ _ => trivial) (.init (start_initial .small)) ran)
  exact ⟨s, Machine.run_of_restrict ran, five, (newest_survives DiskDeps.small_readable reached).2.1⟩

abbrev unbuffered : DiskDeps := .plain { Options.twoFileLevels with needBufferedWrite := false }

/-- The store of three flushes, and a process that finds it. -/
def threeFlushes : Option DiskStore :=
  (flushToDisk .small Store.empty (Memtable.ofEntries .twoFileLevels [KvEntry.brief 2 1 10])).bind fun t =>
    (flushToDisk .small t (Memtable.ofEntries .twoFileLevels [KvEntry.brief 1 2 10])).bind fun t =>
      flushToDisk .small t (Memtable.ofEntries .twoFileLevels [KvEntry.brief 1 3 10])

def found (d : DiskDeps) (t : DiskStore) : State :=
  ⟨t, fun _ => .idle, fun _ => false, t.current.flatMap (DiskFile.entries d.table)⟩

/-- A tombstone appears that was not flushed; and a compaction without buffers leaves an empty file in
the place of the newest entry of a key. -/
theorem newest_not_survives :
    (∃ s, (machine .small).run start
        [.flush 0 (Memtable.ofEntries .twoFileLevels [⟨⟨1, ⟨[1]⟩⟩, some []⟩]), .update 0] = some s ∧
      ∃ e ∈ contents DiskDeps.small.table s.store.current, e ∉ s.flushed) ∧
    ∃ t s, threeFlushes = some t ∧ (machine unbuffered).run (found unbuffered t)
        [.start 0 0 1, .probe 0, .enter 0, .merge 0, .write 0, .update 0] = some s ∧
      IsNewest (contents unbuffered.table t.current) ⟨[2]⟩ (KvEntry.brief 2 1 10) ∧
      ∀ e ∈ contents unbuffered.table s.store.current, e.userKey ≠ ⟨[2]⟩ := by
  constructor
  · obtain ⟨s, ran, f, mem, e, inside, new⟩ : ∃ s ∈ (machine .small).run start
        [.flush 0 (Memtable.ofEntries .twoFileLevels [⟨⟨1, ⟨[1]⟩⟩, some []⟩]), .update 0],
        ∃ f ∈ s.store.current, ∃ e ∈ f.entries DiskDeps.small.table, e ∉ s.flushed := by
      decide +kernel
    exact ⟨s, ran, e, ⟨f, mem, inside⟩, new⟩
  · obtain ⟨t, flushed, ⟨g, memG, insideG⟩, top, s, ran, gone⟩ : ∃ t ∈ threeFlushes,
        (∃ f ∈ t.current, KvEntry.brief 2 1 10 ∈ f.entries unbuffered.table) ∧
        (∀ f ∈ t.current, ∀ x ∈ f.entries unbuffered.table, x.userKey = ⟨[2]⟩ → x.seq ≤ 1) ∧
        ∃ s ∈ (machine unbuffered).run (found unbuffered t)
          [.start 0 0 1, .probe 0, .enter 0, .merge 0, .write 0, .update 0],
          ∀ f ∈ s.store.current, ∀ e ∈ f.entries unbuffered.table, e.userKey ≠ ⟨[2]⟩ := by
      decide +kernel
    refine ⟨t, s, flushed, ran, ⟨⟨g, memG, insideG⟩, rfl, ?_⟩, ?_⟩
    · rintro x ⟨f, mem, inside⟩ key
      exact top f mem x inside key
    · rintro e ⟨f, mem, inside⟩
      exact gone f mem e inside

end FrenzyKV.DiskStore.Concurrent
