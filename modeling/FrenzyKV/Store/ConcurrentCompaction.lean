import FrenzyKV.Db.DbLocal
import FrenzyKV.Framework.Machine
import Mathlib.Logic.Function.Basic

namespace FrenzyKV.ConcurrentCompaction

open Framework

/-- Where one call of `may_compact` or `flush_to_disk` stands. -/
inductive Task where
  | idle
  | probing (l : Nat) (threshRatio : ThreshRatio)
  | pinned (l : Nat) (threshRatio : ThreshRatio) (version : Version File)
  | merging (l : Nat) (threshRatio : ThreshRatio) (version : Version File)
  | merged (l : Nat) (newtables : List Sstable) (inputs : List File)
  | compacted (newfiles inputs : List File)
  | flushed (newfiles : List File)

/-- `busy` are the flags of `m_mutexes`; `written` is a ghost, the entries of all tables that flushes
have put into level 0. -/
structure State where
  store : Store File
  tasks : Nat → Task
  busy : Nat → Bool
  written : List KvEntry

inductive Action where
  | flush (i : Nat) (m : Memtable)
  | start (i from_ : Nat) (threshRatio : ThreshRatio)
  | probe (i : Nat)
  | enter (i : Nat)
  | merge (i : Nat)
  | write (i : Nat)
  | update (i : Nat)

def State.setTask (s : State) (i : Nat) (t : Task) : State :=
  { s with tasks := Function.update s.tasks i t }

/-- Create the files of tables and hand them to the call. -/
def State.createFor (s : State) (i : Nat) (ts : List Sstable) (t : Task) : State :=
  { s.setTask i t with store := { s.store with created := s.store.created + ts.length } }

/-- The end of a call, which hands its new files to the store. -/
def State.applyFor (s : State) (i : Nat) (inputs newfiles : List File) (written : List KvEntry) : State where
  store := { s.store with current := s.store.current.apply ⟨inputs, newfiles⟩ }
  tasks := Function.update s.tasks i .idle
  busy := s.busy
  written

def step (deps : KvdbDeps) (s : State) : Action → Option State
  | .flush i m =>
    match s.tasks i with
    | .idle => (flushTables deps m).map fun ts =>
      s.createFor i ts (.flushed (createFiles deps 0 s.store.created ts))
    | _ => none
  | .start i from_ r =>
    match s.tasks i with
    | .idle => some (s.setTask i (.probing from_ r))
    | _ => none
  | .probe i =>
    match s.tasks i with
    | .probing l r =>
      if deps.opt.maxLevel < l then some (s.setTask i .idle)
      else if needCompaction deps s.store.current l r
        then some (s.setTask i (.pinned l r s.store.current))
      else some (s.setTask i (.probing (l + 1) r))
    | _ => none
  | .enter i =>
    match s.tasks i with
    | .pinned l r version =>
      if deps.opt.maxLevel ≤ l then none
      -- the flag is taken: `compact` returns nothing and the call ends
      else if s.busy l then some (s.setTask i .idle)
      else some { s.setTask i (.merging l r version) with busy := Function.update s.busy l true }
    | _ => none
  | .merge i =>
    match s.tasks i with
    | .merging l r version =>
      (compact deps version l r).map fun done =>
        { s.setTask i (.merged l done.1 done.2.compacted) with
          busy := Function.update s.busy l false }
    | _ => none
  | .write i =>
    match s.tasks i with
    | .merged l newtables inputs =>
      if newtables.isEmpty then some (s.setTask i .idle)
      else some (s.createFor i newtables
        (.compacted (createFiles deps (l + 1) s.store.created newtables) inputs))
    | _ => none
  | .update i =>
    match s.tasks i with
    | .compacted newfiles inputs => some (s.applyFor i inputs newfiles s.written)
    | .flushed newfiles =>
      some (s.applyFor i [] newfiles (s.written ++ newfiles.flatMap (·.table.entries)))
    | _ => none

/-- Each way in which an action can go, with the checks on its path. -/
inductive Step (deps : KvdbDeps) (s : State) : Action → State → Prop
  | flush {i : Nat} {m : Memtable} {ts : List Sstable} (idle : s.tasks i = .idle)
      (flushed : flushTables deps m = some ts) :
      Step deps s (.flush i m) (s.createFor i ts (.flushed (createFiles deps 0 s.store.created ts)))
  | start {i from_ : Nat} {r : ThreshRatio} (idle : s.tasks i = .idle) :
      Step deps s (.start i from_ r) (s.setTask i (.probing from_ r))
  | probedAll {i l : Nat} {r : ThreshRatio} (probing : s.tasks i = .probing l r) (last : deps.opt.maxLevel < l) :
      Step deps s (.probe i) (s.setTask i .idle)
  | pin {i l : Nat} {r : ThreshRatio} (probing : s.tasks i = .probing l r) (more : ¬ deps.opt.maxLevel < l)
      (need : needCompaction deps s.store.current l r) :
      Step deps s (.probe i) (s.setTask i (.pinned l r s.store.current))
  | nextLevel {i l : Nat} {r : ThreshRatio} (probing : s.tasks i = .probing l r) (more : ¬ deps.opt.maxLevel < l)
      (small : ¬ needCompaction deps s.store.current l r) :
      Step deps s (.probe i) (s.setTask i (.probing (l + 1) r))
  | refused {i l : Nat} {r : ThreshRatio} {version : Version File} (pinned : s.tasks i = .pinned l r version)
      (below : ¬ deps.opt.maxLevel ≤ l) (taken : s.busy l) : Step deps s (.enter i) (s.setTask i .idle)
  | enter {i l : Nat} {r : ThreshRatio} {version : Version File} (pinned : s.tasks i = .pinned l r version)
      (below : ¬ deps.opt.maxLevel ≤ l) (free : ¬ s.busy l) :
      Step deps s (.enter i)
        { s.setTask i (.merging l r version) with busy := Function.update s.busy l true }
  | merge {i l : Nat} {r : ThreshRatio} {version : Version File} {ts : List Sstable} {delta : VersionDelta}
      (merging : s.tasks i = .merging l r version)
      (compacted : compact deps version l r = some (ts, delta)) :
      Step deps s (.merge i)
        { s.setTask i (.merged l ts delta.compacted) with busy := Function.update s.busy l false }
  | nothing {i l : Nat} {newtables : List Sstable} {inputs : List File}
      (merged : s.tasks i = .merged l newtables inputs) (empty : newtables.isEmpty) :
      Step deps s (.write i) (s.setTask i .idle)
  | write {i l : Nat} {newtables : List Sstable} {inputs : List File}
      (merged : s.tasks i = .merged l newtables inputs) (some_table : ¬ newtables.isEmpty) :
      Step deps s (.write i) (s.createFor i newtables
        (.compacted (createFiles deps (l + 1) s.store.created newtables) inputs))
  | compacted {i : Nat} {newfiles inputs : List File} (held : s.tasks i = .compacted newfiles inputs) :
      Step deps s (.update i) (s.applyFor i inputs newfiles s.written)
  | flushed {i : Nat} {newfiles : List File} (held : s.tasks i = .flushed newfiles) :
      Step deps s (.update i)
        (s.applyFor i [] newfiles (s.written ++ newfiles.flatMap (·.table.entries)))

theorem step_cases {deps : KvdbDeps} {s s' : State} {a : Action} (taken : step deps s a = some s') :
    Step deps s a s' := by
  cases a with
  | flush i m =>
    simp only [step] at taken
    split at taken
    · rename_i idle
      obtain ⟨ts, flushed, rfl⟩ := Option.map_eq_some_iff.mp taken
      exact .flush idle flushed
    · cases taken
  | start i from_ r =>
    simp only [step] at taken
    split at taken
    · rename_i idle
      obtain rfl := Option.some.inj taken
      exact .start idle
    · cases taken
  | probe i =>
    simp only [step] at taken
    split at taken
    · rename_i l r probing
      split_ifs at taken with last need
      · obtain rfl := Option.some.inj taken
        exact .probedAll probing last
      · obtain rfl := Option.some.inj taken
        exact .pin probing last need
      · obtain rfl := Option.some.inj taken
        exact .nextLevel probing last need
    · cases taken
  | enter i =>
    simp only [step] at taken
    split at taken
    · rename_i l r version pinned
      split_ifs at taken with top busy
      · obtain rfl := Option.some.inj taken
        exact .refused pinned top busy
      · obtain rfl := Option.some.inj taken
        exact .enter pinned top busy
    · cases taken
  | merge i =>
    simp only [step] at taken
    split at taken
    · rename_i l r version merging
      obtain ⟨⟨ts, delta⟩, compacted, rfl⟩ := Option.map_eq_some_iff.mp taken
      exact .merge merging compacted
    · cases taken
  | write i =>
    simp only [step] at taken
    split at taken
    · rename_i l ts inputs merged
      split at taken
      · rename_i empty
        obtain rfl := Option.some.inj taken
        exact .nothing merged empty
      · rename_i some_table
        obtain rfl := Option.some.inj taken
        exact .write merged some_table
    · cases taken
  | update i =>
    simp only [step] at taken
    split at taken
    · rename_i newfiles inputs held
      obtain rfl := Option.some.inj taken
      exact .compacted held
    · rename_i newfiles held
      obtain rfl := Option.some.inj taken
      exact .flushed held
    · cases taken

/-- Every file of the store has a write time of its own, and its uuid. -/
structure Opened (deps : KvdbDeps) (store : Store File) : Prop where
  named : ∀ f ∈ store.current,
    f.fileId = deps.uuid f.lastWriteTime ∧ f.lastWriteTime < store.created
  distinct : store.current.Pairwise (·.lastWriteTime ≠ ·.lastWriteTime)

/-- The flushes and compactions of a process, on a store of well-formed tables that it has opened. -/
def machine (deps : KvdbDeps) : Machine State Action where
  init s := Opened deps s.store ∧ (∀ f ∈ s.store.current, f.table.Wf deps.filterPolicy) ∧ (∀ i, s.tasks i = .idle) ∧ (∀ l, s.busy l = false) ∧
    ∀ e, e ∈ s.written ↔ e ∈ s.store.current.contents
  step := step deps

/-- The files a call holds. -/
def Task.files : Task → List File
  | .pinned _ _ version | .merging _ _ version => version
  | .merged _ _ inputs => inputs
  | .compacted newfiles inputs => newfiles ++ inputs
  | .flushed newfiles => newfiles
  | .idle | .probing _ _ => []

def Known (s : State) (f : File) : Prop :=
  f ∈ s.store.current ∨ ∃ i, f ∈ (s.tasks i).files

def State.writtenSet (s : State) : Set KvEntry := {e | e ∈ s.written}

/-- What the outputs of a running compaction owe to its inputs, which may be gone already. -/
def TaskInv (deps : KvdbDeps) (written : Set KvEntry) : Task → Prop
  | .pinned _ _ version | .merging _ _ version => version.contents ⊆ written
  | .merged _ newtables inputs =>
    Compacted deps.filterPolicy inputs newtables ∧ Version.contents inputs ⊆ written
  | .compacted newfiles inputs =>
    Version.contents newfiles ⊆ written ∧
      Covers (Version.contents newfiles) (Version.contents inputs)
  | .idle | .probing _ _ | .flushed _ => True

structure Inv (deps : KvdbDeps) (s : State) : Prop where
  wf : ∀ f, Known s f → f.table.Wf deps.filterPolicy
  named : ∀ f, Known s f → f.fileId = deps.uuid f.lastWriteTime ∧ f.lastWriteTime < s.store.created
  single : ∀ f g, Known s f → Known s g → f.lastWriteTime = g.lastWriteTime → f = g
  sub : s.store.current.contents ⊆ s.writtenSet
  covers : Covers s.store.current.contents s.writtenSet
  task : ∀ i, TaskInv deps s.writtenSet (s.tasks i)

variable {deps : KvdbDeps} {s s' : State} {i : Nat} {t : Task}

theorem known_of_setTask {f : File} (held : ∀ f ∈ t.files, Known s f)
    (known : Known (s.setTask i t) f) : Known s f := by
  rcases known with current | ⟨j, mem⟩
  · exact Or.inl current
  · by_cases same : j = i
    · subst same
      exact held f (by simpa [State.setTask] using mem)
    · exact Or.inr ⟨j, by simpa [State.setTask, same] using mem⟩

theorem known_of_createFor {ts : List Sstable} {new : List File} {f : File}
    (held : ∀ f ∈ t.files, f ∈ new ∨ Known s f) (known : Known (s.createFor i ts t) f) :
    f ∈ new ∨ Known s f := by
  rcases known with current | ⟨j, mem⟩
  · exact Or.inr (Or.inl current)
  · by_cases same : j = i
    · subst same
      exact held f (by simpa [State.createFor, State.setTask] using mem)
    · exact Or.inr (Or.inr ⟨j, by simpa [State.createFor, State.setTask, same] using mem⟩)

theorem known_of_applyFor {newfiles inputs : List File} {written : List KvEntry} {f : File}
    (held : ∀ f ∈ newfiles, Known s f) (known : Known (s.applyFor i inputs newfiles written) f) : Known s f := by
  rcases known with current | ⟨j, mem⟩
  · rcases Version.mem_of_mem_apply current with new | old
    · exact held f new
    · exact Or.inl old
  · exact known_of_setTask (t := .idle) (by simp [Task.files]) (Or.inr ⟨j, mem⟩)

/-- Equal ranks name one file among the known ones. -/
theorem Inv.eq_of_rank (inv : Inv deps s) {f g : File} (hf : Known s f) (hg : Known s g)
    (same : f.rank = g.rank) : f = g := by
  have ids : f.fileId = g.fileId := (Prod.mk.inj (toLex.injective same)).2
  rw [(inv.named f hf).1, (inv.named g hg).1] at ids
  exact inv.single f g hf hg (deps.uuid_injective ids)

theorem Inv.setTask (inv : Inv deps s) (busy : Nat → Bool) (held : ∀ f ∈ t.files, Known s f)
    (ok : TaskInv deps s.writtenSet t) : Inv deps { s.setTask i t with busy } where
  wf f hf := inv.wf f (known_of_setTask held hf)
  named f hf := inv.named f (known_of_setTask held hf)
  single f g hf hg := inv.single f g (known_of_setTask held hf) (known_of_setTask held hg)
  sub := inv.sub
  covers := inv.covers
  task := (Function.forall_update_iff s.tasks fun _ t => TaskInv deps s.writtenSet t).mpr
    ⟨ok, fun j _ => inv.task j⟩

/-- What the invariant says about the task that takes a step. -/
theorem Inv.at_task (inv : Inv deps s) (eq : s.tasks i = t) :
    TaskInv deps s.writtenSet t ∧ ∀ f ∈ t.files, Known s f := by
  subst eq
  exact ⟨inv.task i, fun f hf => Or.inr ⟨i, hf⟩⟩

/-- A task that ends, or starts over, holds no files. -/
theorem Inv.release (inv : Inv deps s) (none_held : t.files = []) (ok : TaskInv deps s.writtenSet t) :
    Inv deps (s.setTask i t) :=
  inv.setTask s.busy (fun f hf => by rw [none_held] at hf; cases hf) ok

theorem Inv.createFor (inv : Inv deps s) (level : Nat) {ts : List Sstable}
    (wf : ∀ x ∈ ts, x.Wf deps.filterPolicy)
    (held : ∀ f ∈ t.files, f ∈ createFiles deps level s.store.created ts ∨ Known s f)
    (ok : TaskInv deps s.writtenSet t) : Inv deps (s.createFor i ts t) := by
  have cases_known : ∀ f, Known (s.createFor i ts t) f →
      f ∈ createFiles deps level s.store.created ts ∨ Known s f := fun f => known_of_createFor held
  refine ⟨fun f hf => ?_, fun f hf => ?_, fun f g hf hg same => ?_, inv.sub, inv.covers,
    (Function.forall_update_iff s.tasks fun _ t => TaskInv deps s.writtenSet t).mpr
      ⟨ok, fun j _ => inv.task j⟩⟩
  · rcases cases_known f hf with new | old
    · exact wf _ (mem_createFiles new).2.1
    · exact inv.wf f old
  · change _ ∧ _ < s.store.created + ts.length
    rcases cases_known f hf with new | old
    · obtain ⟨-, -, name, -, high⟩ := mem_createFiles new
      exact ⟨name, high⟩
    · obtain ⟨name, high⟩ := inv.named f old
      exact ⟨name, by omega⟩
  · rcases cases_known f hf with newF | oldF <;> rcases cases_known g hg with newG | oldG
    · by_contra ne
      have symm : Std.Symm fun f g : File => f.lastWriteTime ≠ g.lastWriteTime :=
        ⟨fun _ _ h => h.symm⟩
      have times := (@createFiles_times deps level s.store.created ts).imp fun lt => Nat.ne_of_lt lt
      exact List.Pairwise.forall times newF newG ne same
    · have low := (mem_createFiles newF).2.2.2.1
      have high := (inv.named g oldG).2
      omega
    · have low := (mem_createFiles newG).2.2.2.1
      have high := (inv.named f oldF).2
      omega
    · exact inv.single f g oldF oldG same

/-- An update puts the new files in front and drops what it names as compacted. -/
theorem Inv.apply (inv : Inv deps s) {newfiles inputs : List File} {written : List KvEntry}
    (heldNew : ∀ f ∈ newfiles, Known s f) (heldInputs : ∀ f ∈ inputs, Known s f)
    (grows : ∀ e, e ∈ s.written → e ∈ written)
    (origin : Version.contents newfiles ⊆ {e | e ∈ written})
    (fromNew : Covers (Version.contents newfiles) (Version.contents inputs))
    (newWritten : ∀ e ∈ written, e ∈ s.written ∨ e ∈ Version.contents newfiles) :
    Inv deps (s.applyFor i inputs newfiles written) := by
  let s' := s.applyFor i inputs newfiles written
  have known : ∀ f, Known s' f → Known s f := fun f => known_of_applyFor heldNew
  have newIn : Version.contents newfiles ⊆ s'.store.current.contents :=
    Version.contents_mono fun f hf => Version.added_mem_apply hf
  have keptIn : s.store.current.contents \ Version.contents inputs ⊆ s'.store.current.contents := by
    rintro e ⟨⟨f, hf, he⟩, notInput⟩
    refine ⟨f, Version.kept_mem_apply hf fun g hg same => ?_, he⟩
    obtain rfl := inv.eq_of_rank (Or.inl hf) (heldInputs g hg) same
    exact notInput ⟨f, hg, he⟩
  have weaken : ∀ t, TaskInv deps s.writtenSet t → TaskInv deps s'.writtenSet t := by
    rintro (_ | _ | _ | _ | _ | _ | _) ok
    · exact ok
    · exact ok
    · exact fun e he => grows e (ok he)
    · exact fun e he => grows e (ok he)
    · exact ⟨ok.1, fun e he => grows e (ok.2 he)⟩
    · exact ⟨fun e he => grows e (ok.1 he), ok.2⟩
    · exact ok
  refine ⟨fun f hf => inv.wf f (known f hf), fun f hf => inv.named f (known f hf),
    fun f g hf hg => inv.single f g (known f hf) (known g hg), ?_, ?_,
    (Function.forall_update_iff s.tasks fun _ t => TaskInv deps s'.writtenSet t).mpr
      ⟨trivial, fun j _ => weaken _ (inv.task j)⟩⟩
  · rintro e ⟨f, hf, he⟩
    rcases Version.mem_of_mem_apply hf with new | old
    · exact origin ⟨f, new, he⟩
    · exact grows e (inv.sub ⟨f, old, he⟩)
  · have old : Covers s'.store.current.contents s.writtenSet :=
      (inv.covers.replace fromNew keptIn).mono (Set.union_subset newIn subset_rfl)
    intro e he
    rcases newWritten e he with before | new
    · exact old e before
    · exact ⟨e, newIn new, rfl, le_rfl⟩

theorem init_inv (initial : (machine deps).init s) : Inv deps s := by
  obtain ⟨opened, wf, idle, -, written⟩ := initial
  have current : ∀ f, Known s f → f ∈ s.store.current := by
    rintro f (current | ⟨j, mem⟩)
    · exact current
    · rw [idle j] at mem
      cases mem
  refine ⟨fun f hf => wf f (current f hf), fun f hf => opened.named f (current f hf),
    fun f g hf hg same => ?_, fun e mem => (written e).mpr mem,
    fun e mem => ⟨e, (written e).mp mem, rfl, le_rfl⟩, fun i => by rw [idle i]; exact trivial⟩
  by_contra ne
  have symm : Std.Symm fun f g : File => f.lastWriteTime ≠ g.lastWriteTime := ⟨fun _ _ h => h.symm⟩
  exact List.Pairwise.forall opened.distinct (current f hf) (current g hg) ne same

theorem step_inv {a : Action} (inv : Inv deps s) (taken : step deps s a = some s') :
    Inv deps s' := by
  cases step_cases taken with
  | flush idle flushed => exact inv.createFor 0 (flushTables_spec flushed).1 (fun f hf => Or.inl hf) trivial
  | start idle => exact inv.release rfl trivial
  | probedAll probing last => exact inv.release rfl trivial
  | pin probing more need => exact inv.setTask s.busy (fun f hf => Or.inl hf) inv.sub
  | nextLevel probing more small => exact inv.release rfl trivial
  | refused pinned below taken => exact inv.release rfl trivial
  | enter pinned below free =>
    obtain ⟨ok, files⟩ := inv.at_task pinned
    exact inv.setTask _ files ok
  | @merge i l r version ts delta merging compacted =>
    obtain ⟨ok, files⟩ := inv.at_task merging
    obtain ⟨-, -, chosen, spec⟩ := compact_spec (fun f hf => inv.wf f (files f hf)) compacted
    have inVersion : ∀ f ∈ delta.compacted, f ∈ version :=
      fun f hf => (compactionInputs_mem chosen hf).1
    exact inv.setTask _ (fun f hf => files f (inVersion f hf))
      ⟨spec, (Version.contents_mono inVersion).trans ok⟩
  | nothing merged empty => exact inv.release rfl trivial
  | @write i l newtables inputs merged some_table =>
    obtain ⟨ok, files⟩ := inv.at_task merged
    refine inv.createFor (l + 1) ok.1.wf (fun f hf => ?_) ?_
    · rcases List.mem_append.mp hf with new | input
      · exact Or.inl new
      · exact Or.inr (files f input)
    · rw [TaskInv, contents_createFiles]
      exact ⟨ok.1.sub.trans ok.2, ok.1.cover⟩
  | compacted held =>
    obtain ⟨ok, files⟩ := inv.at_task held
    exact inv.apply (fun f hf => files f (List.mem_append_left _ hf))
      (fun f hf => files f (List.mem_append_right _ hf)) (fun e he => he) ok.1 ok.2
      (fun e he => Or.inl he)
  | @flushed i newfiles held =>
    obtain ⟨-, files⟩ := inv.at_task held
    have entries : ∀ e, e ∈ newfiles.flatMap (·.table.entries) ↔ e ∈ Version.contents newfiles :=
      fun e => List.mem_flatMap
    refine inv.apply files (by simp) (fun e he => List.mem_append_left _ he)
      (fun e he => List.mem_append_right _ ((entries e).mpr he)) ?_ (fun e he => ?_)
    · rintro e ⟨f, hf, -⟩
      simp at hf
    · exact (List.mem_append.mp he).imp_right (entries e).mp

theorem inv_of_reach (reached : Reach (machine deps) (fun _ _ => True) s) : Inv deps s :=
  reached.invariant (fun _ initial => init_inv initial)
    fun _ _ _ inv _ taken => step_inv inv taken

theorem step_written {a : Action} (taken : step deps s a = some s') :
    ∃ new, s'.written = s.written ++ new := by
  cases step_cases taken with
  | flushed held => exact ⟨_, rfl⟩
  | _ => exact ⟨[], (List.append_nil _).symm⟩

/-- A step leaves the newest entry of a key, or a newer one. -/
theorem Inv.newest_kept (inv : Inv deps s) {a : Action} (taken : step deps s a = some s') {uk : UserKey}
    {e : KvEntry} (newest : IsNewest s.store.current.contents uk e) :
    ∃ e', IsNewest s'.store.current.contents uk e' ∧ (e'.key = e.key ∨ e.seq < e'.seq) ∧
      ((∀ x ∈ s'.written, ∀ y ∈ s'.written, x.key = y.key → x = y) → e' = e ∨ e.seq < e'.seq) := by
  have inv' := step_inv inv taken
  obtain ⟨mem, key, -⟩ := newest
  obtain ⟨new, grown⟩ := step_written taken
  have written : e ∈ s'.written := by
    rw [grown]
    exact List.mem_append_left _ (inv.sub mem)
  obtain ⟨x, hx, xKey, xSeq⟩ := inv'.covers e written
  cases found : newestOfAllFiles .tables s'.store.current uk with
  | none => exact absurd (xKey.trans key) (newestOfAllFiles_eq_none found x hx)
  | some e' =>
    obtain ⟨mem', key', top⟩ := newestOfAllFiles_eq_some found
    have le : e.seq ≤ e'.seq := xSeq.trans (top x hx (xKey.trans key))
    have sameKey : e.seq = e'.seq → e'.key = e.key :=
      fun eq => KvEntry.key_eq (key'.trans key.symm) eq.symm
    refine ⟨e', ⟨mem', key', top⟩, ?_, fun unique => ?_⟩
    · rcases le.eq_or_lt with eq | lt
      · exact Or.inl (sameKey eq)
      · exact Or.inr lt
    · rcases le.eq_or_lt with eq | lt
      · exact Or.inl (unique e' (inv'.sub mem') e written (sameKey eq))
      · exact Or.inr lt

/-- Two compactions that start from the same version and share their inputs. -/
def sharedInputs : List Action :=
  let put i es := [Action.flush i (Memtable.ofEntries Options.twoFileLevels es), .update i]
  put 0 [KvEntry.brief 1 1 10, KvEntry.brief 2 2 10] ++ put 0 [KvEntry.brief 1 3 11] ++
    put 0 [KvEntry.brief 3 4 10] ++
    [.start 1 0 1, .start 2 0 1, .probe 1, .probe 2, .enter 1, .merge 1, .enter 2, .merge 2] ++
    put 0 [KvEntry.brief 1 5 12] ++ [.write 2, .update 2, .write 1, .update 1]

end FrenzyKV.ConcurrentCompaction
