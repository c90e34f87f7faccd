import FrenzyKV.Store.ConcurrentCompaction

namespace FrenzyKV.CompactionExclusion

open Framework ConcurrentCompaction

/-- The flushes and compactions, with two ghosts: the calls that were made so far and the
inputs of each compaction whose delta was applied. -/
structure State where
  base : ConcurrentCompaction.State
  calls : List Nat
  applied : List (List File)

def caller : Action → Nat
  | .flush i _ | .start i _ _ | .probe i | .enter i | .merge i | .write i | .update i => i

/-- The inputs that a compaction has picked. -/
def inputs : Task → List File
  | .merged _ _ inputs | .compacted _ inputs => inputs
  | .idle | .probing _ _ | .pinned _ _ _ | .merging _ _ _ | .flushed _ => []

/-- The files of a call that no version lists yet. -/
def newfiles : Task → List File
  | .compacted newfiles _ | .flushed newfiles => newfiles
  | .idle | .probing _ _ | .pinned _ _ _ | .merging _ _ _ | .merged _ _ _ => []

/-- The inputs of the compaction whose delta an action applies. -/
def appliedBy (s : ConcurrentCompaction.State) : Action → List (List File)
  | .update i =>
    match s.tasks i with
    | .compacted _ inputs => [inputs]
    | _ => []
  | _ => []

def step (deps : KvdbDeps) (s : State) (a : Action) : Option State :=
  (ConcurrentCompaction.step deps s.base a).map fun base =>
    ⟨base, s.calls.insert (caller a), s.applied ++ appliedBy s.base a⟩

def machine (deps : KvdbDeps) : Machine State Action where
  init s := Opened deps s.base.store ∧ (∀ i, s.base.tasks i = .idle) ∧ s.calls = [] ∧ s.applied = []
  step := step deps

/-- No sstable is an input of two compactions whose deltas were applied. -/
def Exclusive (s : State) : Prop :=
  s.applied.Pairwise fun is js => ∀ f ∈ is, ∀ g ∈ js, f.rank ≠ g.rank

/-- When a compaction picks its inputs, the current version still lists each of them, and no
compaction that has not yet finished has picked one of them. -/
def Unclaimed (deps : KvdbDeps) (s : State) : Action → Prop
  | .merge i =>
    match s.base.tasks i with
    | .merging l r version => ∀ files ∈ compactionInputs deps version l r, ∀ f ∈ files,
        f ∈ s.base.store.current ∧ ∀ j ∈ s.calls, f ∉ inputs (s.base.tasks j)
    | _ => True
  | _ => True

instance (deps : KvdbDeps) (s : State) : (a : Action) → Decidable (Unclaimed deps s a)
  | .merge i =>
    match h : s.base.tasks i with
    | .merging l r version =>
      decidable_of_iff (∀ files ∈ compactionInputs deps version l r, ∀ f ∈ files,
        f ∈ s.base.store.current ∧ ∀ j ∈ s.calls, f ∉ inputs (s.base.tasks j)) (by simp [Unclaimed, h])
    | .idle | .probing _ _ | .pinned _ _ _ | .merged _ _ _ | .compacted _ _ | .flushed _ =>
      isTrue (by simp [Unclaimed, h])
  | .flush _ _ | .start _ _ _ | .probe _ | .enter _ | .write _ | .update _ => isTrue trivial

/-- What the calls hold between them. -/
def held (f : Task → List File) (tasks : Nat → Task) (calls : List Nat) : List File :=
  calls.flatMap fun i => f (tasks i)

/-- All files: those of the current version, those that were compacted away, and those that
are yet to be listed. -/
def State.files (s : State) : List File :=
  s.base.store.current ++ (s.applied.flatten ++ held newfiles s.base.tasks s.calls)

def State.claims (s : State) : List File := held inputs s.base.tasks s.calls

structure Inv (deps : KvdbDeps) (s : State) : Prop where
  calls : s.calls.Nodup
  idle : ∀ i ∉ s.calls, s.base.tasks i = .idle
  named : ∀ f ∈ s.files,
    f.fileId = deps.uuid f.lastWriteTime ∧ f.lastWriteTime < s.base.store.created
  distinct : s.files.Pairwise (·.lastWriteTime ≠ ·.lastWriteTime)
  claims : s.claims.Nodup
  live : ∀ f ∈ s.claims, f ∈ s.base.store.current
  pinned : ∀ i l r version, s.base.tasks i = .pinned l r version ∨
    s.base.tasks i = .merging l r version → version.Nodup

variable {deps : KvdbDeps} {s s' : State} {i : Nat} {t : Task}

theorem nodup_of_times {files : List File}
    (distinct : files.Pairwise (·.lastWriteTime ≠ ·.lastWriteTime)) : files.Nodup :=
  distinct.imp fun ne same => ne (congrArg File.lastWriteTime same)

theorem rank_ne_of_time_ne {f g : File} (nameF : f.fileId = deps.uuid f.lastWriteTime)
    (nameG : g.fileId = deps.uuid g.lastWriteTime) (ne : f.lastWriteTime ≠ g.lastWriteTime) :
    f.rank ≠ g.rank := by
  intro same
  have ids : f.fileId = g.fileId := (Prod.mk.inj (toLex.injective same)).2
  rw [nameF, nameG] at ids
  exact ne (deps.uuid_injective ids)

/-- What one call holds and what the others hold, before and after the call is changed. -/
theorem held_split {f : Task → List File} (empty : f .idle = []) {tasks : Nat → Task}
    {calls : List Nat} (nodup : calls.Nodup) (idle : ∀ j ∉ calls, tasks j = .idle) (i : Nat)
    (t : Task) : ∃ others, (held f tasks calls).Perm (f (tasks i) ++ others) ∧
      (held f (Function.update tasks i t) (calls.insert i)).Perm (f t ++ others) := by
  have mem : i ∈ calls.insert i := List.mem_insert_self
  have nodup' : (calls.insert i).Nodup := nodup.insert
  have split := List.perm_cons_erase mem
  refine ⟨held f tasks ((calls.insert i).erase i), ?_, ?_⟩
  · by_cases old : i ∈ calls
    · rw [List.insert_of_mem old] at split ⊢
      exact split.flatMap_right _
    · rw [List.insert_of_not_mem old, List.erase_cons_head, idle i old, empty]
      exact List.Perm.refl _
  · refine (split.flatMap_right _).trans ?_
    rw [List.flatMap_cons, Function.update_self]
    refine List.Perm.append_left _ (List.Perm.of_eq ?_)
    refine List.flatMap_congr fun j hj => ?_
    have ne : j ≠ i := fun same => (nodup'.not_mem_erase (same ▸ hj))
    rw [Function.update_of_ne ne]

/-- Taking files of a version out of it parts the version. -/
theorem apply_perm {v : Version File} (distinct : v.Pairwise (File.rank · ≠ File.rank ·))
    {compacted added : List File} (nodup : compacted.Nodup) (sub : ∀ f ∈ compacted, f ∈ v) :
    (compacted ++ v.apply ⟨compacted, added⟩).Perm (added ++ v) := by
  by_cases empty : (compacted.isEmpty && added.isEmpty) = true
  · obtain ⟨rfl, rfl⟩ : compacted = [] ∧ added = [] := by simpa using empty
    exact List.Perm.refl _
  · rw [Version.apply, if_neg empty]
    let rest := SortedDifference.setDifference File.rank v.sort (Version.sort compacted)
    have perm : v.sort.Perm v := List.perm_insertionSort _ v
    have ascending : v.sort.Pairwise (File.rank · < File.rank ·) :=
      (Version.sort_ascending v).imp₂ (fun _ _ le ne => lt_of_le_of_ne le ne)
        (perm.symm.pairwise distinct fun ne => ne.symm)
    have restSub : rest.Sublist v.sort := SortedDifference.setDifference_sublist _ _ _
    have vNodup : v.Nodup := distinct.imp fun ne same => ne (congrArg File.rank same)
    have apart : ∀ f ∈ rest, ∀ g ∈ compacted, f.rank ≠ g.rank := fun f hf g hg =>
      SortedDifference.not_ranked_of_mem_setDifference _ ascending (Version.sort_ascending _) hf g
        (Version.mem_sort.mpr hg)
    have parts : (compacted ++ rest).Perm v := by
      refine (List.perm_ext_iff_of_nodup ?_ vNodup).mpr fun f => ?_
      · refine List.nodup_append.mpr ⟨nodup, (perm.nodup_iff.mpr vNodup).sublist restSub, ?_⟩
        rintro f hf g hg rfl
        exact apart f hg f hf rfl
      · rw [List.mem_append]
        constructor
        · rintro (taken | left)
          · exact sub f taken
          · exact Version.mem_sort.mp (restSub.subset left)
        · intro mem
          by_cases taken : f ∈ compacted
          · exact Or.inl taken
          · refine Or.inr (SortedDifference.mem_setDifference_of_not_ranked _
              (Version.mem_sort.mpr mem) fun g hg same => ?_)
            have hg := Version.mem_sort.mp hg
            have ne : f ≠ g := fun eq => taken (eq ▸ hg)
            have symm : Std.Symm fun f g : File => f.rank ≠ g.rank := ⟨fun _ _ h => h.symm⟩
            exact List.Pairwise.forall distinct mem (sub g hg) ne same
    calc compacted ++ (added ++ rest)
      _ = (compacted ++ added) ++ rest := (List.append_assoc ..).symm
      List.Perm _ ((added ++ compacted) ++ rest) := List.perm_append_comm.append_right _
      _ = added ++ (compacted ++ rest) := List.append_assoc ..
      List.Perm _ (added ++ v) := parts.append_left _

theorem compact_inputs {v : Version File} {l : Nat} {r : ThreshRatio} {ts : List Sstable} {delta : VersionDelta}
    (done : compact deps v l r = some (ts, delta)) :
    compactionInputs deps v l r = some delta.compacted := by
  rw [compact] at done
  split at done
  · simp at done
  · obtain ⟨files, chosen, rest⟩ := Option.bind_eq_some_iff.mp done
    obtain ⟨merged, -, rest⟩ := Option.bind_eq_some_iff.mp rest
    obtain ⟨newtables, -, eq⟩ := Option.map_eq_some_iff.mp rest
    obtain ⟨rfl, rfl⟩ := Prod.mk.inj eq
    exact chosen

theorem compactionInputs_nodup {v : Version File} (nodup : v.Nodup) {l : Nat} {r : ThreshRatio}
    {files : List File} (chosen : compactionInputs deps v l r = some files) : files.Nodup := by
  obtain ⟨all, eq, rfl⟩ := Option.map_eq_some_iff.mp chosen
  refine List.Nodup.sublist (List.take_sublist _ _) ?_
  have level : ∀ m, (withLevel v m).Nodup := fun m => nodup.filter _
  have sorted : ∀ m, (sortByLastWriteTime (withLevel v m)).Nodup :=
    fun m => (List.perm_insertionSort _ _).nodup_iff.mpr (level m)
  have front : (sortByLastWriteTime (withLevel v l)).dropLast.Nodup :=
    (sorted l).sublist (List.dropLast_sublist _)
  simp only [compactingFiles] at eq
  split at eq
  · simp at eq
  · split at eq
    · obtain rfl := Option.some.inj eq
      exact List.nodup_nil
    · rename_i first rest dropped
      rw [dropped] at front
      split_ifs at eq with few deep
      · obtain rfl := Option.some.inj eq
        refine List.nodup_append.mpr ⟨front, ?_, ?_⟩
        · exact ((deps.sortByFileSize_perm _).nodup_iff.mpr (sorted _)).filter _
        · rintro f hf g hg rfl
          have inSort : f ∈ sortByLastWriteTime (withLevel v l) :=
            (List.dropLast_sublist _).subset (dropped ▸ hf)
          have low := (mem_withLevel.mp (mem_sortByLastWriteTime.mp inSort)).2
          have high := (mem_pulledFiles.mp hg).2.1
          omega
      · obtain rfl := Option.some.inj eq
        exact front

/-- The files of call `i` before a step and after it, when the step makes the files `fresh`. -/
structure Moves (deps : KvdbDeps) (s : State) (i : Nat) (t : Task)
    (base : ConcurrentCompaction.State) (applied : List (List File)) (fresh : List File) : Prop where
  tasks : base.tasks = Function.update s.base.tasks i t
  created : s.base.store.created ≤ base.store.created
  files : (base.store.current ++ (applied.flatten ++ newfiles t)).Perm
    (fresh ++ (s.base.store.current ++ (s.applied.flatten ++ newfiles (s.base.tasks i))))
  times : fresh.Pairwise (·.lastWriteTime ≠ ·.lastWriteTime)
  names : ∀ f ∈ fresh, f.fileId = deps.uuid f.lastWriteTime ∧
    s.base.store.created ≤ f.lastWriteTime ∧ f.lastWriteTime < base.store.created

theorem Inv.moves (inv : Inv deps s) {base : ConcurrentCompaction.State}
    {applied : List (List File)} {fresh : List File} (moves : Moves deps s i t base applied fresh)
    (nodup : (inputs t).Nodup)
    (apart : ∀ f ∈ inputs t, f ∈ inputs (s.base.tasks i) ∨ f ∉ s.claims)
    (listed : ∀ f ∈ inputs t, f ∈ base.store.current)
    (stays : ∀ f ∈ s.base.store.current, f ∉ inputs (s.base.tasks i) → f ∈ base.store.current)
    (pinned : ∀ l r version, t = .pinned l r version ∨ t = .merging l r version → version.Nodup) :
    Inv deps ⟨base, s.calls.insert i, applied⟩ := by
  obtain ⟨others, before, after⟩ := held_split (f := newfiles) rfl inv.calls inv.idle i t
  rw [← moves.tasks] at after
  have files : (State.files ⟨base, s.calls.insert i, applied⟩).Perm (fresh ++ s.files) := by
    calc base.store.current ++ (applied.flatten ++ held newfiles base.tasks (s.calls.insert i))
      List.Perm _ (base.store.current ++ (applied.flatten ++ (newfiles t ++ others))) :=
        (after.append_left _).append_left _
      _ = (base.store.current ++ (applied.flatten ++ newfiles t)) ++ others := by simp
      List.Perm _ (fresh ++ (s.base.store.current ++ (s.applied.flatten ++
          newfiles (s.base.tasks i))) ++ others) := moves.files.append_right _
      _ = fresh ++ (s.base.store.current ++ (s.applied.flatten ++
          (newfiles (s.base.tasks i) ++ others))) := by simp
      List.Perm _ (fresh ++ s.files) :=
        (((before.symm.append_left _).append_left _).append_left _)
  obtain ⟨rest, claimsBefore, claimsAfter⟩ := held_split (f := inputs) rfl inv.calls inv.idle i t
  rw [← moves.tasks] at claimsAfter
  have parts : (inputs (s.base.tasks i) ++ rest).Nodup := claimsBefore.nodup_iff.mp inv.claims
  obtain ⟨-, restNodup, cross⟩ := List.nodup_append.mp parts
  have inClaims : ∀ f ∈ rest, f ∈ s.claims :=
    fun f hf => claimsBefore.mem_iff.mpr (List.mem_append_right _ hf)
  constructor
  case calls => exact inv.calls.insert
  case idle =>
    intro j hj
    change base.tasks j = .idle
    rw [List.mem_insert_iff, not_or] at hj
    rw [moves.tasks, Function.update_of_ne hj.1]
    exact inv.idle j hj.2
  case named =>
    intro f hf
    cases List.mem_append.mp (files.mem_iff.mp hf) with
    | inl new => exact ⟨(moves.names f new).1, (moves.names f new).2.2⟩
    | inr old => exact ⟨(inv.named f old).1, (inv.named f old).2.trans_le moves.created⟩
  case distinct =>
    refine files.symm.pairwise ?_ fun ne => ne.symm
    refine List.pairwise_append.mpr ⟨moves.times, inv.distinct, fun f hf g hg same => ?_⟩
    have low := (moves.names f hf).2.1
    have high := (inv.named g hg).2
    omega
  case claims =>
    refine claimsAfter.nodup_iff.mpr (List.nodup_append.mpr ⟨nodup, restNodup, ?_⟩)
    rintro f hf g hg rfl
    cases apart f hf with
    | inl own => exact cross f own f hg rfl
    | inr free => exact free (inClaims f hg)
  case live =>
    intro f hf
    cases List.mem_append.mp (claimsAfter.mem_iff.mp hf) with
    | inl own => exact listed f own
    | inr other =>
      exact stays f (inv.live f (inClaims f other)) fun own => cross f own f other rfl
  case pinned =>
    intro j l r version at_
    change base.tasks j = _ ∨ base.tasks j = _ at at_
    rw [moves.tasks] at at_
    by_cases same : j = i
    · subst same
      rw [Function.update_self] at at_
      exact pinned l r version at_
    · rw [Function.update_of_ne same] at at_
      exact inv.pinned j l r version at_

/-- A step that leaves the store alone. -/
theorem Inv.setTask (inv : Inv deps s) (busy : Nat → Bool) (nodup : (inputs t).Nodup)
    (apart : ∀ f ∈ inputs t, f ∈ inputs (s.base.tasks i) ∨ f ∉ s.claims)
    (listed : ∀ f ∈ inputs t, f ∈ s.base.store.current) (nothing : newfiles t = [])
    (before : newfiles (s.base.tasks i) = [])
    (pinned : ∀ l r version, t = .pinned l r version ∨ t = .merging l r version → version.Nodup) :
    Inv deps ⟨{ s.base.setTask i t with busy }, s.calls.insert i, s.applied⟩ := by
  have moves : Moves deps s i t { s.base.setTask i t with busy } s.applied [] := by
    constructor
    case tasks => rfl
    case created => exact le_rfl
    case files => rw [nothing, before]; exact List.Perm.refl _
    case times => exact List.Pairwise.nil
    case names => simp
  exact inv.moves moves nodup apart listed (fun f hf _ => hf) pinned

/-- A step after which the call holds no file. -/
theorem Inv.setEmpty (inv : Inv deps s) (busy : Nat → Bool) (unclaimed : inputs t = [])
    (nothing : newfiles t = []) (before : newfiles (s.base.tasks i) = [])
    (pinned : ∀ l r version, t = .pinned l r version ∨ t = .merging l r version → version.Nodup) :
    Inv deps ⟨{ s.base.setTask i t with busy }, s.calls.insert i, s.applied⟩ := by
  apply inv.setTask busy _ _ _ nothing before pinned
  · rw [unclaimed]
    exact List.nodup_nil
  · intro f hf
    rw [unclaimed] at hf
    cases hf
  · intro f hf
    rw [unclaimed] at hf
    cases hf

/-- A step that creates files. -/
theorem Inv.createFor (inv : Inv deps s) {level : Nat} {ts : List Sstable}
    (new : newfiles t = createFiles deps level s.base.store.created ts)
    (same : inputs t = inputs (s.base.tasks i)) (before : newfiles (s.base.tasks i) = [])
    (pinned : ∀ l r version, t = .pinned l r version ∨ t = .merging l r version → version.Nodup) :
    Inv deps ⟨s.base.createFor i ts t, s.calls.insert i, s.applied⟩ := by
  have moves : Moves deps s i t (s.base.createFor i ts t) s.applied
      (createFiles deps level s.base.store.created ts) := by
    constructor
    case tasks => rfl
    case created => exact Nat.le_add_right _ _
    case files =>
      rw [new, before, List.append_nil, ← List.append_assoc]
      exact List.perm_append_comm
    case times => exact createFiles_times.imp fun lt => lt.ne
    case names =>
      intro f hf
      obtain ⟨-, -, name, low, high⟩ := mem_createFiles hf
      exact ⟨name, low, high⟩
  have own : ∀ f ∈ inputs (s.base.tasks i), f ∈ s.claims := by
    obtain ⟨rest, split, -⟩ := held_split (f := inputs) rfl inv.calls inv.idle i t
    exact fun f hf => split.mem_iff.mpr (List.mem_append_left _ hf)
  have nodup : (inputs (s.base.tasks i)).Nodup := by
    obtain ⟨rest, split, -⟩ := held_split (f := inputs) rfl inv.calls inv.idle i t
    exact (List.nodup_append.mp (split.nodup_iff.mp inv.claims)).1
  exact inv.moves moves (same ▸ nodup) (fun f hf => Or.inl (same ▸ hf))
    (fun f hf => inv.live f (own f (same ▸ hf))) (fun f hf _ => hf) pinned

theorem Inv.current_ranks (inv : Inv deps s) :
    s.base.store.current.Pairwise (File.rank · ≠ File.rank ·) := by
  have current : ∀ f ∈ s.base.store.current, f ∈ s.files := fun f hf => List.mem_append_left _ hf
  refine (List.pairwise_append.mp inv.distinct).1.imp_of_mem fun {f g} hf hg ne => ?_
  exact rank_ne_of_time_ne (inv.named f (current f hf)).1 (inv.named g (current g hg)).1 ne

/-- The end of a call: its new files come in, its inputs go. -/
theorem Inv.apply (inv : Inv deps s) {new picked : List File} {gone : List (List File)}
    {written : List KvEntry} (files : newfiles (s.base.tasks i) = new)
    (claimed : inputs (s.base.tasks i) = picked) (flat : gone.flatten = picked) :
    Inv deps ⟨s.base.applyFor i picked new written, s.calls.insert i, s.applied ++ gone⟩ := by
  obtain ⟨rest, split, -⟩ := held_split (f := inputs) rfl inv.calls inv.idle i .idle
  rw [claimed] at split
  have nodup : picked.Nodup := (List.nodup_append.mp (split.nodup_iff.mp inv.claims)).1
  have listed : ∀ f ∈ picked, f ∈ s.base.store.current := fun f hf =>
    inv.live f (split.mem_iff.mpr (List.mem_append_left _ hf))
  have parts : (picked ++ s.base.store.current.apply ⟨picked, new⟩).Perm
      (new ++ s.base.store.current) := apply_perm inv.current_ranks nodup listed
  have moves : Moves deps s i .idle (s.base.applyFor i picked new written) (s.applied ++ gone) [] := by
    constructor
    case tasks => rfl
    case created => exact le_rfl
    case times => exact List.Pairwise.nil
    case names => simp
    case files =>
      rw [List.flatten_append, flat, files]
      change (s.base.store.current.apply ⟨picked, new⟩ ++ (s.applied.flatten ++ picked ++ [])).Perm _
      have grown : (s.base.store.current.apply ⟨picked, new⟩ ++ picked).Perm
          (s.base.store.current ++ new) :=
        List.perm_append_comm.trans (parts.trans List.perm_append_comm)
      calc s.base.store.current.apply ⟨picked, new⟩ ++ (s.applied.flatten ++ picked ++ [])
        List.Perm _ (s.base.store.current.apply ⟨picked, new⟩ ++ (picked ++ s.applied.flatten)) := by
          rw [List.append_nil]
          exact List.perm_append_comm.append_left _
        _ = (s.base.store.current.apply ⟨picked, new⟩ ++ picked) ++ s.applied.flatten :=
          (List.append_assoc ..).symm
        List.Perm _ ((s.base.store.current ++ new) ++ s.applied.flatten) := grown.append_right _
        _ = s.base.store.current ++ (new ++ s.applied.flatten) := List.append_assoc ..
        List.Perm _ (s.base.store.current ++ (s.applied.flatten ++ new)) :=
          List.perm_append_comm.append_left _
  refine inv.moves moves List.nodup_nil (by simp [inputs]) (by simp [inputs]) (fun f hf free => ?_)
    (by simp)
  rw [claimed] at free
  have mem := parts.mem_iff.mpr (List.mem_append_right new hf)
  exact (List.mem_append.mp mem).resolve_left free

theorem init_inv (initial : (machine deps).init s) : Inv deps s := by
  obtain ⟨opened, idle, calls, applied⟩ := initial
  have files : s.files = s.base.store.current := by
    simp [State.files, calls, applied, held]
  have claims : s.claims = [] := by simp [State.claims, calls, held]
  constructor
  case calls => exact calls ▸ List.nodup_nil
  case idle => exact fun i _ => idle i
  case named => exact files ▸ opened.named
  case distinct => exact files ▸ opened.distinct
  case claims => exact claims ▸ List.nodup_nil
  case live => simp [claims]
  case pinned => simp [idle]

/-- Only the choice of inputs needs the condition. -/
theorem step_inv {a : Action} (inv : Inv deps s) (free : Unclaimed deps s a)
    (taken : step deps s a = some s') : Inv deps s' := by
  obtain ⟨base, moved, rfl⟩ := Option.map_eq_some_iff.mp taken
  cases step_cases moved with
  | flush idle flushed =>
    simp only [appliedBy, List.append_nil, caller]
    exact inv.createFor rfl (by rw [idle]; rfl) (by rw [idle]; rfl) (by simp)
  | start idle =>
    simp only [appliedBy, List.append_nil, caller]
    exact inv.setEmpty s.base.busy rfl rfl (by rw [idle]; rfl) (by simp)
  | probedAll probing last =>
    simp only [appliedBy, List.append_nil, caller]
    exact inv.setEmpty s.base.busy rfl rfl (by rw [probing]; rfl) (by simp)
  | pin probing more need =>
    simp only [appliedBy, List.append_nil, caller]
    have current : s.base.store.current.Nodup :=
      nodup_of_times (List.pairwise_append.mp inv.distinct).1
    refine inv.setEmpty s.base.busy rfl rfl (by rw [probing]; rfl) ?_
    rintro l' r' version (eq | eq)
    · cases eq
      exact current
    · cases eq
  | nextLevel probing more small =>
    simp only [appliedBy, List.append_nil, caller]
    exact inv.setEmpty s.base.busy rfl rfl (by rw [probing]; rfl) (by simp)
  | refused pinned below taken =>
    simp only [appliedBy, List.append_nil, caller]
    exact inv.setEmpty s.base.busy rfl rfl (by rw [pinned]; rfl) (by simp)
  | @enter i l r version pinned below unused =>
    simp only [appliedBy, List.append_nil, caller]
    refine inv.setEmpty _ rfl rfl (by rw [pinned]; rfl) ?_
    rintro l' r' version' (eq | eq)
    · cases eq
    · cases eq
      exact inv.pinned i l r version (Or.inl pinned)
  | @merge i l r version ts delta merging compacted =>
    simp only [appliedBy, List.append_nil, caller]
    have chosen := compact_inputs compacted
    simp only [Unclaimed, merging] at free
    have picked := free delta.compacted chosen
    have nodup := compactionInputs_nodup (inv.pinned i l r version (Or.inr merging)) chosen
    refine inv.setTask _ nodup (fun f hf => Or.inr fun claimed => ?_) (fun f hf => (picked f hf).1)
      rfl (by rw [merging]; rfl) (by simp)
    obtain ⟨j, hj, mem⟩ := List.mem_flatMap.mp claimed
    exact (picked f hf).2 j hj mem
  | nothing merged empty =>
    simp only [appliedBy, List.append_nil, caller]
    exact inv.setEmpty s.base.busy rfl rfl (by rw [merged]; rfl) (by simp)
  | write merged some_table =>
    simp only [appliedBy, List.append_nil, caller]
    exact inv.createFor rfl (by rw [merged]; rfl) (by rw [merged]; rfl) (by simp)
  | compacted held =>
    simp only [appliedBy, held, caller]
    exact inv.apply (by rw [held]; rfl) (by rw [held]; rfl) (by simp)
  | flushed held =>
    simp only [appliedBy, held, caller]
    exact inv.apply (by rw [held]; rfl) (by rw [held]; rfl) rfl

/-- While every compaction picks only files that are still listed and that no unfinished
compaction has picked, no sstable is compacted twice. -/
theorem compactions_exclusive (reached : Reach (machine deps) (Unclaimed deps) s) :
    Exclusive s := by
  have inv : Inv deps s := reached.invariant (fun _ initial => init_inv initial)
    fun _ _ _ inv free taken => step_inv inv free taken
  have gone : ∀ f ∈ s.applied.flatten, f ∈ s.files := fun f hf =>
    List.mem_append_right _ (List.mem_append_left _ hf)
  have apart := (List.pairwise_append.mp (List.pairwise_append.mp inv.distinct).2.1).1
  refine (List.pairwise_flatten.mp apart).2.imp_of_mem fun {is js} his hjs times f hf g hg => ?_
  have nameF := (inv.named f (gone f (List.mem_flatten.mpr ⟨is, his, hf⟩))).1
  have nameG := (inv.named g (gone g (List.mem_flatten.mpr ⟨js, hjs, hg⟩))).1
  exact rank_ne_of_time_ne nameF nameG (times f hf g hg)

section Runs

instance (s : State) : Decidable (Exclusive s) := inferInstanceAs (Decidable (List.Pairwise _ _))

def start : State := ⟨⟨Store.empty, fun _ => .idle, fun _ => false, []⟩, [], []⟩

theorem start_initial (deps : KvdbDeps) : (machine deps).init start := by
  refine ⟨⟨?_, List.Pairwise.nil⟩, fun i => rfl, rfl, rfl⟩
  intro f hf
  simp [start, Store.empty] at hf

def put (es : List KvEntry) : List Action :=
  [.flush 0 (Memtable.ofEntries Options.twoFileLevels es), .update 0]

def compaction (i : Nat) : List Action :=
  [.start i 0 1, .probe i, .enter i, .merge i, .write i, .update i]

/-- Two compactions of level 0, the second one after the first is done. -/
def oneAfterAnother : List Action :=
  put [KvEntry.brief 1 1 10, KvEntry.brief 2 2 10] ++ put [KvEntry.brief 1 3 11] ++
    put [KvEntry.brief 3 4 10] ++ compaction 1 ++ put [KvEntry.brief 4 5 10] ++
    put [KvEntry.brief 1 6 12] ++ compaction 2

theorem compactions_exclusive_oneAfterAnother :
    ∃ s, (machine (KvdbDeps.plain Options.twoFileLevels)).run start oneAfterAnother = some s ∧
      s.applied.length = 2 ∧ Exclusive s := by
  obtain ⟨s, ran, twice⟩ : ∃ s ∈ ((machine (KvdbDeps.plain Options.twoFileLevels)).restrict
      (Unclaimed (KvdbDeps.plain Options.twoFileLevels))).run start oneAfterAnother, s.applied.length = 2 := by decide +kernel
  have reached : Reach (machine _) (Unclaimed _) s := Machine.reach_of_restrict
    (Machine.reach_of_run _ (fun _ _ => trivial) (.init (start_initial _)) ran)
  exact ⟨s, Machine.run_of_restrict ran, twice, compactions_exclusive reached⟩

/-- Both compactions pick their inputs from one version: the flag of the level is clear again
when the first one has merged its tables, long before it applies its delta. -/
theorem compactions_share_inputs :
    ∃ s, Reach (machine (KvdbDeps.plain Options.twoFileLevels)) (fun _ _ => True) s ∧
      ¬ Exclusive s := by
  obtain ⟨s, ran, shared⟩ : ∃ s ∈ (machine (KvdbDeps.plain Options.twoFileLevels)).run start
      sharedInputs, ¬ Exclusive s := by decide +kernel
  exact ⟨s, Machine.reach_of_run _ (fun _ _ => trivial) (.init (start_initial _)) ran, shared⟩

end Runs

end FrenzyKV.CompactionExclusion
