import FrenzyKV.Store.ReadYourWrites

namespace FrenzyKV.Calls

open Framework

/-- The newest inserted entry of a key whose number is not above `n`. -/
def newestVisible (inserted : List KvEntry) (n : Nat) (key : UserKey) : Option KvEntry :=
  (inserted.filter fun e => e.userKey = key ∧ e.seq ≤ n).argmax KvEntry.seq

/-- The answer of a `get` through a snapshot whose two lookups happen now; no result means that a
table cannot be read. -/
def readNow (deps : DiskDeps) (s : State) (snap : Snapshot DiskFile) (key : UserKey) :
    Option (Option KvEntry) :=
  match s.mem.get ⟨snap.seq, key⟩ with
  | some e => some (answer e)
  | none => (DiskStore.findFromSsts deps snap.version ⟨snap.seq, key⟩).map (·.bind answer)

/-- A snapshot that may still be looked through in memory. The first part is missing while
its number is not read. -/
abbrev Reader := Option (Snapshot DiskFile) × List KvEntry

def SnapshotPhase.readers (s : State) : SnapshotPhase → List Reader
  | .pinned _ => [(none, s.returned)]
  | .taken snap inserted => if snap.valid then [(some snap, inserted)] else []
  | .dropped => []

def Get.readers (g : Get) : List Reader :=
  match g.option, g.phase with
  | some snap, .snapped _ | some snap, .keyed _ _ => [(some snap, g.seen)]
  | _, _ => []

def State.readers (s : State) : List Reader :=
  s.snapshots.flatMap (SnapshotPhase.readers s) ++ s.gets.flatMap Get.readers

/-- No flush takes an entry that a reader has to see out of memory, and no write whose
number a reader includes becomes the newest version of its key there. -/
def ReadersKeep (s : State) : Action → Prop
  | .insertStep i => ∀ reader ∈ s.readers,
      (∀ m ∈ s.publishing i, ∀ e ∈ reader.2, e ∉ m.storage) ∧
      ∀ b ∈ s.applying i, ∀ snap ∈ reader.1, ∀ e ∈ b.entries, e.seq ≤ snap.seq →
        ∃ x ∈ reader.2, x.userKey = e.userKey ∧ e.seq ≤ x.seq
  | _ => True

instance (s : State) : (a : Action) → Decidable (ReadersKeep s a)
  | .insertStep i => inferInstanceAs (Decidable (∀ reader ∈ s.readers,
      (∀ m ∈ s.publishing i, ∀ e ∈ reader.2, e ∉ m.storage) ∧
      ∀ b ∈ s.applying i, ∀ snap ∈ reader.1, ∀ e ∈ b.entries, e.seq ≤ snap.seq →
        ∃ x ∈ reader.2, x.userKey = e.userKey ∧ e.seq ≤ x.seq))
  | .insert _ | .getSnapshot | .snapshotStep _ | .dropSnapshot _ | .get _ _ | .getStep _
  | .mayCompact _ _ | .doGC => isTrue trivial

/-- Memory and the files of a snapshot show exactly the newest of the seen entries. -/
structure Stable (deps : DiskDeps) (s : State) (snap : Snapshot DiskFile) (seen : List KvEntry) :
    Prop where
  readable : Readable deps s snap seen
  returned : ∀ e ∈ seen, e ∈ s.returned
  contents : ∀ e ∈ DiskStore.contents deps.table snap.version, e ∈ seen
  hidden : ∀ y ∈ s.inMemory, y.seq ≤ snap.seq → ∃ x ∈ seen, x.userKey = y.userKey ∧ y.seq ≤ x.seq

/-- What a call through snapshot `snap` relies on in each phase. -/
def SnapPhaseOk (deps : DiskDeps) (s : State) (key : UserKey) (snap : Snapshot DiskFile)
    (seen : List KvEntry) : GetPhase → Prop
  | .snapped snap' => snap' = snap ∧ Stable deps s snap seen
  | .keyed snap' seq => snap' = snap ∧ seq = snap.seq ∧ Stable deps s snap seen
  | .missed snap' seq => snap' = snap ∧ seq = snap.seq ∧ InFiles deps s snap key seen ∧
      (∀ e ∈ seen, e ∈ s.returned) ∧ (∀ e ∈ DiskStore.contents deps.table snap.version, e ∈ seen) ∧
      ∀ e ∈ seen, e.seq ≤ snap.seq
  | .done result => result = (newestVisible seen snap.seq key).bind answer
  | .started | .pinned _ => False

def SnapshotOk (deps : DiskDeps) (s : State) : SnapshotPhase → Prop
  | .pinned v => View deps s v s.returned
  | .taken snap inserted => snap.valid = true → Stable deps s snap inserted
  | .dropped => True

structure SnapInv (deps : DiskDeps) (s : State) : Prop where
  base : Base deps s
  snapshots : ∀ p ∈ s.snapshots, SnapshotOk deps s p
  gets : ∀ g ∈ s.gets, ∀ snap, g.option = some snap →
    snap.valid = true ∧ SnapPhaseOk deps s g.key snap g.seen g.phase

variable {deps : DiskDeps} {compressor : CompressorPolicy} {s s' : State} {a : Action} {g : Get}
  {key : UserKey} {seen : List KvEntry} {snap : Snapshot DiskFile} {e : KvEntry}

/-- What names the newest visible entry, numbers being unique. -/
theorem newestVisible_eq_some (base : Base deps s) (returned : ∀ x ∈ seen, x ∈ s.returned)
    {n : Nat} (mem : e ∈ seen) (same : e.userKey = key) (below : e.seq ≤ n)
    (top : ∀ x ∈ seen, x.userKey = key → x.seq ≤ n → x.seq ≤ e.seq) :
    newestVisible seen n key = some e := by
  cases found : newestVisible seen n key with
  | none =>
    have empty := List.filter_eq_nil_iff.mp (List.argmax_eq_none.mp found) e mem
    simp [same, below] at empty
  | some x =>
    obtain ⟨inside, largest, -⟩ := List.mem_argmax_iff.mp (Option.mem_def.mpr found)
    simp only [List.mem_filter, decide_eq_true_eq] at inside largest
    have le := largest e ⟨mem, same, below⟩
    have ge := top x inside.1 inside.2.1 inside.2.2
    have keys := KvEntry.key_eq (inside.2.1.trans same.symm) (le_antisymm ge le)
    exact congrArg some (base.unique x (base.issued_of_returned x (returned x inside.1)) e
      (base.issued_of_returned e (returned e mem)) keys)

theorem newestVisible_eq_none {n : Nat} (absent : ∀ x ∈ seen, x.userKey ≠ key) :
    newestVisible seen n key = none := by
  apply List.argmax_eq_none.mpr
  apply List.filter_eq_nil_iff.mpr
  intro x hx both
  exact absent x hx (of_decide_eq_true both).1

theorem Stable.mem_get (stable : Stable deps s snap seen) (base : Base deps s)
    (free : s.memSection = .free) (found : s.mem.get ⟨snap.seq, key⟩ = some e) :
    newestVisible seen snap.seq key = some e := by
  obtain ⟨mem, same, below, -⟩ := Memtable.get_eq_some found
  have inMemory := (State.inMemory_of_free free e).mpr mem
  have top : ∀ x ∈ seen, x.userKey = key → x.seq ≤ snap.seq → x.seq ≤ e.seq :=
    fun x hx xKey le => stable.readable.view.le_of_mem_get free found hx xKey le
  -- an entry that the snapshot includes was inserted before it, or a newer one was
  obtain ⟨x, hx, xKey, le⟩ := stable.hidden e inMemory below
  have ge := top x hx (xKey.trans same) (stable.readable.below x hx)
  have keys := KvEntry.key_eq xKey (le_antisymm ge le)
  have eq := base.unique x (base.issued_of_returned x (stable.returned x hx)) e
    (base.issued_of_returned e (base.memory inMemory)) keys
  subst eq
  exact newestVisible_eq_some base stable.returned hx same below top

theorem InFiles.lookup (files : InFiles deps s snap key seen) (base : Base deps s)
    (opens : deps.Readable compressor) (short : key.size < 2 ^ 16)
    (returned : ∀ x ∈ seen, x ∈ s.returned)
    (contents : ∀ x ∈ DiskStore.contents deps.table snap.version, x ∈ seen) :
    DiskStore.findFromSsts deps snap.version ⟨snap.seq, key⟩ =
      some (newestVisible seen snap.seq key) := by
  obtain ⟨result, found, -⟩ := @DiskStore.findFromSsts_spec _ _ ⟨snap.seq, key⟩ _ opens files.legible
    files.ordered short fun x hx _ => files.bounded x hx
  rw [found]
  cases result with
  | none => rw [newestVisible_eq_none (files.findFromSsts_eq_none opens short found).2]
  | some e =>
    obtain ⟨mem, same, top⟩ := files.findFromSsts_eq_some opens short found
    rw [newestVisible_eq_some base returned (contents e mem) same (files.bounded e mem)
      fun x hx xKey _ => top x hx xKey]

/-- A stable snapshot is read alike at every moment. -/
theorem Stable.readNow (stable : Stable deps s snap seen) (base : Base deps s)
    (opens : deps.Readable compressor) (free : s.memSection = .free) (short : key.size < 2 ^ 16) :
    readNow deps s snap key = some ((newestVisible seen snap.seq key).bind answer) := by
  rw [Calls.readNow]
  cases found : s.mem.get ⟨snap.seq, key⟩ with
  | some e => rw [stable.mem_get base free found, Option.bind_some]
  | none =>
    have files := stable.readable.inFiles free found
    simp only [files.lookup base opens short stable.returned stable.contents, Option.map_some]

/-- What the steps of other calls have to leave alone for one reader. -/
def KeepsFor (s : State) (a : Action) (reader : Reader) : Prop :=
  ∀ i, a = .insertStep i →
    (∀ m, s.publishing i = some m → ∀ e ∈ reader.2, e ∉ m.storage) ∧
    ∀ b, s.applying i = some b → ∀ snap, reader.1 = some snap → ∀ e ∈ b.entries,
      e.seq ≤ snap.seq → ∃ x ∈ reader.2, x.userKey = e.userKey ∧ e.seq ≤ x.seq

theorem ReadersKeep.keepsFor (keep : ReadersKeep s a) {reader : Reader}
    (mem : reader ∈ s.readers) : KeepsFor s a reader := by
  intro i act
  subst act
  exact ⟨fun m pub => (keep reader mem).1 m pub, fun b app snap hsnap => (keep reader mem).2 b app snap hsnap⟩

theorem Stable.step (base : Base deps s) (stable : Stable deps s snap seen)
    (allowed : InOrder deps s a) (keep : KeepsFor s a (some snap, seen))
    (taken : step deps s a = some s') : Stable deps s' snap seen where
  readable := stable.readable.step base allowed (fun i m act pub => (keep i act).1 m pub) taken
  returned e he := returned_mono taken (stable.returned e he)
  contents := stable.contents
  hidden := by
    intro y hy below
    cases effect base allowed taken with
    | quiet memory _ _ => exact stable.hidden y (memory ▸ hy) below
    | compact memory _ _ _ => exact stable.hidden y (memory ▸ hy) below
    | publish _ published => simp [published.after] at hy
    | apply applying applied =>
      cases (applied.memory y).mp hy with
      | inl new => exact (keep _ rfl).2 _ applying snap rfl y new below
      | inr old => exact stable.hidden y old below

/-- A version that a snapshot is going to take keeps up with the returned entries. -/
theorem pinned_step (base : Base deps s) {v : Version DiskFile} (view : View deps s v s.returned)
    (allowed : InOrder deps s a) (keep : KeepsFor s a (none, s.returned))
    (taken : step deps s a = some s') : View deps s' v s'.returned := by
  have moved := view.step base allowed (fun i m act pub => (keep i act).1 m pub) taken
  cases effect base allowed taken with
  | quiet _ returned _ => exact returned ▸ moved
  | compact _ returned _ _ => exact returned ▸ moved
  | publish _ published => exact published.returned ▸ moved
  | apply _ applied =>
    refine { moved with kept := fun e he => ?_ }
    rw [applied.returned] at he
    cases List.mem_append.mp he with
    | inl old => exact moved.kept e old
    | inr new => exact Or.inl ((applied.memory e).mpr (Or.inl new))

theorem keepsFor_of_ne (noStep : ∀ i, a ≠ .insertStep i) (reader : Reader) :
    KeepsFor s a reader :=
  fun i act => absurd act (noStep i)

theorem SnapshotOk.step {p : SnapshotPhase} (base : Base deps s) (ok : SnapshotOk deps s p)
    (allowed : InOrder deps s a) (keep : ∀ reader ∈ p.readers s, KeepsFor s a reader)
    (taken : step deps s a = some s') : SnapshotOk deps s' p := by
  cases p with
  | pinned v => exact pinned_step base ok allowed (keep _ (List.mem_singleton.mpr rfl)) taken
  | taken snap inserted =>
    intro valid
    apply (ok valid).step base allowed _ taken
    exact keep _ (by simp [SnapshotPhase.readers, valid])
  | dropped => trivial

theorem SnapPhaseOk.step {phase : GetPhase} (base : Base deps s)
    (ok : SnapPhaseOk deps s key snap seen phase) (allowed : InOrder deps s a)
    (keep : ∀ reader ∈ (Get.mk key (some snap) seen phase).readers, KeepsFor s a reader)
    (taken : step deps s a = some s') : SnapPhaseOk deps s' key snap seen phase := by
  cases phase with
  | started | pinned _ => exact ok
  | snapped snap' =>
    obtain ⟨same, stable⟩ := ok
    exact ⟨same, stable.step base allowed (keep _ (List.mem_singleton.mpr rfl)) taken⟩
  | keyed snap' seq =>
    obtain ⟨same, number, stable⟩ := ok
    exact ⟨same, number, stable.step base allowed (keep _ (List.mem_singleton.mpr rfl)) taken⟩
  | missed snap' seq =>
    obtain ⟨same, number, files, returned, rest⟩ := ok
    exact ⟨same, number, files.step taken, fun e he => returned_mono taken (returned e he), rest⟩
  | done result => exact ok

/-- A call's own step leads from each phase to the next. -/
theorem SnapPhaseOk.next {phase : GetPhase} (base : Base deps s) (opens : deps.Readable compressor)
    (short : g.key.size < 2 ^ 16) (valid : snap.valid = true)
    (ok : SnapPhaseOk deps s g.key snap g.seen g.phase) (next : getStep deps s g = some phase) :
    SnapPhaseOk deps s g.key snap g.seen phase := by
  rw [getStep] at next
  split at next
  · rename_i eq
    rw [eq] at ok
    exact ok.elim
  · rename_i eq
    rw [eq] at ok
    exact ok.elim
  · rename_i snap' eq
    rw [eq] at ok
    obtain ⟨rfl, stable⟩ := ok
    obtain rfl := Option.some.inj next
    exact ⟨rfl, if_pos valid, stable⟩
  · rename_i snap' seq eq
    rw [eq] at ok
    obtain ⟨rfl, rfl, stable⟩ := ok
    split at next
    · rename_i free
      split at next
      · rename_i e found
        obtain rfl := Option.some.inj next
        change answer e = _
        rw [stable.mem_get base free found, Option.bind_some]
      · rename_i missed
        obtain rfl := Option.some.inj next
        exact ⟨rfl, rfl, stable.readable.inFiles free missed, stable.returned, stable.contents,
          stable.readable.below⟩
    · simp at next
  · rename_i snap' seq eq
    rw [eq] at ok
    obtain ⟨rfl, rfl, files, returned, contents, -⟩ := ok
    split at next
    · rw [searchedVersion, if_pos valid, files.lookup base opens short returned contents] at next
      obtain rfl := Option.some.inj next
      rfl
    · simp at next
  · simp at next

/-- The snapshots after a step: those of before, a version just pinned, and one just taken. -/
theorem snapshots_step {p : SnapshotPhase} (taken : step deps s a = some s')
    (mem : p ∈ s'.snapshots) : p ∈ s.snapshots ∨ p = .dropped ∨ p = .pinned s'.store.current ∨
      ∃ v j, a = .snapshotStep j ∧ .pinned v ∈ s.snapshots ∧
        p = .taken (s.center.getSnapshot v) s.returned := by
  cases step_cases taken with
  | getSnapshot =>
    refine (List.mem_append.mp mem).imp_right fun new => Or.inr (Or.inl ?_)
    exact List.mem_singleton.mp new
  | @snapshot j v found =>
    refine (List.mem_or_eq_of_mem_set mem).imp_right fun eq => Or.inr (Or.inr ?_)
    exact ⟨v, j, rfl, List.mem_of_getElem? found, eq⟩
  | drop found => exact (List.mem_or_eq_of_mem_set mem).imp_right Or.inl
  | _ => exact Or.inl mem

theorem Stable.of_pinned (base : Base deps s) {v : Version DiskFile} (view : View deps s v s.returned) :
    Stable deps s (s.center.getSnapshot v) s.returned where
  readable := view.readable base fun _ he => he
  returned _ he := he
  contents _ he := view.returned he
  hidden y hy _ := ⟨y, base.memory hy, rfl, le_rfl⟩

theorem mem_readers_of_snapshot {p : SnapshotPhase} (mem : p ∈ s.snapshots) {reader : Reader}
    (inside : reader ∈ p.readers s) : reader ∈ s.readers :=
  List.mem_append_left _ (List.mem_flatMap.mpr ⟨p, mem, inside⟩)

theorem mem_readers_of_get (mem : g ∈ s.gets) {reader : Reader} (inside : reader ∈ g.readers) :
    reader ∈ s.readers :=
  List.mem_append_right _ (List.mem_flatMap.mpr ⟨g, mem, inside⟩)

theorem SnapInv.step (inv : SnapInv deps s) (opens : deps.Readable compressor) (allowed : InOrder deps s a) (keep : ReadersKeep s a)
    (taken : step deps s a = some s') : SnapInv deps s' := by
  have base := inv.base
  have base' := base.step opens allowed taken
  refine ⟨base', fun p mem => ?_, fun g mem snap through => ?_⟩
  · rcases snapshots_step taken mem with old | rfl | rfl | ⟨v, j, rfl, pinned, rfl⟩
    · apply (inv.snapshots p old).step base allowed _ taken
      exact fun reader inside => keep.keepsFor (mem_readers_of_snapshot old inside)
    · trivial
    · exact base'.view opens
    · intro _
      exact (Stable.of_pinned base (inv.snapshots _ pinned)).step base allowed
        (keepsFor_of_ne (by simp) _) taken
  · rcases gets_step taken mem with old | ⟨key, view, fromSnapshot, rfl⟩ |
      ⟨j, old, phase, rfl, held, next, rfl⟩
    · obtain ⟨valid, ok⟩ := inv.gets g old snap through
      refine ⟨valid, ok.step base allowed (fun reader inside => ?_) taken⟩
      apply keep.keepsFor
      apply mem_readers_of_get old
      cases g
      subst through
      exact inside
    · cases view with
      | none => simp [startGet] at through
      | some pair =>
        obtain ⟨snap', inserted⟩ := pair
        simp only [startGet] at through ⊢
        split at through
        · rename_i valid
          obtain rfl := Option.some.inj through
          have source : SnapshotPhase.taken snap' inserted ∈ s.snapshots := fromSnapshot _ rfl
          have stable := inv.snapshots _ source valid
          rw [if_pos valid]
          refine ⟨valid, rfl, stable.step base allowed ?_ taken⟩
          apply keep.keepsFor
          apply mem_readers_of_snapshot source
          simp [SnapshotPhase.readers, valid]
        · simp at through
    · obtain ⟨valid, ok⟩ := inv.gets old held snap through
      have moved : SnapPhaseOk deps s old.key snap old.seen phase := ok.next base opens (base.short old held) valid next
      exact ⟨valid, moved.step base allowed (fun _ _ => keepsFor_of_ne (by simp) _) taken⟩

theorem snapInv_of_reach (opens : deps.Readable compressor)
    (reached : Reach (machine deps) (fun s a => InOrder deps s a ∧ ReadersKeep s a) s) :
    SnapInv deps s := by
  apply reached.invariant
  · intro s opened
    refine ⟨Base.init opens opened, fun p mem => ?_, fun g mem => ?_⟩
    all_goals
      obtain ⟨-, -, -, -, -, -, -, -, snapshots, gets, -⟩ := opened
      simp [snapshots, gets] at mem
  · intro s a s' inv allowed taken
    exact inv.step opens allowed.1 allowed.2 taken

section Runs

/-- Memtables for two entries of a byte. -/
abbrev twoEntryPage : DiskDeps := DiskDeps.paged 40

def insertSteps (i n : Nat) : List Action := List.replicate n (.insertStep i)

/-- Three inserts with a flush, a snapshot, a newer version of key 1, a collection, and two
calls through the snapshot. -/
def snapshotReads : List Action :=
  insertOne 1 10 :: insertSteps 0 3 ++ insertOne 2 11 :: insertSteps 1 3 ++
    insertOne 1 12 :: insertSteps 2 5 ++ [.getSnapshot, .snapshotStep 0] ++
    insertOne 1 13 :: insertSteps 3 3 ++ [.doGC, .get ⟨[1]⟩ (some 0), .get ⟨[2]⟩ (some 0)] ++
    List.replicate 2 (.getStep 0) ++ List.replicate 3 (.getStep 1)

/-- A snapshot of one entry in the memtable, which the next insert flushes. -/
def lostSnapshotRead : List Action :=
  insertOne 1 10 :: insertSteps 0 3 ++ [.getSnapshot, .snapshotStep 0] ++
    insertOne 2 11 :: insertSteps 1 5 ++ .get ⟨[1]⟩ (some 0) :: List.replicate 3 (.getStep 0)

end Runs

end FrenzyKV.Calls
