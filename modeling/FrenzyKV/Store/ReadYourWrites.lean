import FrenzyKV.Store.CallsProof

namespace FrenzyKV.Calls

open Framework

/-- The call has taken its version and has not yet looked into the memtable. -/
def GetPhase.waiting : GetPhase → Bool
  | .pinned _ | .snapped _ | .keyed _ _ => true
  | .started | .missed _ _ | .done _ => false

/-- No flush moves an entry that a waiting `get` has to see into files that it will not search. -/
def SeenStays (s : State) : Action → Prop
  | .insertStep i => ∀ m ∈ s.publishing i, ∀ g ∈ s.gets, g.option.isNone = true →
      g.phase.waiting = true → ∀ e ∈ g.seen, e ∉ m.storage
  | _ => True

instance (s : State) : (a : Action) → Decidable (SeenStays s a)
  | .insertStep i => inferInstanceAs (Decidable (∀ m ∈ s.publishing i, ∀ g ∈ s.gets,
      g.option.isNone = true → g.phase.waiting = true → ∀ e ∈ g.seen, e ∉ m.storage))
  | .insert _ | .getSnapshot | .snapshotStep _ | .dropSnapshot _ | .get _ _ | .getStep _
  | .mayCompact _ _ | .doGC => isTrue trivial

/-- `result` shows an entry of the key that is at least as new as `a`. -/
def Answered (s : State) (key : UserKey) (a : KvEntry) : Option KvEntry → Prop
  | some e => e ∈ s.returned ∧ e.userKey = key ∧ a.seq ≤ e.seq ∧ e.isTombStone = false
  | none => ∃ e ∈ s.returned, e.userKey = key ∧ a.seq ≤ e.seq ∧ e.isTombStone = true

/-- What a call without a snapshot relies on in each phase. -/
def PhaseOk (deps : DiskDeps) (s : State) (key : UserKey) (seen : List KvEntry) :
    GetPhase → Prop
  | .started => True
  | .pinned v => View deps s v seen
  | .snapped snap => Readable deps s snap seen
  | .keyed snap seq => Readable deps s snap seen ∧ (snap.valid = true → seq = snap.seq)
  | .missed snap seq => (snap.valid = true → seq = snap.seq ∧ InFiles deps s snap key seen) ∧
      (snap.valid = false → seen = [])
  | .done result => ∀ a ∈ seen, Answered s key a result

structure GetOk (deps : DiskDeps) (s : State) (g : Get) : Prop where
  returned : ∀ a ∈ g.seen, a ∈ s.returned
  key : ∀ a ∈ g.seen, a.userKey = g.key
  phase : PhaseOk deps s g.key g.seen g.phase

variable {deps : DiskDeps} {compressor : CompressorPolicy} {s s' : State} {a : Action} {g : Get}
  {key : UserKey} {seen : List KvEntry}

theorem answered_answer {e x : KvEntry} (returned : e ∈ s.returned) (eKey : e.userKey = key)
    (le : x.seq ≤ e.seq) : Answered s key x (answer e) := by
  cases tomb : e.isTombStone with
  | false =>
    rw [answer, tomb]
    exact ⟨returned, eKey, le, tomb⟩
  | true =>
    rw [answer, tomb]
    exact ⟨e, returned, eKey, le, tomb⟩

theorem Answered.step {x : KvEntry} {result : Option KvEntry} (answered : Answered s key x result)
    (taken : step deps s a = some s') : Answered s' key x result := by
  cases result with
  | some e =>
    obtain ⟨returned, rest⟩ := answered
    exact ⟨returned_mono taken returned, rest⟩
  | none =>
    obtain ⟨e, returned, rest⟩ := answered
    exact ⟨e, returned_mono taken returned, rest⟩

theorem Readable.step {snap : Snapshot DiskFile} (base : Base deps s) (readable : Readable deps s snap seen)
    (allowed : InOrder deps s a)
    (free : ∀ i m, a = .insertStep i → s.publishing i = some m → ∀ e ∈ seen, e ∉ m.storage)
    (taken : step deps s a = some s') : Readable deps s' snap seen :=
  { readable with view := readable.view.step base allowed free taken }

theorem InFiles.step {snap : Snapshot DiskFile} (files : InFiles deps s snap key seen)
    (taken : step deps s a = some s') : InFiles deps s' snap key seen :=
  { files with returned := fun _ he => returned_mono taken (files.returned he) }

/-- The steps of other calls do not disturb a call. -/
theorem GetOk.step (base : Base deps s) (ok : GetOk deps s g) (allowed : InOrder deps s a)
    (free : ∀ i m, a = .insertStep i → s.publishing i = some m → g.phase.waiting = true →
      ∀ e ∈ g.seen, e ∉ m.storage)
    (taken : step deps s a = some s') : GetOk deps s' g := by
  refine ⟨fun x hx => returned_mono taken (ok.returned x hx), ok.key, ?_⟩
  have phase := ok.phase
  cases eq : g.phase with
  | started => trivial
  | pinned v =>
    rw [eq] at phase free
    exact phase.step base allowed (fun i m act pub => free i m act pub rfl) taken
  | snapped snap =>
    rw [eq] at phase free
    exact phase.step base allowed (fun i m act pub => free i m act pub rfl) taken
  | keyed snap seq =>
    rw [eq] at phase free
    exact ⟨phase.1.step base allowed (fun i m act pub => free i m act pub rfl) taken, phase.2⟩
  | missed snap seq =>
    rw [eq] at phase
    exact ⟨fun valid => ⟨(phase.1 valid).1, (phase.1 valid).2.step taken⟩, phase.2⟩
  | done result =>
    rw [eq] at phase
    exact fun x hx => (phase x hx).step taken

/-- A snapshot that is not valid was taken before anything was inserted. -/
theorem Readable.seen_eq_nil {snap : Snapshot DiskFile} (base : Base deps s)
    (readable : Readable deps s snap seen) (returned : ∀ a ∈ seen, a ∈ s.returned)
    (invalid : snap.valid = false) : seen = [] := by
  have zero : snap.seq = 0 := by simpa [Snapshot.valid] using invalid
  apply List.eq_nil_iff_forall_not_mem.mpr
  intro x hx
  have below := readable.below x hx
  have positive := (base.numbers x (base.issued_of_returned x (returned x hx))).1
  omega

/-- A call's own step leads from each phase to the next. -/
theorem GetOk.next {phase : GetPhase} (base : Base deps s) (opens : deps.Readable compressor)
    (short : g.key.size < 2 ^ 16) (ok : GetOk deps s g) (next : getStep deps s g = some phase) :
    PhaseOk deps s g.key g.seen phase := by
  have now := ok.phase
  rw [getStep] at next
  split at next
  · obtain rfl := Option.some.inj next
    exact (base.view opens).mono ok.returned
  · rename_i v eq
    rw [eq] at now
    obtain rfl := Option.some.inj next
    exact now.readable base ok.returned
  · rename_i snap eq
    rw [eq] at now
    obtain rfl := Option.some.inj next
    exact ⟨now, fun valid => by rw [if_pos valid]⟩
  · rename_i snap seq eq
    rw [eq] at now
    obtain ⟨readable, number⟩ := now
    have empty := readable.seen_eq_nil base ok.returned
    split at next
    · rename_i free
      split at next
      · rename_i e found
        obtain rfl := Option.some.inj next
        intro x hx
        cases valid : snap.valid with
        | false => simp [empty valid] at hx
        | true =>
          obtain rfl := number valid
          obtain ⟨mem, eKey, -⟩ := Memtable.get_eq_some found
          have returned := base.memory ((State.inMemory_of_free free e).mpr mem)
          exact answered_answer returned eKey
            (readable.view.le_of_mem_get free found hx (ok.key x hx) (readable.below x hx))
      · rename_i missed
        obtain rfl := Option.some.inj next
        refine ⟨fun valid => ⟨number valid, ?_⟩, empty⟩
        obtain rfl := number valid
        exact readable.inFiles free missed
    · simp at next
  · rename_i snap seq eq
    rw [eq] at now
    split at next
    · obtain ⟨result, found, rfl⟩ := Option.map_eq_some_iff.mp next
      intro x hx
      cases valid : snap.valid with
      | false => simp [now.2 valid] at hx
      | true =>
        obtain ⟨rfl, files⟩ := now.1 valid
        rw [searchedVersion, if_pos valid] at found
        cases result with
        | none => exact absurd (ok.key x hx) ((files.findFromSsts_eq_none opens short found).2 x hx)
        | some e =>
          obtain ⟨mem, eKey, top⟩ := files.findFromSsts_eq_some opens short found
          exact answered_answer (files.returned mem) eKey (top x hx (ok.key x hx))
    · simp at next
  · simp at next

theorem getOk_startGet (key : UserKey) {view : Option (Snapshot DiskFile × List KvEntry)}
    (default : (startGet s key view).option = none) : GetOk deps s (startGet s key view) := by
  have fresh : GetOk deps s ⟨key, none, s.returned.filter (·.userKey = key), .started⟩ := by
    refine ⟨fun x hx => (List.mem_filter.mp hx).1, fun x hx => ?_, trivial⟩
    simpa using (List.mem_filter.mp hx).2
  cases view with
  | none => exact fresh
  | some pair =>
    simp only [startGet] at default ⊢
    split
    · rename_i valid
      simp [valid] at default
    · exact fresh

/-- The calls after a step: the one that moved or started, and those of before. -/
theorem gets_step (taken : step deps s a = some s') (mem : g ∈ s'.gets) :
    g ∈ s.gets ∨
      (∃ key view, (∀ taken ∈ view, .taken taken.1 taken.2 ∈ s.snapshots) ∧
        g = startGet s key view) ∨
      ∃ j old phase, a = .getStep j ∧ old ∈ s.gets ∧ getStep deps s old = some phase ∧
        g = { old with phase } := by
  cases step_cases taken with
  | @get key =>
    refine (List.mem_append.mp mem).imp_right fun new => Or.inl ⟨key, none, by simp, ?_⟩
    exact List.mem_singleton.mp new
  | @getWith key j snap inserted found =>
    refine (List.mem_append.mp mem).imp_right fun new =>
      Or.inl ⟨key, some (snap, inserted), ?_, List.mem_singleton.mp new⟩
    intro pair inside
    obtain rfl := Option.some.inj (Option.mem_def.mp inside)
    exact List.mem_of_getElem? found
  | @getStep j old phase found next =>
    refine (List.mem_or_eq_of_mem_set mem).imp_right fun eq => Or.inr ?_
    exact ⟨j, old, phase, rfl, List.mem_of_getElem? found, next, eq⟩
  | _ => exact Or.inl mem

structure Inv (deps : DiskDeps) (s : State) : Prop where
  base : Base deps s
  gets : ∀ g ∈ s.gets, g.option = none → GetOk deps s g

theorem Inv.step (inv : Inv deps s) (opens : deps.Readable compressor) (allowed : InOrder deps s a) (stays : SeenStays s a)
    (taken : step deps s a = some s') : Inv deps s' := by
  refine ⟨inv.base.step opens allowed taken, fun g mem default => ?_⟩
  rcases gets_step taken mem with old | ⟨key, view, -, rfl⟩ | ⟨j, old, phase, rfl, held, next, rfl⟩
  · apply (inv.gets g old default).step inv.base allowed _ taken
    intro i m act publishing waiting
    subst act
    exact stays m publishing g old (by simp [default]) waiting
  · have ok : GetOk deps s (startGet s key view) := getOk_startGet key default
    apply ok.step inv.base allowed _ taken
    intro i m act publishing waiting
    have started : (startGet s key view).phase = .started := by
      cases view with
      | none => rfl
      | some pair =>
        simp only [startGet] at default ⊢
        split
        · rename_i valid
          simp [valid] at default
        · rfl
    simp [started, GetPhase.waiting] at waiting
  · have before := inv.gets old held default
    have moved : PhaseOk deps s old.key old.seen phase := before.next inv.base opens (inv.base.short old held) next
    have ok : GetOk deps s { old with phase } := ⟨before.returned, before.key, moved⟩
    exact ok.step inv.base allowed (fun i m act => by simp at act) taken

theorem inv_of_reach (opens : deps.Readable compressor)
    (reached : Reach (machine deps) (fun s a => InOrder deps s a ∧ SeenStays s a) s) :
    Inv deps s := by
  apply reached.invariant
  · intro s opened
    refine ⟨Base.init opens opened, fun g mem => ?_⟩
    obtain ⟨-, -, -, -, -, -, -, -, -, gets, -⟩ := opened
    simp [gets] at mem
  · intro s a s' inv allowed taken
    exact inv.step opens allowed.1 allowed.2 taken

section Runs

/-- Memtables for one entry of a byte. -/
abbrev onePage : DiskDeps := DiskDeps.paged 20

def insertOne (k v : UInt8) : Action := .insert ⟨0, [KvEntry.brief k 0 v]⟩

/-- Two versions of a key, the first one flushed, and a `get` that finds the second. -/
def freshRead : List Action :=
  [insertOne 1 10, .insertStep 0, .insertStep 0, .insertStep 0,
    insertOne 1 11, .insertStep 1, .insertStep 1, .insertStep 1, .insertStep 1, .insertStep 1,
    .get ⟨[1]⟩ none, .getStep 0, .getStep 0, .getStep 0, .getStep 0]

/-- A `get` takes its version, an insert flushes the memtable, and the `get` goes on. -/
def lostRead : List Action :=
  [insertOne 1 10, .insertStep 0, .insertStep 0, .insertStep 0, .get ⟨[1]⟩ none, .getStep 0,
    insertOne 2 11, .insertStep 1, .insertStep 1, .insertStep 1, .insertStep 1, .insertStep 1,
    .getStep 0, .getStep 0, .getStep 0, .getStep 0]

/-- Two inserts of a key get their numbers, the second one is applied and flushed first, and
a `get` finds the first one in the memtable. -/
def staleRead : List Action :=
  [insertOne 1 10, insertOne 1 11, .insertStep 1, .insertStep 1, .insertStep 1,
    .insertStep 0, .insertStep 0, .insertStep 0, .insertStep 0, .insertStep 0,
    .get ⟨[1]⟩ none, .getStep 0, .getStep 0, .getStep 0, .getStep 0]

end Runs

end FrenzyKV.Calls
