import FrenzyKV.Store.Calls

namespace FrenzyKV.Calls

open Framework

def MemSection.storage : MemSection → List KvEntry
  | .flushing _ m => m.storage
  | _ => []

def InsertPhase.entries : InsertPhase → List KvEntry
  | .numbered b | .logged b | .inSection b => b.entries
  | .returned => []

/-- The entries in the memtable and in the memtable that is being flushed. -/
def State.inMemory (s : State) : Set KvEntry := {e | e ∈ s.mem.storage ∨ e ∈ s.memSection.storage}

def State.returnedSet (s : State) : Set KvEntry := {e | e ∈ s.returned}

/-- An entry that a lookup in memory and then in version `v` cannot miss. -/
def Kept (deps : DiskDeps) (s : State) (v : Version DiskFile) (e : KvEntry) : Prop :=
  e ∈ s.inMemory ∨ ∃ c ∈ DiskStore.contents deps.table v, c.userKey = e.userKey ∧ e.seq ≤ c.seq

/-- A version with what a reader of memory and this version relies on. -/
structure View (deps : DiskDeps) (s : State) (v : Version DiskFile) (seen : List KvEntry) : Prop where
  legible : DiskStore.Legible deps.table v
  ordered : LevelOrdered (.onDisk deps.table) v
  returned : DiskStore.contents deps.table v ⊆ s.returnedSet
  newer : Newer s.inMemory (DiskStore.contents deps.table v)
  kept : ∀ e ∈ seen, Kept deps s v e

/-- Numbers identify the entries that got one. -/
structure Numbered (s : State) : Prop where
  positive : 0 < s.center.newestUnusedSeq
  small : s.center.newestUnusedSeq < sequenceNumberModulus
  numbers : ∀ e ∈ s.issued, 0 < e.seq ∧ e.seq < s.center.newestUnusedSeq
  unique : ∀ x ∈ s.issued, ∀ y ∈ s.issued, x.key = y.key → x = y
  stored : ∀ e ∈ s.issued, e.stored = e
  pending : ∀ p ∈ s.inserts, ∀ e ∈ p.entries, e ∈ s.issued
  issued_of_returned : ∀ e ∈ s.returned, e ∈ s.issued

structure Base (deps : DiskDeps) (s : State) : Prop extends Numbered s where
  good : s.store.Good deps
  memory : s.inMemory ⊆ s.returnedSet
  contents : DiskStore.contents deps.table s.store.current ⊆ s.returnedSet
  newer : Newer s.inMemory (DiskStore.contents deps.table s.store.current)
  kept : ∀ e ∈ s.returned, Kept deps s s.store.current e
  swapped : ∀ i m, s.memSection = .flushing i m → s.mem.storage = []
  short : ∀ g ∈ s.gets, g.key.size < 2 ^ 16

variable {deps : DiskDeps} {compressor : CompressorPolicy} {s s' : State} {v : Version DiskFile}
  {seen : List KvEntry}

theorem Base.view (base : Base deps s) (opens : deps.Readable compressor) :
    View deps s s.store.current s.returned :=
  ⟨base.good.legible, base.good.levelOrdered opens, base.contents, base.newer, base.kept⟩

theorem View.mono {seen' : List KvEntry} (view : View deps s v seen)
    (sub : ∀ e ∈ seen', e ∈ seen) : View deps s v seen' :=
  { view with kept := fun e he => view.kept e (sub e he) }

section Effects

/-- A step that leaves memory and the returned entries alone leaves views alone. -/
theorem View.frame (view : View deps s v seen) (memory : s'.inMemory = s.inMemory)
    (returned : s'.returned = s.returned) : View deps s' v seen where
  legible := view.legible
  ordered := view.ordered
  returned := by rw [State.returnedSet, returned]; exact view.returned
  newer := by rw [memory]; exact view.newer
  kept e he := by
    cases view.kept e he with
    | inl inMemory => exact Or.inl (by rw [memory]; exact inMemory)
    | inr covered => exact Or.inr covered

/-- How a step that puts a batch into the memtable changes the state. -/
structure Applied (deps : DiskDeps) (s s' : State) (b : WriteBatch) : Prop where
  memory : ∀ e, e ∈ s'.inMemory ↔ e ∈ b.entries ∨ e ∈ s.inMemory
  returned : s'.returned = s.returned ++ b.entries
  store : s'.store = s.store
  newer : ∀ e ∈ b.entries, ∀ x ∈ DiskStore.contents deps.table s.store.current, x.userKey = e.userKey → x.seq < e.seq

/-- How a step that publishes the files of a memtable changes the state. -/
structure Published (deps : DiskDeps) (s s' : State) (m : Memtable) : Prop where
  before : ∀ e, e ∈ s.inMemory ↔ e ∈ m.storage
  after : s'.inMemory = ∅
  returned : s'.returned = s.returned
  fits : DiskStore.FlushFits deps m
  flushed : s.store.flushToDisk deps m = some s'.store

theorem View.apply {b : WriteBatch} (base : Base deps s) (view : View deps s v seen)
    (applied : Applied deps s s' b) : View deps s' v seen where
  legible := view.legible
  ordered := view.ordered
  returned e he := by
    rw [State.returnedSet, applied.returned]
    exact List.mem_append_left _ (view.returned he)
  newer := by
    intro e he x hx same
    cases (applied.memory e).mp he with
    | inr old => exact view.newer e old x hx same
    | inl new =>
      -- the current version holds a version of the key that is at least as new as `x`
      cases base.kept x (view.returned hx) with
      | inl inMemory => exact absurd (view.newer x inMemory x hx rfl) (lt_irrefl _)
      | inr covered =>
        obtain ⟨c, hc, key, le⟩ := covered
        exact le.trans_lt (applied.newer e new c hc (key.trans same.symm))
  kept e he := (view.kept e he).imp_left fun inMemory => (applied.memory e).mpr (Or.inr inMemory)

theorem View.publish {m : Memtable} (view : View deps s v seen)
    (published : Published deps s s' m) (free : ∀ e ∈ seen, e ∉ m.storage) :
    View deps s' v seen where
  legible := view.legible
  ordered := view.ordered
  returned := by rw [State.returnedSet, published.returned]; exact view.returned
  newer e he := by simp [published.after] at he
  kept e he := by
    cases view.kept e he with
    | inr covered => exact Or.inr covered
    | inl inMemory => exact absurd ((published.before e).mp inMemory) (free e he)

end Effects

section Steps

variable {a : Action}

theorem Numbered.insert {b : WriteBatch} (inv : Numbered s)
    (small : s.center.newestUnusedSeq + b.count < sequenceNumberModulus)
    (stored : ∀ e ∈ b.entries, e.stored = e)
    (taken : step deps s (.insert b) = some s') : Numbered s' := by
  cases step_cases taken with
  | insert few =>
    let numbered := b.setFirstSequenceNum s.center.newestUnusedSeq
    have count : numbered.count = b.count := WriteBatch.numbered_length _ _
    have next : (s.center.getNextUnusedSequenceNumber b.count).newestUnusedSeq =
        s.center.newestUnusedSeq + b.count := SnapshotCenter.getNextUnused_of_lt small
    have positive := inv.positive
    have range : ∀ e ∈ numbered.entries, s.center.newestUnusedSeq ≤ e.seq ∧
        e.seq < s.center.newestUnusedSeq + b.count :=
      fun e he => WriteBatch.seq_of_mem_numbered small.le he
    refine ⟨?_, ?_, ?_, ?_, ?_, ?_, ?_⟩
    · change 0 < (s.center.getNextUnusedSequenceNumber b.count).newestUnusedSeq
      omega
    · exact next.trans_lt small
    · intro e he
      change _ ∧ _ < (s.center.getNextUnusedSequenceNumber b.count).newestUnusedSeq
      rw [next]
      cases List.mem_append.mp he with
      | inl old =>
        have := inv.numbers e old
        omega
      | inr new =>
        have := range e new
        omega
    · have apart : ∀ x ∈ s.issued, ∀ y ∈ numbered.entries, x.key ≠ y.key := by
        intro x hx y hy same
        have := (inv.numbers x hx).2
        have := (range y hy).1
        have : x.seq = y.seq := congrArg SequencedKey.seq same
        omega
      intro x hx y hy same
      cases List.mem_append.mp hx with
      | inl oldX =>
        cases List.mem_append.mp hy with
        | inl oldY => exact inv.unique x oldX y oldY same
        | inr newY => exact absurd same (apart x oldX y newY)
      | inr newX =>
        cases List.mem_append.mp hy with
        | inl oldY => exact absurd same.symm (apart y oldY x newX)
        | inr newY =>
          by_contra ne
          have symm : Std.Symm fun x y : KvEntry => x.seq ≠ y.seq := ⟨fun _ _ h => h.symm⟩
          have distinct : numbered.entries.Pairwise (·.seq ≠ ·.seq) :=
            (WriteBatch.numbered_seq_injective small.le).imp fun lt => lt.ne
          exact List.Pairwise.forall distinct newX newY ne (congrArg SequencedKey.seq same)
    · intro e he
      cases List.mem_append.mp he with
      | inl old => exact inv.stored e old
      | inr new => exact WriteBatch.stored_of_mem_numbered stored new
    · intro p hp e he
      cases List.mem_append.mp hp with
      | inl old => exact List.mem_append_left _ (inv.pending p old e he)
      | inr new =>
        obtain rfl := List.mem_singleton.mp new
        exact List.mem_append_right _ he
    · exact fun e he => List.mem_append_left _ (inv.issued_of_returned e he)

theorem Numbered.insertStep {i : Nat} (inv : Numbered s)
    (taken : insertStep deps s i = some s') : Numbered s' := by
  have keep : ∀ {p q : InsertPhase}, s.inserts[i]? = some p → (∀ e ∈ q.entries, e ∈ p.entries) →
      ∀ p' ∈ s.inserts.set i q, ∀ e ∈ p'.entries, e ∈ s.issued := by
    intro p q found sub p' hp' e he
    cases List.mem_or_eq_of_mem_set hp' with
    | inl old => exact inv.pending p' old e he
    | inr eq =>
      subst eq
      exact inv.pending p (List.mem_of_getElem? found) e (sub e he)
  cases insertStep_cases taken with
  | log found => exact { inv with pending := keep found fun _ he => he }
  | lock found free => exact { inv with pending := keep found fun _ he => he }
  | write found held inserted =>
    refine { inv with
      pending := keep found fun e he => by simp [InsertPhase.entries] at he
      issued_of_returned := ?_ }
    intro e he
    cases List.mem_append.mp he with
    | inl old => exact inv.issued_of_returned e old
    | inr new => exact inv.pending _ (List.mem_of_getElem? found) e new
  | swap found held full => exact { inv with }
  | flush found flushing flushed => exact { inv with }

/-- What a step does to memory, to the returned entries and to the files. -/
inductive Effect (deps : DiskDeps) (s s' : State) : Action → Prop
  | quiet {a : Action} (memory : s'.inMemory = s.inMemory) (returned : s'.returned = s.returned)
      (store : s'.store = s.store) : Effect deps s s' a
  | apply {i : Nat} {b : WriteBatch} (applying : s.applying i = some b)
      (applied : Applied deps s s' b) : Effect deps s s' (.insertStep i)
  | publish {i : Nat} {m : Memtable} (publishing : s.publishing i = some m)
      (published : Published deps s s' m) : Effect deps s s' (.insertStep i)
  | compact {from_ : Nat} {r : ThreshRatio} (memory : s'.inMemory = s.inMemory)
      (returned : s'.returned = s.returned)
      (safe : DiskStore.SafeCompaction deps s.store.current from_ r)
      (compacted : s.store.mayCompact deps from_ r = some s'.store) :
      Effect deps s s' (.mayCompact from_ r)

theorem effect_insertStep {i : Nat} (base : Base deps s) (allowed : InOrder deps s (.insertStep i))
    (taken : insertStep deps s i = some s') : Effect deps s s' (.insertStep i) := by
  cases insertStep_cases taken with
  | log found => exact .quiet rfl rfl rfl
  | lock found free =>
    exact .quiet (by simp [State.inMemory, State.setInsert, free, MemSection.storage]) rfl rfl
  | @write _ b mem found held inserted =>
    rw [Memtable.insert] at inserted
    split at inserted
    · rename_i fits
      obtain rfl := Option.some.inj inserted
      have applying : s.applying i = some b := by simp [State.applying, found, held, fits]
      have inBatch : ∀ e ∈ b.entries, e ∈ s.issued :=
        base.pending _ (List.mem_of_getElem? found)
      have inMem : ∀ e ∈ s.mem.storage, e ∈ s.issued :=
        fun e he => base.issued_of_returned e (base.memory (Or.inl he))
      refine .apply applying ⟨fun e => ?_, rfl, rfl, ?_⟩
      · have grown := @Memtable.mem_foldl_insertEntry_iff deps.skipListReplaces s.mem b.entries
          (fun x y hx hy => base.unique x (hx.elim (inBatch x) (inMem x)) y
            (hy.elim (inBatch y) (inMem y))) e
        simpa [State.inMemory, held, MemSection.storage] using grown
      · intro e he x hx same
        obtain ⟨f, hf, inFile⟩ := hx
        exact allowed.1 b applying e he f hf x inFile same
    · cases inserted
  | swap found held full =>
    exact .quiet (by simp [State.inMemory, held, MemSection.storage]) rfl rfl
  | @flush _ b m store found flushing flushed =>
    have emptied := base.swapped i m flushing
    have publishing : s.publishing i = some m := by simp [State.publishing, found, flushing]
    refine .publish publishing ⟨fun e => ?_, ?_, rfl, allowed.2 m publishing, flushed⟩
    · simp [State.inMemory, emptied, flushing, MemSection.storage]
    · simp [State.inMemory, State.setStore, emptied, MemSection.storage]

/-- What only inserts change. -/
structure Frame (s s' : State) : Prop where
  center : s'.center = s.center
  inserts : s'.inserts = s.inserts
  issued : s'.issued = s.issued
  returned : s'.returned = s.returned
  mem : s'.mem = s.mem
  memSection : s'.memSection = s.memSection

theorem frame (noInsert : ∀ b, a ≠ .insert b) (noStep : ∀ i, a ≠ .insertStep i)
    (taken : step deps s a = some s') : Frame s s' := by
  cases step_cases taken with
  | @insert b => exact absurd rfl (noInsert b)
  | @log i | @lock i | @write i | @swap i | @flush i => exact absurd rfl (noStep i)
  | _ => exact ⟨rfl, rfl, rfl, rfl, rfl, rfl⟩

theorem Frame.inMemory (fr : Frame s s') : s'.inMemory = s.inMemory := by
  rw [State.inMemory, State.inMemory, fr.mem, fr.memSection]

theorem Frame.numbered (fr : Frame s s') (inv : Numbered s) : Numbered s' where
  positive := by rw [fr.center]; exact inv.positive
  small := by rw [fr.center]; exact inv.small
  numbers := by rw [fr.center, fr.issued]; exact inv.numbers
  unique := by rw [fr.issued]; exact inv.unique
  stored := by rw [fr.issued]; exact inv.stored
  pending := by rw [fr.inserts, fr.issued]; exact inv.pending
  issued_of_returned := by rw [fr.returned, fr.issued]; exact inv.issued_of_returned

/-- Only flushes and compactions move to a new store. -/
theorem store_eq (noStep : ∀ i, a ≠ .insertStep i) (noCompaction : ∀ l r, a ≠ .mayCompact l r)
    (taken : step deps s a = some s') : s'.store = s.store := by
  cases step_cases taken with
  | @flush i => exact absurd rfl (noStep i)
  | @mayCompact l r => exact absurd rfl (noCompaction l r)
  | _ => rfl

theorem effect (base : Base deps s) (allowed : InOrder deps s a) (taken : step deps s a = some s') :
    Effect deps s s' a := by
  cases a with
  | insert b =>
    cases step_cases taken with
    | insert small => exact .quiet rfl rfl rfl
  | insertStep i => exact effect_insertStep base allowed taken
  | mayCompact from_ r =>
    cases step_cases taken with
    | mayCompact compacted => exact .compact rfl rfl allowed compacted
  | _ =>
    have fr := frame (by simp) (by simp) taken
    exact .quiet fr.inMemory fr.returned (store_eq (by simp) (by simp) taken)

theorem Numbered.step (inv : Numbered s) (allowed : InOrder deps s a)
    (taken : step deps s a = some s') : Numbered s' := by
  cases a with
  | insert b => exact inv.insert allowed.1 allowed.2 taken
  | insertStep i => exact inv.insertStep taken
  | _ => exact (frame (by simp) (by simp) taken).numbered inv

/-- While a memtable is being flushed the new one stays empty. -/
theorem swapped_step (base : Base deps s) (taken : step deps s a = some s') {i : Nat}
    {m : Memtable} (sec : s'.memSection = .flushing i m) : s'.mem.storage = [] := by
  cases step_cases taken with
  | swap found held full => rfl
  | lock found free => cases sec
  | write found held inserted => cases sec
  | flush found flushing flushed => cases sec
  | _ => exact base.swapped i m sec

theorem startGet_key (s : State) (key : UserKey) (view : Option (Snapshot DiskFile × List KvEntry)) :
    (startGet s key view).key = key := by
  cases view with
  | none => rfl
  | some pair =>
    simp only [startGet]
    split
    · rfl
    · rfl

/-- The keys that are looked up fit their length field. -/
theorem short_step (base : Base deps s) (allowed : InOrder deps s a) (taken : step deps s a = some s') :
    ∀ g ∈ s'.gets, g.key.size < 2 ^ 16 := by
  cases step_cases taken with
  | get =>
    refine List.forall_mem_append.mpr ⟨base.short, List.forall_mem_singleton.mpr ?_⟩
    rw [startGet_key]
    exact allowed
  | getWith found =>
    refine List.forall_mem_append.mpr ⟨base.short, List.forall_mem_singleton.mpr ?_⟩
    rw [startGet_key]
    exact allowed
  | @getStep j g phase found next =>
    intro g' mem
    rcases List.mem_or_eq_of_mem_set mem with old | rfl
    · exact base.short g' old
    · exact base.short g (List.mem_of_getElem? found)
  | _ => exact base.short

theorem Base.step (base : Base deps s) (opens : deps.Readable compressor) (allowed : InOrder deps s a)
    (taken : step deps s a = some s') : Base deps s' := by
  have numbered := base.toNumbered.step allowed taken
  have swapped : ∀ i m, s'.memSection = .flushing i m → s'.mem.storage = [] :=
    fun i m sec => swapped_step base taken sec
  have short := short_step base allowed taken
  cases effect base allowed taken with
  | quiet memory returned store =>
    have view := (base.view opens).frame memory returned
    refine ⟨numbered, ?_, ?_, ?_, ?_, ?_, swapped, short⟩
    · rw [store]; exact base.good
    · rw [memory, State.returnedSet, returned]; exact base.memory
    · rw [store]; exact view.returned
    · rw [store]; exact view.newer
    · rw [store, returned]; exact view.kept
  | apply _ applied =>
    have view := (base.view opens).apply base applied
    refine ⟨numbered, ?_, ?_, ?_, ?_, ?_, swapped, short⟩
    · rw [applied.store]; exact base.good
    · intro e he
      rw [State.returnedSet, applied.returned]
      cases (applied.memory e).mp he with
      | inl new => exact List.mem_append_right _ new
      | inr old => exact List.mem_append_left _ (base.memory old)
    · rw [applied.store]; exact view.returned
    · rw [applied.store]; exact view.newer
    · rw [applied.store, applied.returned]
      intro e he
      cases List.mem_append.mp he with
      | inl old => exact view.kept e old
      | inr new => exact Or.inl ((applied.memory e).mpr (Or.inl new))
  | @publish _ m _ published =>
    have newer : Newer m.contents (DiskStore.contents deps.table s.store.current) :=
      fun e he => base.newer e ((published.before e).mpr he)
    obtain ⟨good, grown⟩ := base.good.flush opens published.fits newer published.flushed
    have fromMemory : ∀ e ∈ m.storage, e ∈ s.returned ∧ e.stored = e := by
      intro e he
      have returned := base.memory ((published.before e).mpr he)
      exact ⟨returned, base.stored e (base.issued_of_returned e returned)⟩
    refine ⟨numbered, good, ?_, ?_, ?_, ?_, swapped, short⟩
    · simp [published.after]
    · intro e he
      rw [State.returnedSet, published.returned]
      cases (grown e).mp he with
      | inl old => exact base.contents old
      | inr new =>
        obtain ⟨x, hx, rfl⟩ := List.mem_map.mp new
        rw [(fromMemory x hx).2]
        exact (fromMemory x hx).1
    · intro e he
      simp [published.after] at he
    · intro e he
      rw [published.returned] at he
      refine Or.inr ?_
      cases base.kept e he with
      | inl inMemory =>
        have inTable := (published.before e).mp inMemory
        have same := (fromMemory e inTable).2
        exact ⟨e, (grown e).mpr (Or.inr (List.mem_map.mpr ⟨e, inTable, same⟩)), rfl, le_rfl⟩
      | inr covered =>
        obtain ⟨c, hc, rel⟩ := covered
        exact ⟨c, (grown c).mpr (Or.inl hc), rel⟩
  | compact memory returned safe compacted =>
    obtain ⟨good, sub, cover⟩ := base.good.mayCompact opens safe compacted
    refine ⟨numbered, good, ?_, ?_, ?_, ?_, swapped, short⟩
    · rw [memory, State.returnedSet, returned]; exact base.memory
    · rw [State.returnedSet, returned]; exact sub.trans base.contents
    · rw [memory]; exact base.newer.mono subset_rfl sub
    · rw [returned]
      intro e he
      cases base.kept e he with
      | inl inMemory => exact Or.inl (by rw [memory]; exact inMemory)
      | inr covered =>
        obtain ⟨c, hc, key, le⟩ := covered
        obtain ⟨d, hd, key', le'⟩ := cover c hc
        exact Or.inr ⟨d, hd, key'.trans key, le.trans le'⟩

theorem Base.init (opens : deps.Readable compressor) (opened : Opened deps s) : Base deps s := by
  obtain ⟨good, -, range, positive, small, mem, sec, inserts, -, gets, returned, issued⟩ := opened
  have inMemory : s.inMemory = ∅ := by simp [State.inMemory, mem, sec, MemSection.storage]
  have same : ∀ e, e ∈ s.returned ↔ e ∈ DiskStore.contents deps.table s.store.current := by
    intro e
    rw [returned, List.mem_flatMap]
    rfl
  refine ⟨⟨positive, small, ?_, ?_, ?_, ?_, ?_⟩, good, ?_, ?_, ?_, ?_, ?_, ?_⟩
  · intro e he
    exact range e ((same e).mp (issued ▸ he))
  · intro x hx y hy
    exact good.unique opens x ((same x).mp (issued ▸ hx)) y ((same y).mp (issued ▸ hy))
  · intro e he
    exact DiskStore.stored_of_mem opens.toReadable good.legible ((same e).mp (issued ▸ he))
  · simp [inserts]
  · simp [issued]
  · simp [inMemory]
  · exact fun e he => (same e).mpr he
  · simp [inMemory, Versioned.Newer]
  · exact fun e he => Or.inr ⟨e, (same e).mp he, rfl, le_rfl⟩
  · simp [sec]
  · simp [gets]

/-- A view lasts as long as no entry it has to see is flushed from memory. -/
theorem View.step (base : Base deps s) (view : View deps s v seen) (allowed : InOrder deps s a)
    (free : ∀ i m, a = .insertStep i → s.publishing i = some m → ∀ e ∈ seen, e ∉ m.storage)
    (taken : step deps s a = some s') : View deps s' v seen := by
  cases effect base allowed taken with
  | quiet memory returned _ => exact view.frame memory returned
  | apply _ applied => exact view.apply base applied
  | publish publishing published => exact view.publish published (free _ _ rfl publishing)
  | compact memory returned _ _ => exact view.frame memory returned

end Steps

section Reads

variable {k : SequencedKey} {e a : KvEntry}

theorem State.inMemory_of_free (free : s.memSection = .free) (x : KvEntry) :
    x ∈ s.inMemory ↔ x ∈ s.mem.storage := by
  simp [State.inMemory, free, MemSection.storage]

/-- What the memtable answers is at least as new as everything a view has to see. -/
theorem View.le_of_mem_get (view : View deps s v seen) (free : s.memSection = .free)
    (found : s.mem.get k = some e) (ha : a ∈ seen) (key : a.userKey = k.userKey)
    (below : a.seq ≤ k.seq) : a.seq ≤ e.seq := by
  obtain ⟨mem, eKey, -, top⟩ := Memtable.get_eq_some found
  cases view.kept a ha with
  | inl inMemory => exact top a ((State.inMemory_of_free free a).mp inMemory) key below
  | inr covered =>
    obtain ⟨c, hc, cKey, le⟩ := covered
    have newer := view.newer e ((State.inMemory_of_free free e).mpr mem) c hc
      (eKey.trans (cKey.trans key).symm)
    exact le.trans newer.le

/-- What the memtable does not have is in the files of the version. -/
theorem View.covered_of_mem_get (view : View deps s v seen) (free : s.memSection = .free)
    (missed : s.mem.get k = none) (ha : a ∈ seen) (key : a.userKey = k.userKey)
    (below : a.seq ≤ k.seq) : ∃ c ∈ DiskStore.contents deps.table v, c.userKey = a.userKey ∧ a.seq ≤ c.seq := by
  cases view.kept a ha with
  | inr covered => exact covered
  | inl inMemory =>
    have above := Memtable.get_eq_none missed a ((State.inMemory_of_free free a).mp inMemory) key
    exact absurd below above.not_ge

/-- A view through a snapshot whose number bounds all that it shows. -/
structure Readable (deps : DiskDeps) (s : State) (snap : Snapshot DiskFile) (seen : List KvEntry) :
    Prop where
  view : View deps s snap.version seen
  bounded : ∀ x ∈ DiskStore.contents deps.table snap.version, x.seq ≤ snap.seq
  below : ∀ a ∈ seen, a.seq ≤ snap.seq

/-- The files of a snapshot, when they answer for everything the reader of a key has to see. -/
structure InFiles (deps : DiskDeps) (s : State) (snap : Snapshot DiskFile) (key : UserKey)
    (seen : List KvEntry) : Prop where
  legible : DiskStore.Legible deps.table snap.version
  ordered : LevelOrdered (.onDisk deps.table) snap.version
  returned : DiskStore.contents deps.table snap.version ⊆ s.returnedSet
  bounded : ∀ x ∈ DiskStore.contents deps.table snap.version, x.seq ≤ snap.seq
  covered : ∀ a ∈ seen, a.userKey = key →
    ∃ c ∈ DiskStore.contents deps.table snap.version, c.userKey = a.userKey ∧ a.seq ≤ c.seq

variable {snap : Snapshot DiskFile} {key : UserKey}

theorem Readable.inFiles (readable : Readable deps s snap seen) (free : s.memSection = .free)
    (missed : s.mem.get ⟨snap.seq, key⟩ = none) : InFiles deps s snap key seen where
  legible := readable.view.legible
  ordered := readable.view.ordered
  returned := readable.view.returned
  bounded := readable.bounded
  covered a ha same := readable.view.covered_of_mem_get free missed ha same (readable.below a ha)

theorem InFiles.findFromSsts_eq_some (files : InFiles deps s snap key seen)
    (opens : deps.Readable compressor) (size : key.size < 2 ^ 16)
    (found : DiskStore.findFromSsts deps snap.version ⟨snap.seq, key⟩ = some (some e)) :
    e ∈ DiskStore.contents deps.table snap.version ∧ e.userKey = key ∧
      ∀ a ∈ seen, a.userKey = key → a.seq ≤ e.seq := by
  obtain ⟨result, searched, spec, -⟩ := @DiskStore.findFromSsts_spec _ _ ⟨snap.seq, key⟩ _ opens
    files.legible files.ordered size fun x hx _ => files.bounded x hx
  obtain ⟨mem, eKey, top⟩ := spec e (Option.some.inj (searched.symm.trans found))
  refine ⟨mem, eKey, fun a ha same => ?_⟩
  obtain ⟨c, hc, cKey, le⟩ := files.covered a ha same
  exact le.trans (top c hc (cKey.trans same))

theorem InFiles.findFromSsts_eq_none (files : InFiles deps s snap key seen)
    (opens : deps.Readable compressor) (size : key.size < 2 ^ 16)
    (missed : DiskStore.findFromSsts deps snap.version ⟨snap.seq, key⟩ = some none) :
    (∀ x ∈ DiskStore.contents deps.table snap.version, x.userKey ≠ key) ∧
      ∀ a ∈ seen, a.userKey ≠ key := by
  obtain ⟨result, searched, -, spec⟩ := @DiskStore.findFromSsts_spec _ _ ⟨snap.seq, key⟩ _ opens
    files.legible files.ordered size fun x hx _ => files.bounded x hx
  have absent := spec (Option.some.inj (searched.symm.trans missed))
  refine ⟨absent, fun a ha same => ?_⟩
  obtain ⟨c, hc, cKey, -⟩ := files.covered a ha same
  exact absent c hc (cKey.trans same)

/-- The number of a snapshot is at least that of everything that was returned. -/
theorem Base.seq_le_snapshot (base : Base deps s) (v : Version DiskFile) (returned : e ∈ s.returned) :
    e.seq ≤ (s.center.getSnapshot v).seq := by
  have range := base.numbers e (base.issued_of_returned e returned)
  have seq : (s.center.getSnapshot v).seq = s.center.newestUnusedSeq - 1 :=
    SnapshotCenter.leatestUsed_of_pos base.positive base.small
  omega

theorem View.readable (view : View deps s v seen) (base : Base deps s)
    (returned : ∀ a ∈ seen, a ∈ s.returned) : Readable deps s (s.center.getSnapshot v) seen where
  view := view
  bounded _ hx := base.seq_le_snapshot v (view.returned hx)
  below a ha := base.seq_le_snapshot v (returned a ha)

end Reads

theorem returned_mono {a : Action} {e : KvEntry} (taken : step deps s a = some s')
    (mem : e ∈ s.returned) : e ∈ s'.returned := by
  cases step_cases taken with
  | write found held inserted => exact List.mem_append_left _ mem
  | _ => exact mem

section Disk

/-- The files of every version that is in use are on disk. -/
def OnDisk (s : State) : Prop := ∀ v ∈ s.versions, ∀ f ∈ v, f ∈ s.disk

theorem mem_flatMap_set {α β : Type*} {l : List α} {n : Nat} {x : α} {f : α → List β} {b : β}
    (mem : b ∈ (l.set n x).flatMap f) : b ∈ l.flatMap f ∨ b ∈ f x := by
  obtain ⟨y, hy, hb⟩ := List.mem_flatMap.mp mem
  cases List.mem_or_eq_of_mem_set hy with
  | inl old => exact Or.inl (List.mem_flatMap.mpr ⟨y, old, hb⟩)
  | inr eq => exact Or.inr (eq ▸ hb)

theorem mem_versions {v : Version DiskFile} : v ∈ s.versions ↔ v = s.store.current ∨
    v ∈ s.snapshots.flatMap SnapshotPhase.versions ∨ v ∈ s.gets.flatMap (·.phase.versions) := by
  rw [State.versions, List.mem_cons, List.mem_append]

theorem getStep_versions {g : Get} {phase : GetPhase} (next : getStep deps s g = some phase)
    (mem : v ∈ phase.versions) : v = s.store.current ∨ v ∈ g.phase.versions := by
  rw [getStep] at next
  split at next
  · obtain rfl := Option.some.inj next
    exact Or.inl (List.mem_singleton.mp mem)
  · rename_i eq
    obtain rfl := Option.some.inj next
    exact Or.inr (by rw [eq]; exact mem)
  · rename_i eq
    obtain rfl := Option.some.inj next
    exact Or.inr (by rw [eq]; exact mem)
  · rename_i eq
    split at next
    · split at next
      · obtain rfl := Option.some.inj next
        simp [GetPhase.versions] at mem
      · obtain rfl := Option.some.inj next
        exact Or.inr (by rw [eq]; exact mem)
    · simp at next
  · split at next
    · obtain ⟨found, -, rfl⟩ := Option.map_eq_some_iff.mp next
      simp [GetPhase.versions] at mem
    · simp at next
  · simp at next

/-- A step takes hold of no version but the current one. -/
theorem versions_step {a : Action} (taken : step deps s a = some s') (mem : v ∈ s'.versions) :
    v = s'.store.current ∨ v ∈ s.versions := by
  rw [mem_versions] at mem
  rw [mem_versions]
  cases step_cases taken with
  | getSnapshot =>
    rw [List.flatMap_append, List.mem_append] at mem
    rcases mem with current | (old | new) | gets
    · exact Or.inl current
    · exact Or.inr (Or.inr (Or.inl old))
    · exact Or.inl (by simpa [SnapshotPhase.versions] using new)
    · exact Or.inr (Or.inr (Or.inr gets))
  | snapshot found =>
    refine mem.imp_right fun mem => Or.inr ?_
    refine mem.imp_left fun mem => (mem_flatMap_set mem).elim id fun new => ?_
    exact List.mem_flatMap.mpr ⟨_, List.mem_of_getElem? found, new⟩
  | drop found =>
    refine mem.imp_right fun mem => Or.inr ?_
    exact mem.imp_left fun mem => (mem_flatMap_set mem).elim id fun new => by
      simp [SnapshotPhase.versions] at new
  | @get key =>
    have startNone : (startGet s key none).phase.versions = [] := rfl
    refine mem.imp_right fun mem => Or.inr (mem.imp_right fun mem => ?_)
    simpa [startNone] using mem
  | getWith found =>
    refine mem.imp_right fun mem => Or.inr ?_
    rcases mem with old | mem
    · exact Or.inl old
    · rw [List.flatMap_append, List.mem_append] at mem
      refine mem.elim Or.inr fun new => Or.inl ?_
      refine List.mem_flatMap.mpr ⟨_, List.mem_of_getElem? found, ?_⟩
      simp only [startGet] at new
      split at new
      · exact new
      · simp [GetPhase.versions] at new
  | @getStep j g phase found next =>
    rcases mem with current | old | mem
    · exact Or.inl current
    · exact Or.inr (Or.inr (Or.inl old))
    · cases mem_flatMap_set mem with
      | inl old => exact Or.inr (Or.inr (Or.inr old))
      | inr new =>
        refine (getStep_versions next new).imp_right fun held => Or.inr (Or.inr ?_)
        exact List.mem_flatMap.mpr ⟨g, List.mem_of_getElem? found, held⟩
  | _ => exact mem.imp_right Or.inr

/-- Files only come to disk with the store they belong to, and only a collection takes any. -/
theorem disk_cases {a : Action} (noGC : a ≠ .doGC) (taken : step deps s a = some s') :
    s'.store = s.store ∧ s'.disk = s.disk ∨ s'.disk = (s.setStore s'.store).disk := by
  cases step_cases taken with
  | doGC => exact absurd rfl noGC
  | flush found flushing flushed => exact Or.inr rfl
  | mayCompact compacted => exact Or.inr rfl
  | _ => exact Or.inl ⟨rfl, rfl⟩

theorem OnDisk.step {a : Action} (inv : OnDisk s) (taken : step deps s a = some s') :
    OnDisk s' := by
  have current : s.store.current ∈ s.versions := mem_versions.mpr (Or.inl rfl)
  intro v hv f hf
  by_cases gc : a = .doGC
  · subst gc
    obtain rfl := Option.some.inj taken
    exact List.mem_filter.mpr ⟨inv v hv f hf, List.any_eq_true.mpr ⟨v, hv, by simpa using hf⟩⟩
  · cases disk_cases gc taken with
    | inl same =>
      rw [same.2]
      cases versions_step taken hv with
      | inl eq => exact inv _ current f (same.1 ▸ eq ▸ hf)
      | inr old => exact inv v old f hf
    | inr moved =>
      rw [moved]
      cases versions_step taken hv with
      | inr old => exact List.mem_append_left _ (inv v old f hf)
      | inl eq =>
        subst eq
        by_cases old : f ∈ s.store.current
        · exact List.mem_append_left _ (inv _ current f old)
        · exact List.mem_append_right _ (List.mem_filter.mpr ⟨hf, by simpa using old⟩)

theorem OnDisk.init (opened : Opened deps s) : OnDisk s := by
  obtain ⟨-, onDisk, -, -, -, -, -, -, snapshots, gets, -, -⟩ := opened
  intro v hv f hf
  have current : v = s.store.current := by simpa [State.versions, snapshots, gets] using hv
  exact onDisk f (current ▸ hf)

/-- No collection takes a file away from a version that is in use. -/
theorem onDisk_of_reach {ok : State → Action → Prop} (reached : Reach (machine deps) ok s) :
    OnDisk s := by
  apply reached.invariant
  · intro s opened
    exact OnDisk.init opened
  · intro s a s' inv _ taken
    exact inv.step (show step deps s a = some s' from taken)

end Disk

end FrenzyKV.Calls
