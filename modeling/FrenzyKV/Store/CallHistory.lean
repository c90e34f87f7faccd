import FrenzyKV.Framework.Register
import FrenzyKV.Store.CallSessions
import FrenzyKV.Store.VersionedReads

namespace FrenzyKV.CallHistory

open Framework
open CallSessions (Action)

/-- A call on the key, whose register holds what a `get` has to answer. -/
abbrev Record := Register.Tagged (Option KvEntry)

/-- The starts of the calls of the session, and the calls on the key in all sessions. A `get` that
has not returned is left out. -/
structure History where
  clock : Nat
  inserts : List Nat
  gets : List Nat
  calls : List Record

def write (t : Nat) (counts : Bool) (e : KvEntry) : Record :=
  ⟨⟨.write, Calls.answer e, t, none⟩, e.seq, counts⟩

/-- Each entry of a batch is a write of its own. -/
def writes (key : UserKey) (t : Nat) (counts : Bool) (b : WriteBatch) : List Record :=
  (b.entries.filter (·.userKey = key)).map (write t counts)

/-- The insert that started at `t` reaches the log. -/
def logAt (t : Nat) (x : Record) : Record := if x.called = t then { x with counts := true } else x

/-- The insert that started at `t` returns. -/
def returnAt (t now : Nat) (x : Record) : Record :=
  if x.called = t then { x with returned := some now } else x

def newestTombStone (key : UserKey) (es : List KvEntry) : Nat :=
  ((es.filter fun e => e.userKey = key && e.isTombStone).map KvEntry.seq).foldr max 0

/-- The version that a `get` has read. -/
def readVersion (key : UserKey) (s : Calls.State) : Option KvEntry → Nat
  | some e => e.seq
  | none => newestTombStone key s.returned

def read (key : UserKey) (s : Calls.State) (t now : Nat) (result : Option KvEntry) : Record :=
  ⟨⟨.read, result, t, some now⟩, readVersion key s result, true⟩

namespace History

def tick (h : History) : History := { h with clock := h.clock + 1 }

/-- Record a step of the calls of a session. -/
def call (key : UserKey) (h : History) (s s' : Calls.State) : Calls.Action → History
  | .insert b => { h.tick with
      inserts := h.inserts ++ [h.clock]
      calls := h.calls ++ writes key h.clock false (b.setFirstSequenceNum s.center.newestUnusedSeq) }
  | .insertStep i => match h.inserts[i]?, s'.inserts[i]? with
    | some t, some (.logged _) => { h.tick with calls := h.calls.map (logAt t) }
    | some t, some .returned => { h.tick with calls := h.calls.map (returnAt t h.clock) }
    | _, _ => h.tick
  | .get _ _ => { h.tick with gets := h.gets ++ [h.clock] }
  | .getStep j => match h.gets[j]?, s'.gets[j]? with
    | some t, some ⟨k, none, _, .done result⟩ =>
      if k = key then { h.tick with calls := h.calls ++ [read key s t h.clock result] } else h.tick
    | _, _ => h.tick
  | _ => h.tick

/-- Record a step of a run. The calls of a session end with it. -/
def step (key : UserKey) (h : History) (st st' : CallSessions.State) : Action → History
  | .call a => match st.session, st'.session with
    | some s, some s' => h.call key s s' a
    | _, _ => h.tick
  | .init | .close | .crash => { h.tick with inserts := [], gets := [] }

/-- Calls that count now or may count later. -/
def Live (h : History) (x : Record) : Prop := x.counts = true ∨ x.called ∈ h.inserts

end History

/-- Sessions with the history of a key. -/
def machine (deps : DiskDeps) (key : UserKey) : Machine (CallSessions.State × History) Action where
  init p := p = (⟨.closed Database.empty, [], []⟩, ⟨0, [], [], []⟩)
  step p a := (CallSessions.step deps p.1 a).map fun st => (st, p.2.step key p.1 st a)

/-- Some entry of the key is at least as new as a version. -/
def AtMost (key : UserKey) (A : Set KvEntry) (n : Nat) : Prop :=
  n = 0 ∨ ∃ e ∈ A, e.userKey = key ∧ n ≤ e.seq

/-- The calls that count are covered by `visible`, and each entry in `stored` was written by one. -/
structure Recorded (key : UserKey) (h : History) (visible stored : Set KvEntry) : Prop where
  consistent : Register.Consistent none h.Live h.calls
  started : ∀ x ∈ h.calls, x.called < h.clock
  covered : ∀ x ∈ h.calls, x.counts = true → AtMost key visible x.version
  written : ∀ e ∈ stored, e.userKey = key → ∃ x ∈ h.calls, x.counts = true ∧ x.access = .write ∧
    x.version = e.seq ∧ x.value = Calls.answer e

/-- The entries that have reached the log. -/
def effective (s : Calls.State) : Set KvEntry := {e | e ∈ s.returned ∨ ∃ p ∈ s.inserts, e ∈ p.inLog}

/-- The records of an insert that started at `t` and has not returned. -/
def Pending (key : UserKey) (calls : List Record) (t : Nat) : Calls.InsertPhase → Prop
  | .numbered b => ∀ x, x ∈ calls ∧ x.called = t ↔ x ∈ writes key t false b
  | .logged b | .inSection b => ∀ x, x ∈ calls ∧ x.called = t ↔ x ∈ writes key t true b
  | .returned => True

/-- The history of a session that runs. -/
structure Following (key : UserKey) (h : History) (s : Calls.State) : Prop
    extends Recorded key h (effective s) {e | e ∈ s.returned ∨ e ∈ s.log} where
  inserts : h.inserts.length = s.inserts.length
  gets : h.gets.length = s.gets.length
  distinct : h.inserts.Nodup
  before : ∀ t ∈ h.inserts, t < h.clock
  apart : ∀ t ∈ h.gets, t < h.clock ∧ t ∉ h.inserts
  small : ∀ x ∈ h.calls, h.Live x → x.version < s.center.newestUnusedSeq
  returned : ∀ x ∈ h.calls, x.returned.isSome = true → AtMost key s.returnedSet x.version
  pending : ∀ (i : Nat) p t, s.inserts[i]? = some p → h.inserts[i]? = some t → Pending key h.calls t p
  reading : ∀ (j : Nat) g t, s.gets[j]? = some g → h.gets[j]? = some t → g.option = none → g.key = key →
    ∀ x ∈ h.calls, (∃ u ∈ x.returned, u < t) → AtMost key {e | e ∈ g.seen} x.version

variable {deps : DiskDeps} {compressor : CompressorPolicy} {key : UserKey} {h : History} {s s' : Calls.State} {A B stored : Set KvEntry}
  {n t now i j : Nat} {b : WriteBatch}

section Lists

variable {α : Type*} {l : List α} {x y : α} {i j : Nat}

theorem getElem?_concat_cases (found : (l ++ [x])[i]? = some y) :
    l[i]? = some y ∨ (i = l.length ∧ y = x) := by
  grind

theorem getElem?_set_cases (found : (l.set i x)[j]? = some y) :
    (j = i ∧ y = x) ∨ (j ≠ i ∧ l[j]? = some y) := by
  grind

theorem ne_of_getElem? (distinct : l.Nodup) (first : l[i]? = some x) (second : l[j]? = some y)
    (different : j ≠ i) : y ≠ x := by
  rintro rfl
  exact different ((List.getElem?_inj (List.getElem?_eq_some_iff.mp second).1 distinct).mp
    (second.trans first.symm))

end Lists

theorem AtMost.mono (most : AtMost key A n) (sub : A ⊆ B) : AtMost key B n :=
  most.imp_right fun ⟨e, he, rest⟩ => ⟨e, sub he, rest⟩

theorem AtMost.covers (most : AtMost key A n) (cover : Covers B A) : AtMost key B n := by
  rcases most with zero | ⟨e, he, own, le⟩
  · exact Or.inl zero
  · obtain ⟨c, hc, same, newer⟩ := cover e he
    exact Or.inr ⟨c, hc, same.trans own, le.trans newer⟩

theorem AtMost.lt_newest (most : AtMost key s.returnedSet n) (base : Calls.Base deps s) :
    n < s.center.newestUnusedSeq := by
  rcases most with rfl | ⟨e, returned, -, le⟩
  · exact base.positive
  · exact le.trans_lt (base.numbers e (base.issued_of_returned e returned)).2

theorem mem_writes {counts : Bool} {x : Record} :
    x ∈ writes key t counts b ↔ ∃ e ∈ b.entries, e.userKey = key ∧ write t counts e = x := by
  simp [writes, and_assoc]

theorem le_newestTombStone {es : List KvEntry} {e : KvEntry} (mem : e ∈ es) (own : e.userKey = key)
    (tomb : e.isTombStone = true) : e.seq ≤ newestTombStone key es := by
  have inside : e.seq ∈ (es.filter fun e => e.userKey = key && e.isTombStone).map KvEntry.seq :=
    List.mem_map_of_mem (List.mem_filter.mpr ⟨mem, by simp [own, tomb]⟩)
  rw [newestTombStone]
  revert inside
  generalize (es.filter fun e => e.userKey = key && e.isTombStone).map KvEntry.seq = ns
  intro inside
  induction ns with
  | nil => cases inside
  | cons n ns ih =>
    rw [List.foldr_cons]
    rcases List.mem_cons.mp inside with rfl | rest
    · exact le_max_left _ _
    · exact (ih rest).trans (le_max_right _ _)

theorem newestTombStone_cases (key : UserKey) (es : List KvEntry) : newestTombStone key es = 0 ∨
    ∃ e ∈ es, e.userKey = key ∧ e.isTombStone = true ∧ e.seq = newestTombStone key es := by
  have top : ∀ ns : List Nat, ns.foldr max 0 = 0 ∨ ns.foldr max 0 ∈ ns := by
    intro ns
    induction ns with
    | nil => exact Or.inl rfl
    | cons n ns ih =>
      rw [List.foldr_cons]
      rcases max_choice n (ns.foldr max 0) with first | later
      · rw [first]
        exact Or.inr List.mem_cons_self
      · rw [later]
        exact ih.imp_right (List.mem_cons_of_mem n)
  refine (top _).imp_right fun mem => ?_
  obtain ⟨e, he, same⟩ := List.mem_map.mp mem
  obtain ⟨inside, own⟩ := List.mem_filter.mp he
  obtain ⟨own, tomb⟩ := Bool.and_eq_true_iff.mp own
  exact ⟨e, inside, of_decide_eq_true own, tomb, same⟩

theorem answer_eq_some {x e : KvEntry} (found : Calls.answer x = some e) : x = e ∧ e.isTombStone = false := by
  cases tomb : x.isTombStone with
  | true =>
    rw [Calls.answer, if_pos tomb] at found
    cases found
  | false =>
    rw [Calls.answer, tomb] at found
    obtain rfl := Option.some.inj found
    exact ⟨rfl, tomb⟩

/-- A `get` without a snapshot returns what was inserted. -/
theorem of_getStep_done {g : Calls.Get} {e : KvEntry} (base : Calls.Base deps s)
    (opens : deps.Readable compressor) (short : g.key.size < 2 ^ 16) (ok : Calls.GetOk deps s g) (next : Calls.getStep deps s g = some (.done (some e))) :
    e ∈ s.returned ∧ e.userKey = g.key ∧ e.isTombStone = false := by
  have phase := ok.phase
  rw [Calls.getStep] at next
  split at next
  · cases next
  · cases next
  · cases next
  · rename_i snap seq at_
    split at next
    · rename_i free
      split at next
      · rename_i x found
        obtain ⟨rfl, alive⟩ := answer_eq_some (Calls.GetPhase.done.inj (Option.some.inj next))
        obtain ⟨mem, own, -⟩ := Memtable.get_eq_some found
        exact ⟨base.memory ((Calls.State.inMemory_of_free free x).mpr mem), own, alive⟩
      · cases next
    · cases next
  · rename_i snap seq at_
    rw [at_] at phase
    split at next
    · obtain ⟨result, found, shown⟩ := Option.map_eq_some_iff.mp next
      obtain ⟨x, rfl, alive⟩ := Option.bind_eq_some_iff.mp (Calls.GetPhase.done.inj shown)
      obtain ⟨rfl, alive⟩ := answer_eq_some alive
      obtain ⟨legible, ordered, inserted⟩ :
          DiskStore.Legible deps.table (Calls.searchedVersion s snap) ∧
            LevelOrdered (.onDisk deps.table) (Calls.searchedVersion s snap) ∧
              DiskStore.contents deps.table (Calls.searchedVersion s snap) ⊆ s.returnedSet := by
        rw [Calls.searchedVersion]
        split
        · rename_i valid
          have files := (phase.1 valid).2
          exact ⟨files.legible, files.ordered, files.returned⟩
        · exact ⟨base.good.legible, base.good.levelOrdered opens, base.contents⟩
      obtain ⟨_, again, answers⟩ := @DiskStore.answers_findFromSsts _ _ _ ⟨seq, g.key⟩ opens.toReadable
        legible ordered short
      obtain rfl := Option.some.inj (found.symm.trans again)
      obtain ⟨⟨inside, -⟩, own, -⟩ := answers
      exact ⟨inserted (DiskStore.shown_subset opens.toReadable legible inside), own, alive⟩
    · cases next
  · cases next

/-- What a `get` without a snapshot returns was inserted, and is at least as new as all it has seen. -/
theorem readVersion_spec {g : Calls.Get} {result : Option KvEntry} (base : Calls.Base deps s)
    (opens : deps.Readable compressor) (short : g.key.size < 2 ^ 16) (ok : Calls.GetOk deps s g) (next : Calls.getStep deps s g = some (.done result)) :
    (∀ c ∈ g.seen, c.seq ≤ readVersion g.key s result) ∧
      ((readVersion g.key s result = 0 ∧ result = none) ∨ ∃ e ∈ s.returned, e.userKey = g.key ∧
        e.seq = readVersion g.key s result ∧ Calls.answer e = result) := by
  have answered : ∀ c ∈ g.seen, Calls.Answered s g.key c result := ok.next base opens short next
  cases result with
  | none =>
    refine ⟨fun c hc => ?_, ?_⟩
    · obtain ⟨e, returned, own, le, tomb⟩ := answered c hc
      exact le.trans (le_newestTombStone returned own tomb)
    · refine (newestTombStone_cases g.key s.returned).imp (fun zero => ⟨zero, rfl⟩) ?_
      rintro ⟨e, returned, own, tomb, same⟩
      exact ⟨e, returned, own, same, by rw [Calls.answer, if_pos tomb]⟩
  | some e =>
    obtain ⟨returned, own, alive⟩ := of_getStep_done base opens short ok next
    exact ⟨fun c hc => (answered c hc).2.2.1, Or.inr ⟨e, returned, own, rfl, by rw [Calls.answer, alive]; rfl⟩⟩

/-- A change of the records of the insert that started at `t`. -/
structure Updates (t : Nat) (change : Record → Record) : Prop where
  same : ∀ x, (change x).access = x.access ∧ (change x).value = x.value ∧
    (change x).called = x.called ∧ (change x).version = x.version
  counts : ∀ x, x.counts = true → (change x).counts = true
  others : ∀ x, x.called ≠ t → change x = x

theorem updates_logAt (t : Nat) : Updates t (logAt t) where
  same x := by
    rw [logAt]
    split <;> exact ⟨rfl, rfl, rfl, rfl⟩
  counts x counts := by
    rw [logAt]
    split
    · rfl
    · exact counts
  others x other := if_neg other

theorem logAt_returned (t : Nat) (x : Record) : (logAt t x).returned = x.returned := by
  rw [logAt]
  split <;> rfl

theorem returnAt_counts (t now : Nat) (x : Record) : (returnAt t now x).counts = x.counts := by
  rw [returnAt]
  split <;> rfl

theorem updates_returnAt (t now : Nat) : Updates t (returnAt t now) where
  same x := by
    rw [returnAt]
    split <;> exact ⟨rfl, rfl, rfl, rfl⟩
  counts x counts := (returnAt_counts t now x).trans counts
  others x other := if_neg other

/-- The records of the other inserts of the session stay as they are. -/
theorem Pending.append {calls new : List Record} {p : Calls.InsertPhase} (pending : Pending key calls t p)
    (other : ∀ y ∈ new, y.called ≠ t) : Pending key (calls ++ new) t p := by
  have same : ∀ x, x ∈ calls ++ new ∧ x.called = t ↔ x ∈ calls ∧ x.called = t := by
    refine fun x => and_congr_left fun start => ?_
    rw [List.mem_append, or_iff_left fun hx => other x hx start]
  cases p with
  | returned => trivial
  | _ => exact fun x => (same x).trans (pending x)

theorem Pending.map {calls : List Record} {change : Record → Record} {u : Nat} {p : Calls.InsertPhase}
    (pending : Pending key calls t p) (updates : Updates u change) (other : t ≠ u) :
    Pending key (calls.map change) t p := by
  have same : ∀ x, x ∈ calls.map change ∧ x.called = t ↔ x ∈ calls ∧ x.called = t := by
    refine fun x => and_congr_left fun start => ?_
    have unchanged : ∀ y : Record, y.called = t → change y = y :=
      fun y at_ => updates.others y fun eq => other (at_.symm.trans eq)
    constructor
    · intro hx
      obtain ⟨y, hy, rfl⟩ := List.mem_map.mp hx
      rw [unchanged y ((updates.same y).2.2.1.symm.trans start)]
      exact hy
    · exact fun hx => List.mem_map.mpr ⟨x, hx, unchanged x start⟩
  cases p with
  | returned => trivial
  | _ => exact fun x => (same x).trans (pending x)

/-- An insert whose entries stay in effect goes on. -/
theorem effective_set {p q : Calls.InsertPhase} (found : s.inserts[i]? = some p)
    (inserts : s'.inserts = s.inserts.set i q) (returned : s.returned ⊆ s'.returned)
    (own : ∀ e ∈ p.inLog, e ∈ effective s') : effective s ⊆ effective s' := by
  rintro e (old | ⟨p', hp, inLog⟩)
  · exact Or.inl (returned old)
  · obtain ⟨j, here⟩ := List.mem_iff_getElem?.mp hp
    by_cases same : j = i
    · subst same
      obtain rfl := Option.some.inj (found.symm.trans here)
      exact own e inLog
    · refine Or.inr ⟨p', ?_, inLog⟩
      rw [inserts]
      exact List.mem_of_getElem? ((List.getElem?_set_ne (Ne.symm same)).trans here)

end FrenzyKV.CallHistory
