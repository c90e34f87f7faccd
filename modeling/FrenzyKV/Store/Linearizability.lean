import FrenzyKV.Store.HistorySteps

namespace FrenzyKV.CallHistory

open Framework
open CallSessions (Action Lasting Running start)
open Sessions (durableContents)

variable {deps : DiskDeps} {compressor : CompressorPolicy} {key : UserKey} {h : History} {s s' : Calls.State} {A stored : Set KvEntry}
  {st : CallSessions.State} {t : Database File} {seqnum : Bytes.ByteString}

/-- Between sessions the calls that count are covered by what is durable. -/
def Inv (deps : DiskDeps) (key : UserKey) (p : CallSessions.State × History) : Prop :=
  match p.1.phase with
  | .closed db => ∃ t logged, CallSessions.Durable deps p.1 db t logged ∧
      Recorded key p.2 (durableContents t logged) (durableContents t logged)
  | .opened s seqnum => Running deps p.1 s seqnum ∧ Following key p.2 s

/-- The calls of a session that have not reached the log are never seen. -/
theorem Recorded.close (recorded : Recorded key h A stored) {A' stored' : Set KvEntry}
    (visible : ∀ n, AtMost key A n → AtMost key A' n) (sub : stored' ⊆ stored) :
    Recorded key { h.tick with inserts := [], gets := [] } A' stored' where
  consistent := recorded.consistent.weaken
    (fun _ _ live => Or.inl (live.resolve_right List.not_mem_nil)) fun _ _ counts => Or.inl counts
  started x hx := Nat.lt_succ_of_lt (recorded.started x hx)
  covered x hx counts := visible _ (recorded.covered x hx counts)
  written e he := recorded.written e (sub he)

theorem Following.crash (f : Following key h s) (running : Running deps st s seqnum)
    (tables : CallSessions.Tables deps s seqnum t) :
    Recorded key { h.tick with inserts := [], gets := [] } (durableContents t s.log)
      (durableContents t s.log) := by
  refine f.toRecorded.close (fun n most => ?_) fun e he => running.mem_durableContents tables he
  obtain ⟨first, log⟩ := running.logged
  rcases most with zero | ⟨e, returned | ⟨p, hp, inLog⟩, own, le⟩
  · exact Or.inl zero
  · have most : AtMost key s.returnedSet n := Or.inr ⟨e, returned, own, le⟩
    exact most.covers (running.covers_returned tables)
  · exact Or.inr ⟨e, Or.inr (log.passed p hp e inLog), own, le⟩

theorem Following.close (f : Following key h s)
    (quiet : s.inserts.all CallSessions.isReturned = true) {logged : List KvEntry}
    (cover : Covers (durableContents t logged) s.returnedSet)
    (sub : ∀ e ∈ durableContents t logged, e ∈ s.returned ∨ e ∈ s.log) :
    Recorded key { h.tick with inserts := [], gets := [] } (durableContents t logged)
      (durableContents t logged) := by
  refine f.toRecorded.close (fun n most => ?_) sub
  have returned : effective s ⊆ s.returnedSet := by
    rintro e (returned | ⟨p, hp, inLog⟩)
    · exact returned
    · have done := List.all_eq_true.mp quiet p hp
      cases p with
      | returned => exact absurd inLog List.not_mem_nil
      | _ => cases done
  exact (most.mono returned).covers cover

/-- A restart goes on with what is durable. -/
theorem Following.init {db' : DiskDatabase} {session : Session} {logged : List KvEntry}
    (recorded : Recorded key h (durableContents t logged) (durableContents t logged))
    (base : Calls.Base deps (start deps db' session))
    (cover : Covers (DiskStore.contents deps.table db'.store.current) (durableContents t logged))
    (sub : DiskStore.contents deps.table db'.store.current ⊆ durableContents t logged) :
    Following key { h.tick with inserts := [], gets := [] } (start deps db' session) := by
  have contents : ∀ e, e ∈ (start deps db' session).returned ↔
      e ∈ DiskStore.contents deps.table db'.store.current :=
    CallSessions.mem_returned_start deps db' session
  have visible : ∀ n, AtMost key (durableContents t logged) n →
      AtMost key (start deps db' session).returnedSet n :=
    fun n most => (most.covers cover).mono fun e he => (contents e).mpr he
  have alive : ∀ x : Record, History.Live { h.tick with inserts := [], gets := [] } x → x.counts = true :=
    fun x live => live.resolve_right List.not_mem_nil
  constructor
  case toRecorded =>
    refine recorded.close (fun n most => (visible n most).mono fun e he => Or.inl he) ?_
    rintro e (returned | inLog)
    · exact sub ((contents e).mp returned)
    · exact absurd inLog List.not_mem_nil
  case inserts => rfl
  case gets => rfl
  case distinct => exact List.nodup_nil
  case before => exact fun t ht => absurd ht List.not_mem_nil
  case apart => exact fun t ht => absurd ht List.not_mem_nil
  case small =>
    exact fun x hx live => (visible _ (recorded.covered x hx (alive x live))).lt_newest base
  case returned =>
    exact fun x hx returned => visible _ (recorded.covered x hx (recorded.consistent.counted x hx returned))
  case pending =>
    intro i p t found
    cases found
  case reading =>
    intro j g t found
    cases found

theorem recorded_start (key : UserKey) : Recorded key ⟨0, [], [], []⟩ (durableContents Database.empty [])
    (durableContents Database.empty []) where
  consistent := ⟨by simp, by simp, by simp, by simp, List.Pairwise.nil, by simp, by simp⟩
  started x hx := absurd hx List.not_mem_nil
  covered x hx := absurd hx List.not_mem_nil
  written e he := absurd he (CallSessions.not_mem_durableContents_empty e)

theorem inv_step {p p' : CallSessions.State × History} {a : Action} (inv : Inv deps key p)
    (opens : deps.Readable compressor) (lasting : Lasting deps p.1 a) (taken : (machine deps key).step p a = some p') :
    Inv deps key p' := by
  obtain ⟨st', moved, rfl⟩ := Option.map_eq_some_iff.mp taken
  obtain ⟨⟨phase, issued, returned⟩, h⟩ := p
  cases phase with
  | closed db =>
    obtain ⟨t, logged, durable, recorded⟩ := inv
    cases a with
    | init =>
      obtain ⟨⟨db', session⟩, opened, rfl⟩ := Option.map_eq_some_iff.mp moved
      obtain ⟨-, -, -, -, -, -, sub, cover⟩ :=
        CallSessions.restarted_of_init opens durable lasting.1 lasting.2 opened
      have running := CallSessions.running_of_init opens durable lasting.1 lasting.2 opened
      exact ⟨running, Following.init recorded running.base cover sub⟩
    | call a => cases moved
    | close => cases moved
    | crash => cases moved
  | opened s seqnum =>
    obtain ⟨running, f⟩ : Running deps ⟨.opened s seqnum, issued, returned⟩ s seqnum ∧ Following key h s := inv
    cases a with
    | init => cases moved
    | call a =>
      obtain ⟨s', stepped, rfl⟩ := Option.map_eq_some_iff.mp moved
      have running' := CallSessions.running_step running opens lasting.1 lasting.2.1 lasting.2.2 stepped
      exact ⟨running', f.step running.toInv opens running'.base lasting.1 stepped⟩
    | close =>
      obtain ⟨quiet, taken⟩ := Option.ite_none_right_eq_some.mp moved
      obtain ⟨free, done⟩ := Bool.and_eq_true_iff.mp quiet
      obtain ⟨db, closed, rfl⟩ := Option.map_eq_some_iff.mp taken
      obtain ⟨t, logged, durable, cover, sub⟩ := CallSessions.durable_of_close running opens lasting.1
        lasting.2 (CallSessions.isFree_eq_true free) closed
      exact ⟨t, logged, durable, f.close done cover sub⟩
    | crash =>
      obtain rfl := Option.some.inj moved
      obtain ⟨t, tables⟩ := running.exists_tables opens
      exact ⟨t, s.log, CallSessions.durable_of_crash running tables lasting, f.crash running tables⟩

/-- Two inserts of a key overlap, the one with the newer number returns, and the process stops. A `get`
of the next session reads what that one wrote. -/
def interruptedHistory : List (Register.Call (Option KvEntry)) :=
  [⟨.write, some (KvEntry.brief 1 1 10), 1, none⟩, ⟨.write, some (KvEntry.brief 1 2 11), 2, some 6⟩,
    ⟨.read, some (KvEntry.brief 1 2 11), 10, some 16⟩]

end FrenzyKV.CallHistory
