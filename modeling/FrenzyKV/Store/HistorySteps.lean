import FrenzyKV.Store.CallHistory

namespace FrenzyKV.CallHistory

open Framework

variable {deps : DiskDeps} {compressor : CompressorPolicy} {key : UserKey} {h : History} {s s' : Calls.State} {A B stored : Set KvEntry}
  {n t now i j : Nat} {b : WriteBatch}

theorem Recorded.tick {A' stored' : Set KvEntry} (recorded : Recorded key h A stored) (visible : A ⊆ A')
    (sub : stored' ⊆ stored) : Recorded key h.tick A' stored' where
  consistent := recorded.consistent
  started x hx := Nat.lt_succ_of_lt (recorded.started x hx)
  covered x hx counts := (recorded.covered x hx counts).mono visible
  written e he := recorded.written e (sub he)

/-- Steps that leave the log and the returned entries alone. -/
theorem Following.frame (f : Following key h s) (visible : effective s ⊆ effective s')
    (returned : s'.returned = s.returned) (log : s'.log = s.log) (center : s'.center = s.center)
    (inserts : s'.inserts.length = s.inserts.length) (gets : s'.gets.length = s.gets.length)
    (pending : ∀ (i : Nat) p t, s'.inserts[i]? = some p → h.inserts[i]? = some t → Pending key h.calls t p)
    (views : ∀ (j : Nat) g', s'.gets[j]? = some g' → ∃ g, s.gets[j]? = some g ∧ g'.key = g.key ∧
      g'.option = g.option ∧ g'.seen = g.seen) : Following key h.tick s' where
  toRecorded := by
    refine f.toRecorded.tick visible fun e he => ?_
    rw [Set.mem_ofPred_eq, returned, log] at he
    exact he
  inserts := f.inserts.trans inserts.symm
  gets := f.gets.trans gets.symm
  distinct := f.distinct
  before t ht := Nat.lt_succ_of_lt (f.before t ht)
  apart t ht := ⟨Nat.lt_succ_of_lt (f.apart t ht).1, (f.apart t ht).2⟩
  small := center ▸ f.small
  returned := by
    rw [Calls.State.returnedSet, returned]
    exact f.returned
  pending := pending
  reading j g' t found start default own x hx before := by
    obtain ⟨g, here, sameKey, sameOption, sameSeen⟩ := views j g' found
    rw [sameSeen]
    exact f.reading j g t here start (sameOption ▸ default) (sameKey ▸ own) x hx before

section Insert

/-- A record of an insert that has just started. -/
structure NewWrite (t low high : Nat) (y : Record) : Prop where
  access : y.access = .write
  counts : y.counts = false
  returned : y.returned = none
  called : y.called = t
  low : low ≤ y.version
  high : y.version < high

/-- The records of an insert. -/
def newWrites (key : UserKey) (h : History) (s : Calls.State) (b : WriteBatch) : List Record :=
  writes key h.clock false (b.setFirstSequenceNum s.center.newestUnusedSeq)

theorem newWrite_of_mem (fits : s.center.newestUnusedSeq + b.count < sequenceNumberModulus) :
    ∀ y ∈ newWrites key h s b,
      NewWrite h.clock s.center.newestUnusedSeq (s.center.newestUnusedSeq + b.count) y := by
  intro y hy
  obtain ⟨e, he, -, rfl⟩ := mem_writes.mp hy
  obtain ⟨low, high⟩ := WriteBatch.seq_of_mem_numbered fits.le he
  exact ⟨rfl, rfl, rfl, rfl, low, high⟩

theorem newWrites_apart (fits : s.center.newestUnusedSeq + b.count < sequenceNumberModulus) :
    (newWrites key h s b).Pairwise (·.version ≠ ·.version) := by
  refine List.pairwise_map.mpr ((WriteBatch.numbered_seq_injective fits.le).filter _ |>.imp ?_)
  exact fun less => less.ne

/-- An old record does not come alive with the new insert. -/
theorem Following.live_of_insert (f : Following key h s) {x : Record} (hx : x ∈ h.calls)
    (live : History.Live (h.call key s s' (.insert b)) x) : h.Live x := by
  refine live.imp_right fun inserts => ?_
  exact (List.mem_append.mp inserts).resolve_right fun now =>
    (f.started x hx).ne (List.mem_singleton.mp now)

theorem Following.recorded_insert (f : Following key h s) (positive : 0 < s.center.newestUnusedSeq)
    (fits : s.center.newestUnusedSeq + b.count < sequenceNumberModulus) (visible : effective s ⊆ A) :
    Recorded key (h.call key s s' (.insert b)) A {e | e ∈ s.returned ∨ e ∈ s.log} where
  consistent := by
    have new := @newWrite_of_mem key h s b fits
    refine f.consistent.append_writes (fun x hx live => f.live_of_insert hx live)
      (fun x hx counts => Or.inl counts) ?_ ?_ ?_ (newWrites_apart fits)
    · exact fun y hy => ⟨(new y hy).access, (new y hy).counts, (new y hy).returned⟩
    · exact fun x hx live y hy => (f.small x hx live).trans_le (new y hy).low
    · exact fun y hy => positive.trans_le (new y hy).low
  started := by
    refine List.forall_mem_append.mpr ⟨fun x hx => Nat.lt_succ_of_lt (f.started x hx), fun y hy => ?_⟩
    exact (newWrite_of_mem fits y hy).called ▸ Nat.lt_succ_self h.clock
  covered := by
    refine List.forall_mem_append.mpr ⟨fun x hx counts => (f.covered x hx counts).mono visible, ?_⟩
    intro y hy counts
    rw [(newWrite_of_mem fits y hy).counts] at counts
    cases counts
  written := by
    intro e he own
    obtain ⟨x, hx, rest⟩ := f.written e he own
    exact ⟨x, List.mem_append_left _ hx, rest⟩

/-- The records of the insert are pending, and those of the others still are. -/
theorem Following.pending_insert (f : Following key h s)
    (fits : s.center.newestUnusedSeq + b.count < sequenceNumberModulus) (i : Nat) (p : Calls.InsertPhase)
    (t : Nat) (found : (s.inserts ++ [.numbered (b.setFirstSequenceNum s.center.newestUnusedSeq)])[i]? = some p)
    (start : (h.inserts ++ [h.clock])[i]? = some t) : Pending key (h.calls ++ newWrites key h s b) t p := by
  have new := @newWrite_of_mem key h s b fits
  rcases getElem?_concat_cases found with old | ⟨at_, rfl⟩
  · have inside : i < h.inserts.length := f.inserts ▸ (List.getElem?_eq_some_iff.mp old).1
    have start := (List.getElem?_append_left inside).symm.trans start
    refine (f.pending i p t old start).append fun y hy => ?_
    rw [(new y hy).called]
    exact (f.before t (List.mem_of_getElem? start)).ne'
  · rw [at_, ← f.inserts] at start
    obtain rfl := Option.some.inj (List.getElem?_concat_length.symm.trans start)
    intro x
    constructor
    · rintro ⟨hx, now⟩
      exact (List.mem_append.mp hx).resolve_left fun before => (f.started x before).ne now
    · exact fun hx => ⟨List.mem_append_right _ hx, (new x hx).called⟩

theorem Following.insert (f : Following key h s) (base : Calls.Base deps s)
    (fits : s.center.newestUnusedSeq + b.count < sequenceNumberModulus)
    (taken : Calls.step deps s (.insert b) = some s') :
    Following key (h.call key s s' (.insert b)) s' := by
  have new := @newWrite_of_mem key h s b fits
  cases Calls.step_cases taken with
  | insert few =>
    have next : (s.center.getNextUnusedSequenceNumber b.count).newestUnusedSeq =
        s.center.newestUnusedSeq + b.count := SnapshotCenter.getNextUnused_of_lt fits
    constructor
    case toRecorded =>
      refine f.recorded_insert base.positive fits ?_
      rintro e (returned | ⟨p, hp, inLog⟩)
      · exact Or.inl returned
      · exact Or.inr ⟨p, List.mem_append_left _ hp, inLog⟩
    case inserts =>
      rw [History.call, List.length_append, List.length_append, f.inserts]
      rfl
    case gets => exact f.gets
    case distinct =>
      refine List.nodup_append.mpr ⟨f.distinct, List.nodup_singleton _, fun t ht u hu => ?_⟩
      rw [List.mem_singleton.mp hu]
      exact (f.before t ht).ne
    case before =>
      refine List.forall_mem_append.mpr ⟨fun t ht => Nat.lt_succ_of_lt (f.before t ht), fun t ht => ?_⟩
      rw [List.mem_singleton.mp ht]
      exact Nat.lt_succ_self _
    case apart =>
      intro t ht
      obtain ⟨early, other⟩ := f.apart t ht
      refine ⟨Nat.lt_succ_of_lt early, fun inside => ?_⟩
      rcases List.mem_append.mp inside with inside | now
      · exact other inside
      · exact early.ne (List.mem_singleton.mp now)
    case small =>
      change ∀ x ∈ h.calls ++ newWrites key h s b, _ → x.version < _
      rw [next]
      refine List.forall_mem_append.mpr ⟨fun x hx live => ?_, fun y hy _ => (new y hy).high⟩
      exact (f.small x hx (f.live_of_insert hx live)).trans_le (Nat.le_add_right _ _)
    case returned =>
      refine List.forall_mem_append.mpr ⟨f.returned, fun y hy returned => ?_⟩
      rw [(new y hy).returned] at returned
      cases returned
    case pending => exact f.pending_insert fits
    case reading =>
      intro j g t found start default own
      refine List.forall_mem_append.mpr ⟨f.reading j g t found start default own, fun y hy before => ?_⟩
      obtain ⟨u, returned, -⟩ := before
      rw [(new y hy).returned] at returned
      cases returned

end Insert

theorem Following.exists_start {p : Calls.InsertPhase} (f : Following key h s)
    (found : s.inserts[i]? = some p) : ∃ t, h.inserts[i]? = some t := by
  have inside : i < h.inserts.length := f.inserts ▸ (List.getElem?_eq_some_iff.mp found).1
  exact ⟨h.inserts[i], List.getElem?_eq_getElem inside⟩

/-- An insert moves on and its records with it. -/
theorem Following.map {change : Record → Record} {q : Calls.InsertPhase} (f : Following key h s)
    (updates : Updates t change) (start : h.inserts[i]? = some t)
    (inserts : s'.inserts = s.inserts.set i q) (gets : s'.gets = s.gets) (center : s'.center = s.center)
    (visible : effective s ⊆ effective s')
    (times : ∀ x, ∀ u ∈ (change x).returned, u ∈ x.returned ∨ u = h.clock)
    (counted : ∀ x ∈ h.calls, (change x).returned.isSome = true → (change x).counts = true)
    (covered : ∀ x ∈ h.calls, x.called = t → AtMost key (effective s') x.version)
    (written : ∀ e, e ∈ s'.returned ∨ e ∈ s'.log → e.userKey = key → ∃ x ∈ h.calls,
      (change x).counts = true ∧ x.access = .write ∧ x.version = e.seq ∧ x.value = Calls.answer e)
    (returned : ∀ x ∈ h.calls, (change x).returned.isSome = true → AtMost key s'.returnedSet x.version)
    (own : Pending key (h.calls.map change) t q) :
    Following key { h.tick with calls := h.calls.map change } s' := by
  have live : ∀ x ∈ h.calls, History.Live { h.tick with calls := h.calls.map change } (change x) →
      h.Live x := by
    intro x hx live
    by_cases same : x.called = t
    · exact Or.inr (same ▸ List.mem_of_getElem? start)
    · rw [updates.others x same] at live
      exact live
  constructor
  case toRecorded =>
    constructor
    case consistent =>
      refine f.consistent.map updates.same (fun x _ u done => ?_) counted
        (fun x _ counts => updates.counts x counts) (fun _ _ counts => Or.inl counts) live
      rcases times x u done with old | rfl
      · exact Or.inl old
      · exact Or.inr fun y hy => (f.started y hy).le
    case started =>
      refine List.forall_mem_map.mpr fun x hx => ?_
      rw [(updates.same x).2.2.1]
      exact Nat.lt_succ_of_lt (f.started x hx)
    case covered =>
      refine List.forall_mem_map.mpr fun x hx counts => ?_
      rw [(updates.same x).2.2.2]
      by_cases same : x.called = t
      · exact covered x hx same
      · rw [updates.others x same] at counts
        exact (f.covered x hx counts).mono visible
    case written =>
      intro e he mine
      obtain ⟨x, hx, counts, access, version, value⟩ := written e he mine
      have same := updates.same x
      exact ⟨change x, List.mem_map_of_mem hx, counts, same.1.trans access, same.2.2.2.trans version,
        same.2.1.trans value⟩
  case inserts => rw [inserts, List.length_set]; exact f.inserts
  case gets => rw [gets]; exact f.gets
  case distinct => exact f.distinct
  case before => exact fun u hu => Nat.lt_succ_of_lt (f.before u hu)
  case apart => exact fun u hu => ⟨Nat.lt_succ_of_lt (f.apart u hu).1, (f.apart u hu).2⟩
  case small =>
    refine List.forall_mem_map.mpr fun x hx alive => ?_
    rw [(updates.same x).2.2.2, center]
    exact f.small x hx (live x hx alive)
  case returned =>
    refine List.forall_mem_map.mpr fun x hx done => ?_
    rw [(updates.same x).2.2.2]
    exact returned x hx done
  case pending =>
    intro j p u found start'
    rw [inserts] at found
    rcases getElem?_set_cases found with ⟨rfl, rfl⟩ | ⟨different, found⟩
    · obtain rfl := Option.some.inj (start.symm.trans start')
      exact own
    · exact (f.pending j p u found start').map updates (ne_of_getElem? f.distinct start start' different)
  case reading =>
    intro j g u found start' default mine
    refine List.forall_mem_map.mpr fun x hx before => ?_
    rw [(updates.same x).2.2.2]
    rw [gets] at found
    obtain ⟨v, done, early⟩ := before
    rcases times x v done with old | rfl
    · exact f.reading j g u found start' default mine x hx ⟨v, old, early⟩
    · exact absurd early (f.apart u (List.mem_of_getElem? start')).1.not_gt

theorem Following.log (f : Following key h s) (found : s.inserts[i]? = some (.numbered b))
    (next : s' = { s.setInsert i (.logged b) with log := s.log ++ b.entries }) :
    Following key (h.call key s s' (.insertStep i)) s' := by
  obtain ⟨t, start⟩ := f.exists_start found
  have inserts : s'.inserts = s.inserts.set i (.logged b) := by rw [next]; rfl
  have inside : i < s.inserts.length := (List.getElem?_eq_some_iff.mp found).1
  have phase : s'.inserts[i]? = some (.logged b) := by rw [inserts, List.getElem?_set_self inside]
  have own : ∀ x, x ∈ h.calls ∧ x.called = t ↔ x ∈ writes key t false b := f.pending i _ t found start
  have change : ∀ e, logAt t (CallHistory.write t false e) = CallHistory.write t true e :=
    fun _ => if_pos rfl
  have recorded : h.call key s s' (.insertStep i) = { h.tick with calls := h.calls.map (logAt t) } := by
    simp only [History.call, start, phase]
  rw [recorded]
  refine f.map (updates_logAt t) start inserts (by rw [next]; rfl) (by rw [next]; rfl) ?_ ?_ ?_ ?_ ?_ ?_ ?_
  · refine effective_set found inserts ?_ fun e he => absurd he List.not_mem_nil
    rw [next]
    exact List.Subset.refl _
  · exact fun x u done => Or.inl (logAt_returned t x ▸ done)
  · intro x hx done
    exact (updates_logAt t).counts x (f.consistent.counted x hx (logAt_returned t x ▸ done))
  · intro x hx at_
    obtain ⟨e, he, mine, rfl⟩ := mem_writes.mp ((own x).mp ⟨hx, at_⟩)
    exact Or.inr ⟨e, Or.inr ⟨.logged b, List.mem_of_getElem? phase, he⟩, mine, le_rfl⟩
  · intro e he mine
    rw [next] at he
    have old : (e ∈ s.returned ∨ e ∈ s.log) ∨ e ∈ b.entries := by
      rcases he with returned | inLog
      · exact Or.inl (Or.inl returned)
      · exact (List.mem_append.mp inLog).imp_left Or.inr
    rcases old with old | new
    · obtain ⟨x, hx, counts, rest⟩ := f.written e old mine
      exact ⟨x, hx, (updates_logAt t).counts x counts, rest⟩
    · have hx := ((own _).mpr (mem_writes.mpr ⟨e, new, mine, rfl⟩)).1
      exact ⟨_, hx, change e ▸ rfl, rfl, rfl, rfl⟩
  · intro x hx done
    rw [logAt_returned] at done
    rw [next]
    exact f.returned x hx done
  · intro x
    constructor
    · rintro ⟨hx, at_⟩
      obtain ⟨y, hy, rfl⟩ := List.mem_map.mp hx
      have here : y.called = t := ((updates_logAt t).same y).2.2.1.symm.trans at_
      obtain ⟨e, he, mine, rfl⟩ := mem_writes.mp ((own y).mp ⟨hy, here⟩)
      exact mem_writes.mpr ⟨e, he, mine, (change e).symm⟩
    · intro hx
      obtain ⟨e, he, mine, rfl⟩ := mem_writes.mp hx
      have hy := ((own _).mpr (mem_writes.mpr ⟨e, he, mine, rfl⟩)).1
      exact ⟨List.mem_map.mpr ⟨_, hy, change e⟩, rfl⟩

theorem Following.write {mem : Memtable} (f : Following key h s)
    (found : s.inserts[i]? = some (.inSection b))
    (next : s' = { s.setInsert i .returned with
      mem, memSection := .free, returned := s.returned ++ b.entries }) :
    Following key (h.call key s s' (.insertStep i)) s' := by
  obtain ⟨t, start⟩ := f.exists_start found
  have inserts : s'.inserts = s.inserts.set i .returned := by rw [next]; rfl
  have returned : s'.returned = s.returned ++ b.entries := by rw [next]
  have inside : i < s.inserts.length := (List.getElem?_eq_some_iff.mp found).1
  have phase : s'.inserts[i]? = some .returned := by rw [inserts, List.getElem?_set_self inside]
  have own : ∀ x, x ∈ h.calls ∧ x.called = t ↔ x ∈ writes key t true b := f.pending i _ t found start
  have more : s.returned ⊆ s'.returned := returned ▸ List.subset_append_left _ _
  have mine : ∀ x ∈ h.calls, x.called = t → x.counts = true ∧ AtMost key s'.returnedSet x.version := by
    intro x hx at_
    obtain ⟨e, he, mine, rfl⟩ := mem_writes.mp ((own x).mp ⟨hx, at_⟩)
    refine ⟨rfl, Or.inr ⟨e, ?_, mine, le_rfl⟩⟩
    rw [Calls.State.returnedSet, returned]
    exact List.mem_append_right _ he
  have others : ∀ x, x.called ≠ t → returnAt t h.clock x = x := (updates_returnAt t h.clock).others
  have recorded : h.call key s s' (.insertStep i) =
      { h.tick with calls := h.calls.map (returnAt t h.clock) } := by
    simp only [History.call, start, phase]
  rw [recorded]
  refine f.map (updates_returnAt t h.clock) start inserts (by rw [next]; rfl) (by rw [next]; rfl)
    ?_ ?_ ?_ ?_ ?_ ?_ trivial
  · refine effective_set found inserts more fun e he => Or.inl ?_
    rw [returned]
    exact List.mem_append_right _ he
  · intro x u done
    by_cases same : x.called = t
    · rw [returnAt, if_pos same] at done
      exact Or.inr (Option.some.inj done).symm
    · exact Or.inl (others x same ▸ done)
  · intro x hx done
    rw [returnAt_counts]
    by_cases same : x.called = t
    · exact (mine x hx same).1
    · rw [others x same] at done
      exact f.consistent.counted x hx done
  · exact fun x hx at_ => (mine x hx at_).2.mono fun e he => Or.inl he
  · intro e he own_
    have here : ∃ x ∈ h.calls, x.counts = true ∧ x.access = .write ∧ x.version = e.seq ∧
        x.value = Calls.answer e := by
      rw [next] at he
      rcases he with returned | logged
      · rcases List.mem_append.mp returned with old | new
        · exact f.written e (Or.inl old) own_
        · have hx := ((own _).mpr (mem_writes.mpr ⟨e, new, own_, rfl⟩)).1
          exact ⟨_, hx, rfl, rfl, rfl, rfl⟩
      · exact f.written e (Or.inr logged) own_
    obtain ⟨x, hx, counts, rest⟩ := here
    exact ⟨x, hx, (returnAt_counts t h.clock x).trans counts, rest⟩
  · intro x hx done
    by_cases same : x.called = t
    · exact (mine x hx same).2
    · rw [others x same] at done
      exact (f.returned x hx done).mono more

/-- A `get` on the key returns. -/
theorem Following.read {g : Calls.Get} {result : Option KvEntry} (f : Following key h s)
    (base : Calls.Base deps s) (clock : h.clock = now + 1) (found : s.gets[j]? = some g) (start : h.gets[j]? = some t)
    (default : g.option = none) (mine : g.key = key)
    (top : ∀ c ∈ g.seen, c.seq ≤ readVersion key s result)
    (source : (readVersion key s result = 0 ∧ result = none) ∨ ∃ e ∈ s.returned, e.userKey = key ∧
      e.seq = readVersion key s result ∧ Calls.answer e = result) :
    Following key { h with calls := h.calls ++ [read key s t now result] } s := by
  obtain ⟨early, other⟩ := f.apart t (List.mem_of_getElem? start)
  have most : AtMost key s.returnedSet (readVersion key s result) :=
    source.imp And.left fun ⟨e, returned, own, same, _⟩ => ⟨e, returned, own, same.ge⟩
  have atMost : AtMost key (effective s) (readVersion key s result) := most.mono fun e he => Or.inl he
  have mem_same : ∀ y ∈ [CallHistory.read key s t now result], y = CallHistory.read key s t now result :=
    fun y hy => List.mem_singleton.mp hy
  constructor
  case toRecorded =>
    constructor
    case consistent =>
      refine f.consistent.append_read rfl rfl (Or.inl rfl) rfl ?_ ?_ ?_ ?_
      · change t ≤ now
        omega
      · intro y hy
        have := f.started y hy
        omega
      · intro x hx before
        rcases f.reading j g t found start default mine x hx before with zero | ⟨c, seen, -, le⟩
        · exact zero.le.trans (Nat.zero_le _)
        · exact le.trans (top c seen)
      · refine source.imp_right ?_
        rintro ⟨e, returned, own, same, value⟩
        obtain ⟨x, hx, counts, access, version, shows⟩ := f.written e (Or.inl returned) own
        exact ⟨x, hx, counts, access, version.trans same, shows.trans value⟩
    case started =>
      refine List.forall_mem_append.mpr ⟨f.started, fun y hy => ?_⟩
      rw [mem_same y hy]
      exact early
    case covered =>
      refine List.forall_mem_append.mpr ⟨f.covered, fun y hy _ => ?_⟩
      rw [mem_same y hy]
      exact atMost
    case written =>
      intro e he own
      obtain ⟨x, hx, rest⟩ := f.written e he own
      exact ⟨x, List.mem_append_left _ hx, rest⟩
  case inserts => exact f.inserts
  case gets => exact f.gets
  case distinct => exact f.distinct
  case before => exact f.before
  case apart => exact f.apart
  case small =>
    refine List.forall_mem_append.mpr ⟨f.small, fun y hy _ => ?_⟩
    rw [mem_same y hy]
    exact most.lt_newest base
  case returned =>
    refine List.forall_mem_append.mpr ⟨f.returned, fun y hy _ => ?_⟩
    rw [mem_same y hy]
    exact most
  case pending =>
    intro i p u found' start'
    refine (f.pending i p u found' start').append fun y hy => ?_
    rw [mem_same y hy]
    rintro rfl
    exact other (List.mem_of_getElem? start')
  case reading =>
    intro i g' u found' start' default' own'
    refine List.forall_mem_append.mpr ⟨f.reading i g' u found' start' default' own', fun y hy before => ?_⟩
    obtain ⟨v, done, late⟩ := before
    rw [mem_same y hy] at done
    obtain rfl := Option.some.inj done
    have := (f.apart u (List.mem_of_getElem? start')).1
    omega

theorem Following.quiet (f : Following key h s) (inserts : s'.inserts = s.inserts)
    (gets : s'.gets = s.gets) (returned : s'.returned = s.returned) (log : s'.log = s.log)
    (center : s'.center = s.center) : Following key h.tick s' := by
  refine f.frame ?_ returned log center (by rw [inserts]) (by rw [gets]) ?_ ?_
  · rw [effective, effective, inserts, returned]
  · exact inserts ▸ f.pending
  · exact fun j g here => ⟨g, gets ▸ here, rfl, rfl, rfl⟩

theorem Following.lock {sec : Calls.MemSection} (f : Following key h s)
    (found : s.inserts[i]? = some (.logged b))
    (next : s' = { s.setInsert i (.inSection b) with memSection := sec }) : Following key h.tick s' := by
  have inserts : s'.inserts = s.inserts.set i (.inSection b) := by rw [next]; rfl
  have inside : i < s.inserts.length := (List.getElem?_eq_some_iff.mp found).1
  have phase : s'.inserts[i]? = some (.inSection b) := by rw [inserts, List.getElem?_set_self inside]
  refine f.frame ?_ (by rw [next]; rfl) (by rw [next]; rfl) (by rw [next]; rfl)
    (by rw [inserts, List.length_set]) (by rw [next]; rfl) ?_ ?_
  · refine effective_set found inserts ?_ fun e he => Or.inr ⟨_, List.mem_of_getElem? phase, he⟩
    rw [next]
    exact List.Subset.refl _
  · intro j p t found' start
    rw [inserts] at found'
    rcases getElem?_set_cases found' with ⟨rfl, rfl⟩ | ⟨-, found'⟩
    · exact f.pending j (.logged b) t found start
    · exact f.pending j p t found' start
  · rw [next]
    exact fun j g here => ⟨g, here, rfl, rfl, rfl⟩

theorem Following.get {k : UserKey} {view : Option (Snapshot DiskFile × List KvEntry)} (f : Following key h s)
    (next : s' = { s with gets := s.gets ++ [Calls.startGet s k view] }) :
    Following key { h.tick with gets := h.gets ++ [h.clock] } s' := by
  subst next
  have inUse : h.clock ∉ h.inserts := fun inside => (f.before h.clock inside).false
  constructor
  case toRecorded =>
    exact ⟨f.consistent, fun x hx => Nat.lt_succ_of_lt (f.started x hx), f.covered, f.written⟩
  case inserts => exact f.inserts
  case gets => rw [List.length_append, List.length_append, f.gets]; rfl
  case distinct => exact f.distinct
  case before => exact fun t ht => Nat.lt_succ_of_lt (f.before t ht)
  case apart =>
    refine List.forall_mem_append.mpr ⟨fun t ht => ⟨Nat.lt_succ_of_lt (f.apart t ht).1, (f.apart t ht).2⟩, ?_⟩
    intro t ht
    rw [List.mem_singleton.mp ht]
    exact ⟨Nat.lt_succ_self _, inUse⟩
  case small => exact f.small
  case returned => exact f.returned
  case pending => exact f.pending
  case reading =>
    intro j g t found start default mine x hx before
    rcases getElem?_concat_cases found with old | ⟨at_, rfl⟩
    · have inside : j < h.gets.length := f.gets ▸ (List.getElem?_eq_some_iff.mp old).1
      exact f.reading j g t old ((List.getElem?_append_left inside).symm.trans start) default mine x hx before
    · obtain ⟨own, seen⟩ := CallSessions.seen_startGet default
      obtain ⟨u, returned, -⟩ := before
      refine (f.returned x hx (Option.isSome_of_mem returned)).imp_right ?_
      rintro ⟨e, he, same, le⟩
      refine ⟨e, ?_, same, le⟩
      rw [seen]
      exact List.mem_filter.mpr ⟨he, decide_eq_true (same.trans (mine.symm.trans own))⟩

theorem readVersion_congr (returned : s'.returned = s.returned) (result : Option KvEntry) :
    readVersion key s' result = readVersion key s result := by
  cases result with
  | none => rw [readVersion, readVersion, returned]
  | some e => rfl

theorem Following.getStep {g : Calls.Get} {phase : Calls.GetPhase} (f : Following key h s)
    (inv : Calls.Inv deps s) (opens : deps.Readable compressor) (base : Calls.Base deps s') (found : s.gets[j]? = some g)
    (taken : Calls.getStep deps s g = some phase)
    (next : s' = { s with gets := s.gets.set j { g with phase } }) :
    Following key (h.call key s s' (.getStep j)) s' := by
  have inside : j < s.gets.length := (List.getElem?_eq_some_iff.mp found).1
  have gets : s'.gets = s.gets.set j { g with phase } := by rw [next]
  have here : s'.gets[j]? = some { g with phase } := by rw [gets, List.getElem?_set_self inside]
  have inside' : j < h.gets.length := f.gets.symm ▸ inside
  have start : h.gets[j]? = some h.gets[j] := List.getElem?_eq_getElem inside'
  have quiet : Following key h.tick s' := by
    refine f.frame ?_ (by rw [next]) (by rw [next]) (by rw [next]) (by rw [next])
      (by rw [gets, List.length_set]) ?_ ?_
    · rw [next]
      exact fun _ he => he
    · rw [next]
      exact f.pending
    · intro i g' found'
      rw [gets] at found'
      rcases getElem?_set_cases found' with ⟨rfl, rfl⟩ | ⟨-, old⟩
      · exact ⟨g, found, rfl, rfl, rfl⟩
      · exact ⟨g', old, rfl, rfl, rfl⟩
  obtain ⟨k, option, seen, before⟩ := g
  by_cases recorded : k = key ∧ option = none ∧ ∃ result, phase = .done result
  · obtain ⟨rfl, rfl, result, rfl⟩ := recorded
    have held := List.mem_of_getElem? found
    obtain ⟨top, source⟩ := readVersion_spec inv.base opens (inv.base.short _ held) (inv.gets _ held rfl) taken
    have returned : s'.returned = s.returned := by rw [next]
    have same := @readVersion_congr k _ _ returned result
    have added := quiet.read base rfl here start rfl rfl (same ▸ top) (same ▸ returned ▸ source)
    have equal : CallHistory.read k s' h.gets[j] h.clock result = CallHistory.read k s h.gets[j] h.clock result := by
      rw [CallHistory.read, CallHistory.read, same]
    rw [equal] at added
    simp only [History.call, start, here]
    exact added
  · have unchanged : h.call key s s' (.getStep j) = h.tick := by
      simp only [History.call, start, here]
      split
      · rename_i eq
        cases Option.some.inj eq
        exact if_neg fun own => recorded ⟨own, rfl, _, rfl⟩
      · rfl
    exact unchanged ▸ quiet

/-- Each step of a session is followed. -/
theorem Following.step {a : Calls.Action} (f : Following key h s) (inv : Calls.Inv deps s)
    (opens : deps.Readable compressor) (base : Calls.Base deps s') (allowed : Calls.InOrder deps s a)
    (taken : Calls.step deps s a = some s') : Following key (h.call key s s' a) s' := by
  cases a with
  | insert b => exact f.insert inv.base allowed.1 taken
  | insertStep i =>
    -- an insert in the section changes nothing that is recorded until it returns
    have inSection : ∀ b, s'.inserts[i]? = some (.inSection b) →
        h.call key s s' (.insertStep i) = h.tick := by
      intro b phase
      simp only [History.call, phase]
      split
      · rename_i eq
        cases eq
      · rename_i eq
        cases eq
      · rfl
    cases Calls.insertStep_cases taken with
    | log found => exact f.log found rfl
    | @lock _ b found free =>
      have inside : i < s.inserts.length := (List.getElem?_eq_some_iff.mp found).1
      rw [inSection b (List.getElem?_set_self inside)]
      exact f.lock found rfl
    | write found held inserted => exact f.write found rfl
    | swap found held full =>
      rw [inSection _ found]
      exact f.quiet rfl rfl rfl rfl rfl
    | flush found flushing flushed =>
      rw [inSection _ found]
      exact f.quiet rfl rfl rfl rfl rfl
  | get k option =>
    cases Calls.step_cases taken with
    | get => exact f.get rfl
    | getWith found => exact f.get rfl
  | getStep j =>
    cases Calls.step_cases taken with
    | getStep found next => exact f.getStep inv opens base found next rfl
  | _ =>
    cases Calls.step_cases taken
    all_goals exact f.quiet rfl rfl rfl rfl rfl

end FrenzyKV.CallHistory
