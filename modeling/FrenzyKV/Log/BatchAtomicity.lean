import FrenzyKV.Log.LogFile

namespace FrenzyKV

open Bytes

namespace WriteAheadLogger

variable {file file' start : IouringWritable} {e : KvEntry} {es : List KvEntry} {log : ByteString}

/-- The log when the process stops during a call, or after a later flush if it goes on. -/
def CrashLog (start : IouringWritable) (run : IouringWritable × CallEnd) (log : ByteString) : Prop :=
  start.Between run.1 log ∨ run.2 ≠ .aborted ∧ log = run.1.flushValid.file

/-- A log of which `flushed` has reached the file and `waiting` is in the buffer. -/
structure Logs (file : IouringWritable) (flushed waiting : List KvEntry) : Prop where
  written : file.file = flushed.flatMap KvEntry.serialize
  buffer : file.buffered = waiting.flatMap KvEntry.serialize
  loggable : ∀ e ∈ flushed ++ waiting, e.Loggable

/-- Recovery yields the whole batch behind the earlier entries, or nothing of it. -/
def AllOrNothing (flushed waiting batch : List KvEntry) (log : ByteString) : Prop :=
  ∃ es, LogHolds es log ∧
    (flushed <+: es ∧ es <+: flushed ++ waiting ∨ es = flushed ++ waiting ++ batch)

/-- What is in the buffer when the first entry of a batch is written. -/
def bufferedBefore (file : IouringWritable) (e : KvEntry) : Nat :=
  if file.left < e.serializedBytesSize then 0 else file.buffered.length

/-- The batch is refused with its first entry, or reaches the buffer as a whole. -/
def WrittenAtOnce (file : IouringWritable) (b : WriteBatch) : Prop :=
  match b.entries with
  | [] => True
  | e :: es => ¬ Accepts file.capacity e ∨
      (∀ x ∈ e :: es, x.Loggable) ∧ bufferedBefore file e + b.serializedSize ≤ file.capacity

theorem serialize_ne_nil (e : KvEntry) : e.serialize ≠ [] := by
  intro empty
  have length := KvEntry.serialize_length e
  rw [empty, List.length_nil] at length
  exact (serializedBytesSize_pos e).ne length

theorem length_serialized (es : List KvEntry) :
    (es.flatMap KvEntry.serialize).length = (es.map KvEntry.serializedBytesSize).sum := by
  simp [List.length_flatMap]

theorem length_serialized_pos (nonempty : es ≠ []) :
    0 < (es.flatMap KvEntry.serialize).length := by
  cases es with
  | nil => exact absurd rfl nonempty
  | cons e es =>
    rw [List.flatMap_cons, List.length_append, KvEntry.serialize_length]
    exact Nat.add_pos_left (serializedBytesSize_pos e) _

theorem mayFlush_makeRoom (file : IouringWritable) (e : KvEntry) :
    file.MayFlush (makeRoom file e) := by
  rw [makeRoom]
  split
  · exact file.mayFlush_flushValid
  · exact file.mayFlush_refl

theorem mayFlush_mayFlush (file : IouringWritable) (flush : Bool) :
    file.MayFlush (mayFlush file flush) := by
  cases flush with
  | false => exact file.mayFlush_refl
  | true => exact file.mayFlush_flushValid

theorem makeRoom_buffered_length (file : IouringWritable) (e : KvEntry) :
    (makeRoom file e).buffered.length = bufferedBefore file e := by
  rw [makeRoom, bufferedBefore]
  split
  · rw [IouringWritable.flushValid_buffered, List.length_nil]
  · rfl

theorem appended_commit {bytes : ByteString} (done : file.commit bytes = some file')
    (nonempty : bytes ≠ []) : file.appended <+: file'.appended := by
  cases IouringWritable.commit_cases done nonempty with
  | inl kept => exact kept.2.1 ▸ List.prefix_rfl
  | inr filled => exact filled.2.1 ▸ List.prefix_append _ _

theorem appended_insertItem (file : IouringWritable) (e : KvEntry) :
    file.appended <+: (insertItem file e).1.appended := by
  have room := (mayFlush_makeRoom file e).appended
  by_cases accepts : Accepts file.capacity e
  · obtain ⟨next, item, done⟩ := insertItem_of_accepts accepts
    rw [item]
    exact room.trans (appended_commit done (serialize_ne_nil e))
  · obtain ⟨stop, _, item, _⟩ := insertItem_of_not_accepts accepts
    rw [item]
    exact room

theorem appended_insertItems (file : IouringWritable) (es : List KvEntry) :
    file.appended <+: (insertItems file es).1.appended := by
  induction es generalizing file with
  | nil => exact List.prefix_rfl
  | cons e es ih =>
    have first := appended_insertItem file e
    rw [insertItems]
    split
    · next next item =>
      rw [item] at first
      exact first.trans (ih next)
    · next next stop _ item =>
      rw [item] at first
      exact first

/-- Items that fit the room left are collected in the buffer, which is flushed only when the last
one fills it. -/
theorem insertItems_of_fits (accepts : ∀ e ∈ es, Accepts file.capacity e)
    (fits : file.buffered.length + (es.map KvEntry.serializedBytesSize).sum ≤ file.capacity) :
    ∃ file', insertItems file es = (file', .returned) ∧
      (file'.appended = file.appended ∧
          file'.buffered = file.buffered ++ es.flatMap KvEntry.serialize ∨
        file'.appended = file.appended ++ [file.buffered ++ es.flatMap KvEntry.serialize] ∧
          file'.buffered = []) := by
  induction es generalizing file with
  | nil => exact ⟨file, rfl, .inl ⟨rfl, by simp⟩⟩
  | cons e es ih =>
    obtain ⟨next, item, done⟩ := insertItem_of_accepts (accepts e List.mem_cons_self)
    have bounded := file.fits
    rw [List.map_cons, List.sum_cons] at fits
    have room : ¬ file.left < e.serializedBytesSize := by
      rw [IouringWritable.left]
      omega
    have stays : makeRoom file e = file := if_neg room
    rw [stays] at done
    have capacity := IouringWritable.commit_capacity done
    rw [insertItems, item, List.flatMap_cons, ← List.append_assoc]
    cases IouringWritable.commit_cases done (serialize_ne_nil e) with
    | inl kept =>
      obtain ⟨_, appended, buffered⟩ := kept
      have later := ih (accepts_tail capacity accepts) (by
        rw [capacity, buffered, List.length_append, KvEntry.serialize_length]
        omega)
      rw [appended, buffered] at later
      exact later
    | inr filled =>
      obtain ⟨full, appended, buffered⟩ := filled
      rw [KvEntry.serialize_length, IouringWritable.left] at full
      have last : es = [] := by
        by_contra more
        have positive := length_serialized_pos more
        rw [length_serialized] at positive
        omega
      subst last
      refine ⟨next, rfl, .inr ⟨?_, buffered⟩⟩
      rw [appended, List.flatMap_nil, List.append_nil]

theorem Logs.contents {flushed waiting : List KvEntry} (logs : Logs file flushed waiting) :
    file.contents = (flushed ++ waiting).flatMap KvEntry.serialize := by
  rw [IouringWritable.contents, logs.written, logs.buffer, List.flatMap_append]

theorem Logs.allOrNothing_earlier {flushed waiting : List KvEntry}
    (logs : Logs file flushed waiting) (batch : List KvEntry)
    (earlier : log = file.file ∨ log = file.contents) : AllOrNothing flushed waiting batch log := by
  have loggable := logs.loggable
  cases earlier with
  | inl written =>
    refine ⟨flushed, logHolds_iff.mpr ⟨written.trans logs.written, fun e mem => ?_⟩,
      .inl ⟨List.prefix_rfl, List.prefix_append _ _⟩⟩
    exact loggable e (List.mem_append_left _ mem)
  | inr all =>
    exact ⟨flushed ++ waiting, logHolds_iff.mpr ⟨all.trans logs.contents, loggable⟩,
      .inl ⟨List.prefix_append _ _, List.prefix_rfl⟩⟩

theorem Logs.allOrNothing_whole {flushed waiting batch : List KvEntry}
    (logs : Logs file flushed waiting) (loggable : ∀ e ∈ batch, e.Loggable)
    (whole : log = file.contents ++ batch.flatMap KvEntry.serialize) :
    AllOrNothing flushed waiting batch log := by
  refine ⟨flushed ++ waiting ++ batch, logHolds_iff.mpr ⟨?_, fun e mem => ?_⟩, .inr rfl⟩
  · rw [whole, logs.contents, ← List.flatMap_append]
  · cases List.mem_append.mp mem with
    | inl earlier => exact logs.loggable e earlier
    | inr new => exact loggable e new

theorem makeRoom_of_room (room : ¬ file.left < e.serializedBytesSize) : makeRoom file e = file :=
  if_neg room

/-- Making room first changes nothing about the insertion. -/
theorem insertItems_makeRoom (small : e.serializedBytesSize ≤ file.capacity) :
    insertItems (makeRoom file e) (e :: es) = insertItems file (e :: es) := by
  have room := le_left_makeRoom small
  have again : makeRoom (makeRoom file e) e = makeRoom file e := makeRoom_of_room (by omega)
  have item : insertItem (makeRoom file e) e = insertItem file e := by
    rw [insertItem, again, insertItem]
  rw [insertItems, item, insertItems]

theorem accepts_of_loggable {capacity : Nat} (loggable : e.Loggable)
    (small : e.serializedBytesSize ≤ capacity) : Accepts capacity e := by
  refine ⟨small, ?_⟩
  rw [Nat.mod_eq_of_lt loggable.1.total]
  exact (serializedBytesSize_pos e).ne'

/-- A batch that the buffer takes as a whole: at each point of the call the file holds the earlier
entries or everything. -/
theorem crashLog_of_fits {num : Nat} {flush : Bool}
    (accepts : ∀ x ∈ e :: es, Accepts file.capacity x)
    (fits : bufferedBefore file e + ((e :: es).map KvEntry.serializedBytesSize).sum ≤ file.capacity)
    (crash : CrashLog file (insert file ⟨num, e :: es⟩ flush) log) :
    (log = file.file ∨ log = file.contents) ∨
      log = file.contents ++ (e :: es).flatMap KvEntry.serialize := by
  have room := mayFlush_makeRoom file e
  have accepts' : ∀ x ∈ e :: es, Accepts (makeRoom file e).capacity x := by
    rwa [makeRoom_capacity]
  rw [← makeRoom_buffered_length, ← makeRoom_capacity (e := e)] at fits
  obtain ⟨r, items, written⟩ := insertItems_of_fits accepts' fits
  rw [insertItems_makeRoom (accepts e List.mem_cons_self).1] at items
  have run : insert file ⟨num, e :: es⟩ flush = (mayFlush r flush, .returned) := by
    rw [insert, items]
  have last := mayFlush_mayFlush r flush
  have filled : (makeRoom file e).appended <+: r.appended := by
    cases written with
    | inl kept => exact kept.1 ▸ List.prefix_rfl
    | inr full => exact full.1 ▸ List.prefix_append _ _
  have contents : r.contents = file.contents ++ (e :: es).flatMap KvEntry.serialize := by
    rw [← room.contents]
    cases written with
    | inl kept => simp [IouringWritable.contents, IouringWritable.file, kept.1, kept.2]
    | inr full => simp [IouringWritable.contents, IouringWritable.file, full.1, full.2]
  have items : ∀ log, (makeRoom file e).Between r log →
      log = (makeRoom file e).file ∨ log = r.contents := by
    intro log between
    rw [contents, ← room.contents, IouringWritable.contents, List.append_assoc]
    cases written with
    | inl kept => exact .inl (between.of_same kept.1)
    | inr full => exact between.of_append full.1
  have after : r.file = (makeRoom file e).file ∨ r.file = r.contents :=
    items r.file ⟨r.appended, filled, List.prefix_rfl, rfl⟩
  have before := room.file
  rw [run] at crash
  rw [← contents]
  cases crash with
  | inl stopped =>
    cases stopped.split (filled.trans last.appended) with
    | inl first => exact .inl (room.between first)
    | inr second =>
      cases second.split last.appended with
      | inl middle => grind [items log middle]
      | inr flushed => grind [last.between flushed]
  | inr later => exact .inr (by rw [later.2, IouringWritable.flushValid_file, last.contents])

theorem allOrNothing_of_writtenAtOnce {flushed waiting : List KvEntry} {b : WriteBatch}
    {flush : Bool} (logs : Logs file flushed waiting) (once : WrittenAtOnce file b)
    (crash : CrashLog file (insert file b flush) log) :
    AllOrNothing flushed waiting b.entries log := by
  cases b with | mk num entries =>
  cases entries with
  | nil =>
    apply logs.allOrNothing_earlier
    have may := mayFlush_mayFlush file flush
    change CrashLog file (mayFlush file flush, .returned) log at crash
    cases crash with
    | inl stopped => exact may.between stopped
    | inr later => exact .inr (by rw [later.2, IouringWritable.flushValid_file, may.contents])
  | cons e es =>
    change ¬ Accepts file.capacity e ∨ _ ∧ _ + ((e :: es).map KvEntry.serializedBytesSize).sum ≤ _ at once
    cases once with
    | inl refuses =>
      apply logs.allOrNothing_earlier
      have room := mayFlush_makeRoom file e
      obtain ⟨stop, ends, item, _⟩ := insertItem_of_not_accepts refuses
      have run : insert file ⟨num, e :: es⟩ flush = (makeRoom file e, stop) := by
        rw [insert, insertItems, item]
        cases stop with
        | returned => exact absurd rfl ends
        | threw => rfl
        | aborted => rfl
      rw [run] at crash
      cases crash with
      | inl stopped => exact room.between stopped
      | inr later => exact .inr (by rw [later.2, IouringWritable.flushValid_file, room.contents])
    | inr whole =>
      obtain ⟨loggable, fits⟩ := whole
      have accepts : ∀ x ∈ e :: es, Accepts file.capacity x := by
        intro x mem
        have := List.le_sum_of_mem (List.mem_map_of_mem (f := KvEntry.serializedBytesSize) mem)
        exact accepts_of_loggable (loggable x mem) (by omega)
      cases crashLog_of_fits accepts fits crash with
      | inl earlier => exact logs.allOrNothing_earlier _ earlier
      | inr all => exact logs.allOrNothing_whole loggable all

/-- Items that do not fit the room left: at some point the file ends before the last of them. -/
theorem insertItems_split (accepts : ∀ e ∈ es, Accepts file.capacity e)
    (large : file.capacity <
      file.buffered.length + (es.map KvEntry.serializedBytesSize).sum) :
    ∃ done x rest, es = done ++ x :: rest ∧ file.Between (insertItems file es).1
      (file.contents ++ done.flatMap KvEntry.serialize) := by
  induction es generalizing file with
  | nil =>
    have := file.fits
    simp only [List.map_nil, List.sum_nil] at large
    omega
  | cons e es ih =>
    have bounded := file.fits
    obtain ⟨next, item, done⟩ := insertItem_of_accepts (accepts e List.mem_cons_self)
    have capacity := commit_makeRoom_capacity done
    have committed := appended_commit done (serialize_ne_nil e)
    have later := appended_insertItems next es
    have room := mayFlush_makeRoom file e
    have run : insertItems file (e :: es) = insertItems next es := by
      rw [insertItems, item]
    rw [run]
    by_cases short : file.left < e.serializedBytesSize
    · -- the flush that makes room for `e`
      have made : makeRoom file e = file.flushValid := if_pos short
      rw [made] at committed room
      refine ⟨[], e, es, rfl, file.flushValid.appended, room.appended, committed.trans later, ?_⟩
      rw [List.flatMap_nil, List.append_nil]
      exact file.flushValid_file.symm
    · have stays : makeRoom file e = file := if_neg short
      rw [stays] at done committed
      rw [List.map_cons, List.sum_cons] at large
      have contents := IouringWritable.commit_contents done
      cases IouringWritable.commit_cases done (serialize_ne_nil e) with
      | inl kept =>
        obtain ⟨first, x, rest, eq, between⟩ := ih (accepts_tail capacity accepts) (by
          rw [capacity, kept.2.2, List.length_append, KvEntry.serialize_length]
          omega)
        refine ⟨e :: first, x, rest, by rw [eq]; rfl, ?_⟩
        rw [List.flatMap_cons, ← List.append_assoc, ← contents]
        exact between.mono committed
      | inr filled =>
        -- the buffer is full behind `e`
        obtain ⟨full, appended, buffered⟩ := filled
        rw [KvEntry.serialize_length, IouringWritable.left] at full
        cases es with
        | nil =>
          simp only [List.map_nil, List.sum_nil] at large
          omega
        | cons x rest =>
          refine ⟨[e], x, rest, rfl, next.appended, committed, later, ?_⟩
          rw [List.flatMap_singleton, ← contents, IouringWritable.contents, buffered,
            List.append_nil]
          rfl

theorem insert_of_stopped {b : WriteBatch} {stop : CallEnd} (flush : Bool)
    (run : insertItems file b.entries = (file', stop)) (ends : stop ≠ .returned) :
    insert file b flush = (file', stop) := by
  rw [insert, run]
  cases stop with
  | returned => exact absurd rfl ends
  | threw => rfl
  | aborted => rfl

theorem appended_insert (file : IouringWritable) (b : WriteBatch) (flush : Bool) :
    (insertItems file b.entries).1.appended <+: (insert file b flush).1.appended := by
  cases run : insertItems file b.entries with
  | mk next stop =>
    by_cases ends : stop = .returned
    · rw [insert, run, ends]
      exact (mayFlush_mayFlush next flush).appended
    · have same : (insert file b flush).1 = next := by rw [insert_of_stopped flush run ends]
      exact ⟨[], by rw [List.append_nil, same]⟩

/-- The log ends inside the batch: behind its first entry, and before its last. -/
def EndsInside (file : IouringWritable) (e : KvEntry) (es : List KvEntry) (log : ByteString) : Prop :=
  ∃ done x rest, es = done ++ x :: rest ∧
    log = file.contents ++ (e :: done).flatMap KvEntry.serialize

/-- A batch that the buffer does not take as a whole is split by a flush. -/
theorem crashLog_of_large (num : Nat) (flush : Bool)
    (accepts : ∀ x ∈ e :: es, Accepts file.capacity x)
    (large : file.capacity <
      bufferedBefore file e + ((e :: es).map KvEntry.serializedBytesSize).sum) :
    ∃ log, CrashLog file (insert file ⟨num, e :: es⟩ flush) log ∧ EndsInside file e es log := by
  obtain ⟨next, item, done⟩ := insertItem_of_accepts (accepts e List.mem_cons_self)
  have capacity := commit_makeRoom_capacity done
  have contents := commit_makeRoom_contents done
  have committed := (mayFlush_makeRoom file e).appended.trans (appended_commit done (serialize_ne_nil e))
  have run : insertItems file (e :: es) = insertItems next es := by
    rw [insertItems, item]
  have rest := appended_insert file ⟨num, e :: es⟩ flush
  rw [run] at rest
  rw [← makeRoom_buffered_length, List.map_cons, List.sum_cons] at large
  have bounded := (makeRoom file e).fits
  rw [makeRoom_capacity] at bounded
  cases IouringWritable.commit_cases done (serialize_ne_nil e) with
  | inl kept =>
    obtain ⟨first, x, last, eq, between⟩ := insertItems_split (accepts_tail capacity accepts) (by
      rw [capacity, kept.2.2, List.length_append, KvEntry.serialize_length]
      omega)
    refine ⟨_, .inl ((between.mono committed).extend rest), first, x, last, eq, ?_⟩
    rw [contents, List.flatMap_cons, List.append_assoc]
  | inr filled =>
    obtain ⟨full, appended, buffered⟩ := filled
    rw [KvEntry.serialize_length, IouringWritable.left, makeRoom_capacity] at full
    cases es with
    | nil =>
      simp only [List.map_nil, List.sum_nil] at large
      omega
    | cons x last =>
      have later := (appended_insertItems next (x :: last)).trans rest
      refine ⟨next.file, .inl ⟨next.appended, committed, later, rfl⟩, [], x, last, rfl, ?_⟩
      rw [List.flatMap_singleton, ← contents, IouringWritable.contents, buffered, List.append_nil]

/-- The first refused item: what stands before it was committed. -/
theorem insertItems_refused (refused : ∃ x ∈ es, ¬ Accepts file.capacity x) :
    ∃ done x rest mid stop, es = done ++ x :: rest ∧ ¬ Accepts file.capacity x ∧
      insertItems file es = (makeRoom mid x, stop) ∧ stop ≠ .returned ∧
      (stop = .aborted → (makeRoom mid x).file = mid.contents) ∧
      mid.contents = file.contents ++ done.flatMap KvEntry.serialize ∧
      file.appended <+: mid.appended := by
  induction es generalizing file with
  | nil =>
    obtain ⟨x, mem, _⟩ := refused
    cases mem
  | cons e es ih =>
    by_cases accepts : Accepts file.capacity e
    · obtain ⟨next, item, done⟩ := insertItem_of_accepts accepts
      have capacity := commit_makeRoom_capacity done
      have later : ∃ x ∈ es, ¬ Accepts next.capacity x := by
        obtain ⟨x, mem, refuses⟩ := refused
        cases List.mem_cons.mp mem with
        | inl eq => exact absurd (eq ▸ accepts) refuses
        | inr mem => exact ⟨x, mem, by rwa [capacity]⟩
      obtain ⟨first, x, rest, mid, stop, eq, refuses, run, ends, file_eq, contents, appended⟩ := ih later
      refine ⟨e :: first, x, rest, mid, stop, by rw [eq]; rfl, by rwa [← capacity], ?_, ends, file_eq,
        ?_, ?_⟩
      · rw [insertItems, item]
        exact run
      · rw [contents, commit_makeRoom_contents done, List.flatMap_cons, List.append_assoc]
      · exact ((mayFlush_makeRoom file e).appended.trans
          (appended_commit done (serialize_ne_nil e))).trans appended
    · obtain ⟨stop, ends, item, file_eq⟩ := insertItem_of_not_accepts accepts
      refine ⟨[], e, es, file, stop, rfl, accepts, ?_, ends, file_eq, by simp, List.prefix_rfl⟩
      rw [insertItems, item]
      cases stop with
      | returned => exact absurd rfl ends
      | threw => rfl
      | aborted => rfl

/-- A batch of which a later entry is refused stays in the log with what stands before it. -/
theorem crashLog_of_refused (num : Nat) (flush : Bool) (accepts : Accepts file.capacity e)
    (refused : ∃ x ∈ e :: es, ¬ Accepts file.capacity x) :
    ∃ log, CrashLog file (insert file ⟨num, e :: es⟩ flush) log ∧ EndsInside file e es log := by
  obtain ⟨done, x, rest, mid, stop, split, refuses, run, ends, file_eq, contents, appended⟩ :=
    insertItems_refused refused
  have run : insert file ⟨num, e :: es⟩ flush = (makeRoom mid x, stop) :=
    insert_of_stopped flush run ends
  cases done with
  | nil =>
    obtain ⟨rfl, _⟩ := List.cons.inj split
    exact absurd accepts refuses
  | cons y done =>
    obtain ⟨rfl, eq⟩ := List.cons.inj split
    refine ⟨mid.contents, ?_, done, x, rest, eq, contents⟩
    rw [run]
    by_cases aborted : stop = .aborted
    · have room := (mayFlush_makeRoom mid x).appended
      exact .inl ⟨_, appended.trans room, List.prefix_rfl, (file_eq aborted).symm⟩
    · refine .inr ⟨aborted, ?_⟩
      rw [IouringWritable.flushValid_file, makeRoom_contents]

/-- A log that ends inside a batch has some of its entries and lacks others. -/
theorem not_allOrNothing_of_endsInside {flushed waiting : List KvEntry}
    (logs : Logs file flushed waiting) (inside : EndsInside file e es log) :
    ¬ AllOrNothing flushed waiting (e :: es) log := by
  intro atomic
  obtain ⟨done, x, rest, rfl, eq⟩ := inside
  obtain ⟨found, holds, cases⟩ := atomic
  have same := (logHolds_iff.mp holds).1
  rw [eq, logs.contents] at same
  have length := congrArg List.length same
  have positive := length_serialized_pos (List.cons_ne_nil e done)
  have missing := length_serialized_pos (List.cons_ne_nil x rest)
  rw [List.length_append] at length
  cases cases with
  | inl earlier =>
    obtain ⟨more, all⟩ := earlier.2
    rw [← all, List.flatMap_append, List.length_append] at length
    omega
  | inr whole =>
    have batch : (e :: (done ++ x :: rest)).flatMap KvEntry.serialize =
        (e :: done).flatMap KvEntry.serialize ++ (x :: rest).flatMap KvEntry.serialize := by
      rw [← List.cons_append, List.flatMap_append]
    have all : (flushed ++ waiting ++ e :: (done ++ x :: rest)).flatMap KvEntry.serialize =
        (flushed ++ waiting).flatMap KvEntry.serialize ++
          (e :: (done ++ x :: rest)).flatMap KvEntry.serialize := List.flatMap_append
    rw [whole, all, batch, List.length_append, List.length_append] at length
    omega

/-- When every entry is written, the last log holds them all, so that each can be logged. -/
theorem loggable_of_allOrNothing {flushed waiting : List KvEntry} {num : Nat} {flush : Bool}
    (logs : Logs file flushed waiting) (accepts : ∀ x ∈ e :: es, Accepts file.capacity x)
    (atomic : ∀ log, CrashLog file (insert file ⟨num, e :: es⟩ flush) log →
      AllOrNothing flushed waiting (e :: es) log) : ∀ x ∈ e :: es, x.Loggable := by
  obtain ⟨last, items, _, contents⟩ := insertItems_of_accepts accepts
  have run : insert file ⟨num, e :: es⟩ flush = (mayFlush last flush, .returned) := by
    rw [insert, items]
  have crash : CrashLog file (insert file ⟨num, e :: es⟩ flush) last.contents := by
    rw [run]
    refine .inr ⟨?_, ?_⟩
    · intro ends
      cases ends
    · rw [IouringWritable.flushValid_file, mayFlush_contents]
  obtain ⟨found, holds, cases⟩ := atomic _ crash
  obtain ⟨same, loggable⟩ := logHolds_iff.mp holds
  have positive := length_serialized_pos (List.cons_ne_nil e es)
  rw [contents, logs.contents] at same
  cases cases with
  | inl earlier =>
    obtain ⟨more, all⟩ := earlier.2
    have length := congrArg List.length same
    rw [← all, List.flatMap_append, List.length_append, List.length_append] at length
    omega
  | inr whole =>
    intro x mem
    apply loggable
    rw [whole]
    exact List.mem_append_right _ mem

/-- The log keeps a batch whole at every point exactly when it is written at once. -/
theorem insert_allOrNothing_iff {flushed waiting : List KvEntry}
    (logs : Logs file flushed waiting) (b : WriteBatch) (flush : Bool) :
    (∀ log, CrashLog file (insert file b flush) log → AllOrNothing flushed waiting b.entries log) ↔
      WrittenAtOnce file b := by
  constructor
  · intro atomic
    cases b with | mk num entries =>
    cases entries with
    | nil => trivial
    | cons e es =>
      by_cases first : Accepts file.capacity e
      · by_cases refused : ∃ x ∈ e :: es, ¬ Accepts file.capacity x
        · obtain ⟨log, crash, inside⟩ := crashLog_of_refused num flush first refused
          exact absurd (atomic log crash) (not_allOrNothing_of_endsInside logs inside)
        · have accepts : ∀ x ∈ e :: es, Accepts file.capacity x := by
            intro x mem
            by_contra refuses
            exact refused ⟨x, mem, refuses⟩
          refine .inr ⟨loggable_of_allOrNothing logs accepts atomic, ?_⟩
          by_contra large
          obtain ⟨log, crash, inside⟩ := crashLog_of_large num flush accepts (not_le.mp large)
          exact not_allOrNothing_of_endsInside logs inside (atomic log crash)
      · exact .inl first
  · intro once log crash
    exact allOrNothing_of_writtenAtOnce logs once crash

/-- Two entries of 16 bytes. -/
def pair : WriteBatch := ⟨7, [KvEntry.brief 1 7 2, KvEntry.brief 3 8 4]⟩

/-- A log with one entry of 16 bytes in its buffer. -/
def oneWaiting : IouringWritable := ⟨64, (KvEntry.brief 9 6 9).serialize, [], by decide⟩

theorem loggable_brief (k v : UInt8) {seq : Nat} (number : seq < sequenceNumberModulus) :
    (KvEntry.brief k seq v).Loggable :=
  ⟨⟨Nat.one_lt_two_pow (by decide), by
    change 16 < 2 ^ 32
    decide, number⟩, Nat.one_pos, by simp [KvEntry.brief]⟩

theorem insert_allOrNothing_oneWaiting :
    AllOrNothing [] [KvEntry.brief 9 6 9] pair.entries (insert oneWaiting pair true).1.flushValid.file := by
  have logs : Logs oneWaiting [] [KvEntry.brief 9 6 9] :=
    ⟨rfl, rfl, fun e mem => by
      obtain rfl := List.mem_singleton.mp mem
      exact loggable_brief 9 9 (by decide)⟩
  have loggable : ∀ x ∈ pair.entries, x.Loggable := by
    intro x mem
    simp only [pair, List.mem_cons, List.not_mem_nil, or_false] at mem
    cases mem with
    | inl eq => exact eq ▸ loggable_brief 1 2 (by decide)
    | inr eq => exact eq ▸ loggable_brief 3 4 (by decide)
  have atOnce : WrittenAtOnce oneWaiting pair := .inr ⟨loggable, by decide⟩
  exact (insert_allOrNothing_iff logs pair true).mpr atOnce _ (.inr ⟨by decide, rfl⟩)

/-- With a buffer of 20 bytes the first of two entries is in the log before the second, and
before an entry of 23 bytes that is refused. -/
theorem batch_split_in_log :
    (∃ log, CrashLog (.opened 20) (insert (.opened 20) pair false) log ∧
      LogHolds [KvEntry.brief 1 7 2] log ∧ ¬ AllOrNothing [] [] pair.entries log) ∧
    (insert (.opened 20) ⟨7, [KvEntry.brief 1 7 2, longValue 8]⟩ false).2 = .threw ∧
    ∃ log, CrashLog (.opened 20)
        (insert (.opened 20) ⟨7, [KvEntry.brief 1 7 2, longValue 8]⟩ false) log ∧
      LogHolds [KvEntry.brief 1 7 2] log ∧
      ¬ AllOrNothing [] [] [KvEntry.brief 1 7 2, longValue 8] log := by
  have logs : Logs (.opened 20) [] [] := ⟨rfl, rfl, fun e mem => by cases mem⟩
  have holds : LogHolds [KvEntry.brief 1 7 2] (KvEntry.brief 1 7 2).serialize := by
    refine logHolds_iff.mpr ⟨(List.flatMap_singleton _ _).symm, fun e mem => ?_⟩
    obtain rfl := List.mem_singleton.mp mem
    exact loggable_brief 1 2 (by decide)
  have inside : ∀ e : KvEntry,
      EndsInside (.opened 20) (KvEntry.brief 1 7 2) [e] (KvEntry.brief 1 7 2).serialize :=
    fun e => ⟨[], e, [], rfl, (List.flatMap_singleton _ _).symm⟩
  refine ⟨⟨_, .inl ⟨[(KvEntry.brief 1 7 2).serialize], List.nil_prefix, ?_, by simp⟩, holds,
    not_allOrNothing_of_endsInside logs (inside _)⟩, by decide +kernel,
    ⟨_, .inl ⟨[(KvEntry.brief 1 7 2).serialize], List.nil_prefix, ?_, by simp⟩, holds,
      not_allOrNothing_of_endsInside logs (inside _)⟩⟩
  · decide +kernel
  · decide +kernel

end WriteAheadLogger

end FrenzyKV
