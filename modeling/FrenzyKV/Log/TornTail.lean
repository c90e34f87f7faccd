import FrenzyKV.Log.EntryBuffer

namespace FrenzyKV

open Bytes Framework

namespace EntryBuffer

variable {e : KvEntry} {es : List KvEntry} {n : Nat}

/-- The entries that lie completely inside the first `n` bytes. -/
def wholeEntries : List KvEntry → Nat → List KvEntry
  | [], _ => []
  | e :: es, n =>
    if e.serializedBytesSize ≤ n then e :: wholeEntries es (n - e.serializedBytesSize) else []

/-- The prefix of `n` bytes ends where an entry ends, or before the first one. -/
def EndsAtEntry (es : List KvEntry) (n : Nat) : Prop :=
  ∃ done rest, es = done ++ rest ∧ n = (done.flatMap KvEntry.serialize).length

theorem endsAtEntry_zero : EndsAtEntry es 0 := ⟨[], es, rfl, rfl⟩

theorem endsAtEntry_cons (inside : e.serializedBytesSize ≤ n) (positive : 0 < n) :
    EndsAtEntry (e :: es) n ↔ EndsAtEntry es (n - e.serializedBytesSize) := by
  constructor
  · intro ends
    obtain ⟨done, rest, eq, size⟩ := ends
    cases done with
    | nil =>
      simp only [List.flatMap_nil, List.length_nil] at size
      omega
    | cons x done =>
      obtain ⟨rfl, later⟩ := List.cons.inj eq
      refine ⟨done, rest, later, ?_⟩
      rw [size, List.flatMap_cons, List.length_append, KvEntry.serialize_length]
      omega
  · intro ends
    obtain ⟨done, rest, eq, size⟩ := ends
    refine ⟨e :: done, rest, by rw [eq]; rfl, ?_⟩
    rw [List.flatMap_cons, List.length_append, KvEntry.serialize_length, ← size]
    omega

theorem not_endsAtEntry_of_torn (torn : n < e.serializedBytesSize) (positive : 0 < n) :
    ¬ EndsAtEntry (e :: es) n := by
  intro ends
  obtain ⟨done, rest, eq, size⟩ := ends
  cases done with
  | nil =>
    simp only [List.flatMap_nil, List.length_nil] at size
    omega
  | cons x done =>
    obtain ⟨rfl, later⟩ := List.cons.inj eq
    rw [size, List.flatMap_cons, List.length_append, KvEntry.serialize_length] at torn
    omega

/-- A cut inside the first entry: some field of it is read past the end of the buffer. -/
theorem kvEntriesFromBuffer_torn (loggable : e.Loggable) (torn : n < e.serializedBytesSize)
    (positive : 0 < n) : kvEntriesFromBuffer (e.serialize.take n) = ([], some .outside) := by
  have length : (e.serialize.take n).length = n := by
    rw [List.length_take, KvEntry.serialize_length]
    omega
  have nonempty : e.serialize.take n ≠ [] := by
    intro empty
    rw [empty] at length
    exact positive.ne length
  have whole : kvEntry.run e.serialize = .ok (e.stored, []) := by
    have := kvEntry_serialize loggable.1 loggable.2.1 []
    rwa [List.append_nil] at this
  have tornEntry := framed_kvEntry.short_of_torn whole (by rwa [KvEntry.serialize_length])
  rw [kvEntriesFromBuffer, if_neg nonempty]
  by_cases field : n < totalLengthBytesSize
  · rw [number, ByteReader.number_short (by omega)]
  · have width := encodeBigEndian_length totalLengthBytesSize e.serializedBytesSize
    have cut : e.serialize.take n = encodeBigEndian totalLengthBytesSize e.serializedBytesSize ++
        (e.key.serialize ++ e.value.serialize).take (n - totalLengthBytesSize) := by
      rw [KvEntry.serialize, List.append_assoc, List.take_append, width,
        List.take_of_length_le (by rw [width]; omega)]
    have small : e.serializedBytesSize < 256 ^ totalLengthBytesSize := loggable.1.total
    have size := number_encode small
      ((e.key.serialize ++ e.value.serialize).take (n - totalLengthBytesSize))
    rw [← cut] at size
    have present : e.serializedBytesSize ≠ 0 := (serializedBytesSize_pos e).ne'
    simp only [size, if_neg present, tornEntry]

/-- What is read from a prefix: the whole entries, and then a read past the end if the prefix
ends inside an entry. -/
theorem kvEntriesFromBuffer_take (loggable : ∀ e ∈ es, e.Loggable)
    (prefixed : n ≤ (es.flatMap KvEntry.serialize).length) :
    kvEntriesFromBuffer ((es.flatMap KvEntry.serialize).take n) = (wholeEntries es n, none) ∧
        EndsAtEntry es n ∨
      kvEntriesFromBuffer ((es.flatMap KvEntry.serialize).take n) =
        (wholeEntries es n, some .outside) ∧ ¬ EndsAtEntry es n := by
  induction es generalizing n with
  | nil =>
    obtain rfl : n = 0 := Nat.le_zero.mp prefixed
    exact .inl ⟨kvEntriesFromBuffer_nil, endsAtEntry_zero⟩
  | cons e es ih =>
    have first := loggable e List.mem_cons_self
    have size := serializedBytesSize_pos e
    have length := KvEntry.serialize_length e
    rw [List.flatMap_cons, List.length_append, length] at prefixed
    by_cases inside : e.serializedBytesSize ≤ n
    · have cut : ((e :: es).flatMap KvEntry.serialize).take n =
          e.serialize ++ (es.flatMap KvEntry.serialize).take (n - e.serializedBytesSize) := by
        rw [List.flatMap_cons, List.take_append, length, List.take_of_length_le (by omega)]
      have stored : e.stored = e := KvEntry.stored_eq_iff.mpr first.2.2
      rw [cut, kvEntriesFromBuffer_serialize first.1 first.2.1, stored, wholeEntries, if_pos inside,
        endsAtEntry_cons inside (by omega)]
      cases ih (fun x hx => loggable x (List.mem_cons_of_mem _ hx))
        (n := n - e.serializedBytesSize) (by omega) with
      | inl whole => exact .inl ⟨by rw [whole.1], whole.2⟩
      | inr torn => exact .inr ⟨by rw [torn.1], torn.2⟩
    · rw [wholeEntries, if_neg inside]
      by_cases empty : n = 0
      · rw [empty, List.take_zero]
        exact .inl ⟨kvEntriesFromBuffer_nil, endsAtEntry_zero⟩
      · have cut : ((e :: es).flatMap KvEntry.serialize).take n = e.serialize.take n := by
          rw [List.flatMap_cons, List.take_append_of_le_length (by omega)]
        rw [cut]
        exact .inr ⟨kvEntriesFromBuffer_torn first (by omega) (by omega),
          not_endsAtEntry_of_torn (by omega) (by omega)⟩

/-- A prefix of a log gives back the entries that lie inside it exactly when it ends where an
entry ends. -/
theorem torn_log_read_iff (loggable : ∀ e ∈ es, e.Loggable)
    (prefixed : n ≤ (es.flatMap KvEntry.serialize).length) :
    (kvEntriesFromBuffer ((es.flatMap KvEntry.serialize).take n) = (wholeEntries es n, none) ∧
      recover ((es.flatMap KvEntry.serialize).take n) =
        .ok (⟨0, wholeEntries es n⟩, maxSequenceNumber (wholeEntries es n))) ↔
      EndsAtEntry es n := by
  cases kvEntriesFromBuffer_take loggable prefixed with
  | inl whole => exact iff_of_true ⟨whole.1, recover_of_read whole.1⟩ whole.2
  | inr torn =>
    refine iff_of_false (fun reads => ?_) torn.2
    rw [torn.1] at reads
    cases reads.1

/-- A log of two entries. -/
def twoEntries : List KvEntry := [KvEntry.brief 1 7 2, KvEntry.brief 3 8 4]

theorem loggable_twoEntries : ∀ e ∈ twoEntries, e.Loggable := by
  intro e mem
  simp only [twoEntries, List.mem_cons, List.not_mem_nil, or_false] at mem
  rcases mem with rfl | rfl
  · exact ⟨⟨by decide, by decide, by decide⟩, by decide⟩
  · exact ⟨⟨by decide, by decide, by decide⟩, by decide⟩

theorem torn_log_read_first :
    kvEntriesFromBuffer ((twoEntries.flatMap KvEntry.serialize).take 16) =
      ([KvEntry.brief 1 7 2], none) :=
  ((torn_log_read_iff loggable_twoEntries (n := 16) (by decide)).mpr
    ⟨[KvEntry.brief 1 7 2], [KvEntry.brief 3 8 4], rfl, by decide⟩).1

/-- With 21 of 32 bytes left the length of the second key is cut, and reading it leaves the
buffer. -/
theorem torn_log_reads_outside :
    (∀ e ∈ twoEntries, e.Loggable) ∧ 21 ≤ (twoEntries.flatMap KvEntry.serialize).length ∧
    wholeEntries twoEntries 21 = [KvEntry.brief 1 7 2] ∧
    kvEntriesFromBuffer ((twoEntries.flatMap KvEntry.serialize).take 21) =
      ([KvEntry.brief 1 7 2], some .outside) ∧
    recover ((twoEntries.flatMap KvEntry.serialize).take 21) = .error .outside := by
  have inside : ¬ EndsAtEntry twoEntries 21 := by
    intro ends
    rw [twoEntries, endsAtEntry_cons (by decide) (by decide)] at ends
    exact not_endsAtEntry_of_torn (by decide) (by decide) ends
  have read : kvEntriesFromBuffer ((twoEntries.flatMap KvEntry.serialize).take 21) =
      (wholeEntries twoEntries 21, some .outside) := by
    cases kvEntriesFromBuffer_take loggable_twoEntries (n := 21) (by decide) with
    | inl whole => exact absurd whole.2 inside
    | inr torn => exact torn.1
  have whole : wholeEntries twoEntries 21 = [KvEntry.brief 1 7 2] := by decide
  refine ⟨loggable_twoEntries, by decide, whole, by rw [read, whole], ?_⟩
  exact recover_of_fault read

end EntryBuffer

end FrenzyKV
