import FrenzyKV.Db.DiskInit
import FrenzyKV.Db.HeldEntries

namespace FrenzyKV.Recovery

open Bytes Framework

section Log

variable {deps : KvdbDeps} {es : List KvEntry} {s s' : Store File} {log : ByteString}

theorem recover_log (wf : ∀ e ∈ es, e.WellFormed) (nonempty : es ≠ [])
    (logged : log = es.flatMap KvEntry.serialize) :
    ∃ maxSeq, recover log = some (⟨0, es⟩, maxSeq) ∧ log.isEmpty = false := by
  have recovered := recover_serialize wf nonempty
  subst logged
  refine ⟨_, recovered, ?_⟩
  cases empty : (es.flatMap KvEntry.serialize).isEmpty with
  | false => rfl
  | true =>
    rw [recover, empty] at recovered
    simp [WriteBatch.empty] at recovered
    exact absurd recovered.1 nonempty

theorem serializedSize_eq (logged : log = es.flatMap KvEntry.serialize) :
    (WriteBatch.mk 0 es).serializedSize = log.length := by
  rw [logged, length_flatMap_serialize]
  rfl

/-- A log that fits is in the memtable of the recovery. -/
theorem mem_recoveredMemtable (logged : log = es.flatMap KvEntry.serialize)
    (fits : log.length ≤ deps.opt.memoryPageBytes) {e : KvEntry} (mem : e ∈ es) :
    ∃ c ∈ (recoveredMemtable deps ⟨0, es⟩).storage, c ∈ es ∧ c.key = e.key := by
  have size := serializedSize_eq logged
  rw [recoveredMemtable_of_fits (by omega)]
  obtain ⟨c, hc, key⟩ := Memtable.key_mem_foldl_insertEntry deps.skipListReplaces
    (m := Memtable.make deps.opt) (Or.inl mem)
  exact ⟨c, hc, (Memtable.mem_of_mem_foldl_insertEntry hc).resolve_right (by simp), key⟩

theorem encodable_of_wf (wf : ∀ e ∈ es, e.WellFormed) :
    ∀ e ∈ (recoveredMemtable deps ⟨0, es⟩).storage, e.Encodable := by
  intro e mem
  have entry := wf e (mem_of_mem_recoveredMemtable mem)
  have short := entry.keyShort
  change e.userKey.size + 2 < 2 ^ 16 at short
  exact ⟨by omega, entry.number⟩

end Log

/-- Each logged entry is in a file of the version, or one of its key with a larger number is. What is
there instead was logged or stored before. -/
def Restored (d : DiskDeps) (es : List KvEntry) (old v : Version DiskFile) : Prop :=
  ∀ e ∈ es, ∃ c ∈ DiskStore.held d.table v, (c ∈ es ∨ c ∈ DiskStore.held d.table old) ∧
    c.userKey = e.userKey ∧ (c.seq = e.seq ∨ e.seq < c.seq)

/-- For each logged entry a file of the version has one of its key that is at least as new. -/
def StoredIn (d : DiskDeps) (es : List KvEntry) (v : Version DiskFile) : Prop :=
  ∀ e ∈ es, ∃ c ∈ DiskStore.held d.table v, c.userKey = e.userKey ∧ e.seq ≤ c.seq

/-- A compaction behind the recovery, if there is one, can read back what was stored and flushed, and
its output can be read back. -/
def CompactionReads (d : DiskDeps) (es : List KvEntry) (old t : DiskStore) : Prop :=
  DiskStore.levelToCompact d t.current 0 1 = none ∨
    (∃ compressor, d.table.Readable compressor) ∧
    (∃ s : Store File, old = s.onDisk d.table ∧ s.Sound d.toKvdbDeps ∧ s.current.Legible d.table) ∧
    d.table.BlocksFit (recoveredMemtable d.toKvdbDeps ⟨0, es⟩).storage ∧ DiskStore.MergeFits d t.current 0 1

variable {d : DiskDeps} {es : List KvEntry} {old t last : DiskStore} {log : ByteString}

theorem Restored.storedIn {v w : Version DiskFile} (restored : Restored d es v w) : StoredIn d es w := by
  intro e he
  obtain ⟨c, hc, -, key, newer⟩ := restored e he
  exact ⟨c, hc, key, by omega⟩

/-- A log that is larger than a memtable is dropped: the flush does nothing. -/
theorem store_of_large (logged : log = es.flatMap KvEntry.serialize)
    (large : d.opt.memoryPageBytes < log.length)
    (flushed : old.flushToDisk d (recoveredMemtable d.toKvdbDeps ⟨0, es⟩) = some t) : t = old := by
  have size := serializedSize_eq logged
  rw [recoveredMemtable_of_large (by omega)] at flushed
  obtain ⟨files, none_made, rfl⟩ := Option.map_eq_some_iff.mp flushed
  obtain rfl := Option.some.inj none_made
  rfl

/-- The flush of a recovery adds the logged entries, or nothing. -/
theorem restored_flush_iff (wf : ∀ e ∈ es, e.WellFormed) (logged : log = es.flatMap KvEntry.serialize)
    (flushed : old.flushToDisk d (recoveredMemtable d.toKvdbDeps ⟨0, es⟩) = some t) :
    Restored d es old.current t.current ↔
      d.opt.needBufferedWrite = true ∧ log.length ≤ d.opt.memoryPageBytes ∨ StoredIn d es old.current := by
  obtain ⟨files, -, all⟩ := DiskStore.mem_held_flush flushed
  constructor
  · intro restored
    have stored := restored.storedIn
    cases buffered : d.opt.needBufferedWrite with
    | false =>
      rw [StoredIn, DiskStore.held_flush_unbuffered buffered flushed] at stored
      exact Or.inr stored
    | true =>
      by_cases fits : log.length ≤ d.opt.memoryPageBytes
      · exact Or.inl ⟨rfl, fits⟩
      · obtain rfl := store_of_large logged (Nat.lt_of_not_le fits) flushed
        exact Or.inr stored
  · rintro (⟨buffered, fits⟩ | before)
    · intro e he
      obtain ⟨c, hc, inLog, key⟩ := mem_recoveredMemtable logged fits he
      have inFile := DiskStore.held_flush buffered (encodable_of_wf wf) flushed c hc
      rw [(wf c inLog).value] at inFile
      exact ⟨c, inFile, Or.inl inLog, congrArg SequencedKey.userKey key,
        Or.inl (congrArg SequencedKey.seq key)⟩
    · intro e he
      obtain ⟨c, hc, key, le⟩ := before e he
      exact ⟨c, (all c).mpr (Or.inr hc), Or.inr hc, key, le.eq_or_lt.imp_left Eq.symm⟩

/-- The compaction behind it keeps what can be read back. -/
theorem restored_mayCompact_iff (buffered : d.opt.needBufferedWrite = true)
    (wf : ∀ e ∈ es, e.WellFormed)
    (flushed : old.flushToDisk d (recoveredMemtable d.toKvdbDeps ⟨0, es⟩) = some t)
    (compacted : t.mayCompact d 0 1 = some last) (readable : CompactionReads d es old t) :
    Restored d es old.current last.current ↔ Restored d es old.current t.current := by
  rcases readable with none_needed | ⟨⟨compressor, opens⟩, ⟨s, rfl, sound, legible⟩, fits, merge⟩
  · rw [DiskStore.mayCompact, none_needed] at compacted
    rw [Option.some.inj compacted]
  · have open' : d.Readable compressor := ⟨opens, buffered⟩
    obtain ⟨s', flush, rfl, -, legible'⟩ := DiskStore.flushToDisk_onDisk buffered legible.stored
      (encodable_of_wf wf) flushed
    have legible' := legible' legible fits
    obtain ⟨s'', compact, rfl, -, legible''⟩ := DiskStore.mayCompact_onDisk open' legible'.stored compacted
    have legible'' := legible'' legible' merge
    obtain ⟨sub, cover⟩ := (sound.flush flush).mayCompact_contents compact
    have before : DiskStore.held d.table (s.onDisk d.table).current = s.current.contents :=
      DiskStore.held_map opens legible
    have between : DiskStore.held d.table (s'.onDisk d.table).current = s'.current.contents :=
      DiskStore.held_map opens legible'
    have after : DiskStore.held d.table (s''.onDisk d.table).current = s''.current.contents :=
      DiskStore.held_map opens legible''
    rw [Restored, Restored, before, between, after]
    constructor
    · intro restored e he
      obtain ⟨c, hc, rest⟩ := restored e he
      exact ⟨c, sub hc, rest⟩
    · intro restored e he
      obtain ⟨c, hc, -, key, newer⟩ := restored e he
      obtain ⟨x, hx, key', le⟩ := cover c hc
      refine ⟨x, hx, ?_, key'.trans key, by omega⟩
      cases (contents_flushToDisk flush x).mp (sub hx) with
      | inl stored => exact Or.inr stored
      | inr new =>
        obtain ⟨y, hy, rfl⟩ := List.mem_map.mp new
        have inLog := mem_of_mem_recoveredMemtable hy
        rw [(wf y inLog).value]
        exact Or.inl inLog

/-- Without buffers the compaction loses the files that it takes. -/
theorem restored_mayCompact_unbuffered (off : d.opt.needBufferedWrite = false) (named : old.Named d)
    (flushed : old.flushToDisk d (recoveredMemtable d.toKvdbDeps ⟨0, es⟩) = some t)
    (compacted : t.mayCompact d 0 1 = some last) : Restored d es old.current last.current ↔
      StoredIn d es (old.current.filter (· ∉ DiskStore.consumed d t.current 0 1)) := by
  have after := DiskStore.held_mayCompact_unbuffered off (named.flush flushed).ranks compacted
  have stays := DiskStore.held_filter_unbuffered off flushed (DiskStore.consumed d t.current 0 1)
  rw [Restored, StoredIn, after, stays]
  constructor
  · intro restored e he
    obtain ⟨c, hc, -, key, newer⟩ := restored e he
    exact ⟨c, hc, key, by omega⟩
  · intro stored e he
    obtain ⟨c, hc, key, le⟩ := stored e he
    refine ⟨c, hc, Or.inr ?_, key, le.eq_or_lt.imp_left Eq.symm⟩
    obtain ⟨f, hf, rest⟩ := hc
    exact ⟨f, (List.mem_filter.mp hf).1, rest⟩

section Examples

theorem brief_wellFormed (k v : UInt8) {seq : Nat} (small : seq < sequenceNumberModulus) :
    (KvEntry.brief k seq v).WellFormed :=
  ⟨Nat.one_pos, show 1 + 2 < 2 ^ 16 by decide, show 16 < 2 ^ 32 by decide, small, rfl⟩

/-- A log of two entries of 16 bytes each. -/
def twoEntryLog : List KvEntry := [KvEntry.brief 1 1 10, KvEntry.brief 2 2 11]

theorem twoEntryLog_wellFormed : ∀ e ∈ twoEntryLog, e.WellFormed := by
  intro e he
  simp only [twoEntryLog, List.mem_cons, List.not_mem_nil, or_false] at he
  cases he with
  | inl eq => exact eq ▸ brief_wellFormed 1 10 (by decide)
  | inr eq => exact eq ▸ brief_wellFormed 2 11 (by decide)

/-- Memtables of two entries, and writes that bypass the buffer. -/
def unbuffered : DiskDeps :=
  .plain { Options.twoFileLevels with memoryPageBytes := 40, needBufferedWrite := false }

end Examples

end FrenzyKV.Recovery
