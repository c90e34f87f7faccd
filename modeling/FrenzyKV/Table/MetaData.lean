import FrenzyKV.Table.SstableRoundTrip

/-! When a finished table can be opened again (`table/sstable_builder.cc`, `table/sstable.cc`). -/

namespace FrenzyKV

open Bytes SstableBuilder

namespace SstableBuilder

variable {filter : FilterPolicy}

theorem filterAfter_concat (filter : FilterPolicy) (last : Option UserKey) (rep : ByteString)
    (es : List KvEntry) (e : KvEntry) : filterAfter filter last rep (es ++ [e]) =
      nextRep filter ((es.getLast?.map KvEntry.userKey).or last) (filterAfter filter last rep es) e := by
  induction es generalizing last rep with
  | nil => rfl
  | cons x es ih =>
    rw [List.cons_append, filterAfter, ih, filterAfter, List.getLast?_cons]
    cases es.getLast? <;> rfl

/-- The filter of the database leaves bytes for every table that has entries. -/
theorem filterAfter_bloom_ne_nil (hash : ByteString → UInt64) (numKeyBits : Nat) {es : List KvEntry}
    (nonempty : es ≠ []) : filterAfter (makeBloomFilter hash numKeyBits) none [] es ≠ [] := by
  obtain ⟨x, rest, rfl⟩ := List.exists_cons_of_ne_nil nonempty
  obtain ⟨key, dst, eq⟩ := filterAfter_isFilter (FilterGate.appendNewFilter_grows hash numKeyBits) x rest
  rw [eq]
  exact List.concat_ne_nil _ _

end SstableBuilder

namespace RawSstableBuilder

variable {d : TableDeps} {r r' : RawSstableBuilder} {es : List KvEntry} {e : KvEntry}
  {compressor : Option CompressorPolicy}

/-- A builder that has taken the entries `es`. -/
structure Holds (d : TableDeps) (es : List KvEntry) (r : RawSstableBuilder) : Prop where
  parts : ∃ parts : List ByteString, r.file = parts.flatten ∧ ∀ part ∈ parts, StoredBytes part
  appended : r.bytesAppendedToFile = r.file.length
  firstUk : r.firstUk = (es.head?.map (·.userKey.serialize)).getD []
  lastUk : r.lastUk = ((es.getLast?.map KvEntry.userKey).map UserKey.serialize).getD []
  filterRep : r.filterRep = filterAfter d.filter none [] es

theorem holds_make {sizeLimit : Nat} (made : make sizeLimit = some r) : Holds d [] r := by
  rw [make] at made
  split at made
  · cases made
  · obtain rfl := Option.some.inj made
    exact ⟨⟨[], rfl, List.forall_mem_nil _⟩, rfl, rfl, rfl, rfl⟩

/-- A flush puts a stored block behind the others, and leaves the keys and the filter alone. -/
theorem Holds.flush (holds : Holds d es r) (flushed : r.flushCurrentBlock d compressor = some r') :
    Holds d es r' := by
  rw [flushCurrentBlock] at flushed
  split at flushed
  · obtain rfl := Option.some.inj flushed
    exact holds
  · rename_i opened
    obtain ⟨storage, finished, written⟩ := Option.bind_eq_some_iff.mp flushed
    obtain ⟨file, append, rfl⟩ := Option.map_eq_some_iff.mp written
    obtain ⟨rfl, -⟩ := eq_of_appendToFile append
    obtain ⟨parts, layout, stored⟩ := holds.parts
    have part : StoredBytes storage := by
      rw [RawBlockBuilder.finish, if_neg opened] at finished
      dsimp only at finished
      split at finished
      · rename_i small
        obtain rfl := Option.some.inj finished
        exact ⟨storeContent_front _ _ _ _, small⟩
      · cases finished
    refine ⟨⟨parts ++ [storage], ?_, ?_⟩, ?_, holds.firstUk, holds.lastUk, holds.filterRep⟩
    · rw [List.flatten_append, List.flatten_singleton, ← layout]
    · rw [List.forall_mem_append]
      exact ⟨stored, List.forall_mem_singleton.mpr part⟩
    · change r.bytesAppendedToFile + _ = (r.file ++ storage).length
      rw [holds.appended, List.length_append]

theorem Holds.lastUk_iff (holds : Holds d es r) (uk : UserKey) :
    uk.serialize = r.lastUk ↔ es.getLast?.map KvEntry.userKey = some uk := by
  rw [holds.lastUk]
  cases es.getLast?.map KvEntry.userKey with
  | none => exact iff_of_false (serialize_ne_nil uk) (fun eq => by cases eq)
  | some k =>
    constructor
    · intro same
      exact congrArg some (UserKey.serialize_inj same).symm
    · intro same
      rw [Option.some.inj same]
      rfl

theorem Holds.add (holds : Holds d es r) (added : r.add d e = some (true, r')) :
    Holds d (es ++ [e]) r' := by
  have key : e.key.serializeUserKey = e.userKey.serialize := UserKey.serializeUserKey_eq e.key
  rw [RawSstableBuilder.add] at added
  split at added
  · cases (Prod.mk.inj (Option.some.inj added)).1
  · obtain ⟨block, blockAdded, later⟩ := Option.bind_eq_some_iff.mp added
    dsimp only at later
    -- what `add` sets before it may flush
    have before : ∀ block, Holds d (es ++ [e]) {
        r with
        firstUk := if r.firstUk = [] then e.key.serializeUserKey else r.firstUk
        filterRep := if e.key.serializeUserKey = r.lastUk then r.filterRep
          else d.filter.appendNewFilter e.key.serializeUserKey r.filterRep
        lastUk := e.key.serializeUserKey
        block } := by
      intro block
      refine ⟨holds.parts, holds.appended, ?_, ?_, ?_⟩
      · change (if r.firstUk = [] then e.key.serializeUserKey else r.firstUk) = _
        rw [holds.firstUk, key]
        cases es with
        | nil => rfl
        | cons x xs => exact if_neg (serialize_ne_nil x.userKey)
      · rw [List.getLast?_concat]
        exact key
      · rw [filterAfter_concat, Option.or_none, ← holds.filterRep, nextRep]
        refine if_congr ?_ rfl rfl
        rw [key]
        exact holds.lastUk_iff e.userKey
    split at later
    · obtain ⟨next, flushed, eq⟩ := Option.map_eq_some_iff.mp later
      obtain rfl := (Prod.mk.inj eq).2
      have done := (before block).flush flushed
      exact ⟨done.parts, done.appended, done.firstUk, done.lastUk, done.filterRep⟩
    · obtain rfl := (Prod.mk.inj (Option.some.inj later)).2
      exact before block

theorem Holds.addAll {es' : List KvEntry} (holds : Holds d es r) (added : r.addAll d es' = some r') :
    Holds d (es ++ es') r' := by
  induction es' generalizing es r with
  | nil =>
    obtain rfl := Option.some.inj added
    rw [List.append_nil]
    exact holds
  | cons e es' ih =>
    obtain ⟨⟨taken, next⟩, first, later⟩ := Option.bind_eq_some_iff.mp added
    cases taken with
    | false => cases later
    | true =>
      rw [← List.singleton_append, ← List.append_assoc]
      exact ih (holds.add first) later

end RawSstableBuilder

namespace RawSstable

variable {d : TableDeps} {r : RawSstableBuilder} {es : List KvEntry} {sizeLimit : Nat} {file : ByteString}

/-- What `parse_meta_data` has to find in the file of a builder: a single special segment in the meta
block, and the members with the bytes that the builder had. -/
structure Reopens (d : TableDeps) (r : RawSstableBuilder) (file : ByteString) : Prop where
  single : ∃ mbo storage metaBlock, footerMbo file = some mbo ∧
    slice mbo (file.length - (mboSize + mgnSize)) file = some storage ∧
    RawBlock.parse storage = some metaBlock ∧ metaBlock.specialSegs.length = 1
  records : ∃ blockOffsets,
    parseMetaData d.crc32c file = some (⟨r.filterRep, r.firstUk, r.lastUk⟩, blockOffsets)

theorem parseMetaBlock_cases {crc32c : ByteString → UInt32} {storage : ByteString}
    {fields : MetaBlock.Fields} (parsed : parseMetaBlock crc32c storage = some fields) :
    (∃ metaBlock, RawBlock.parse storage = some metaBlock ∧ metaBlock.specialSegs.length = 1) ∧
      fields.filterRep ≠ [] := by
  rw [parseMetaBlock] at parsed
  split at parsed
  · obtain ⟨metaBlock, opened, parsed⟩ := Option.bind_eq_some_iff.mp parsed
    split at parsed
    · rename_i beg special
      refine ⟨⟨metaBlock, opened, by rw [special]; rfl⟩, ?_⟩
      dsimp only at parsed
      split at parsed
      · obtain ⟨found, walked, parsed⟩ := Option.bind_eq_some_iff.mp parsed
        split at parsed
        · cases parsed
        · rename_i kept
          obtain rfl := Option.some.inj parsed
          exact fun empty => kept (.inl empty)
      · cases parsed
    · cases parsed
  · cases parsed

theorem reopens_iff : Reopens d r file ↔ ∃ blockOffsets,
    parseMetaData d.crc32c file = some (⟨r.filterRep, r.firstUk, r.lastUk⟩, blockOffsets) := by
  refine ⟨Reopens.records, fun records => ⟨?_, records⟩⟩
  obtain ⟨blockOffsets, run⟩ := records
  obtain ⟨mbo, footer, run⟩ := Option.bind_eq_some_iff.mp run
  obtain ⟨storage, sliced, run⟩ := Option.bind_eq_some_iff.mp run
  obtain ⟨fields, parsed, -⟩ := Option.bind_eq_some_iff.mp run
  obtain ⟨⟨metaBlock, opened, one⟩, -⟩ := parseMetaBlock_cases parsed
  exact ⟨mbo, storage, metaBlock, footer, sliced, opened, one⟩

/-- A finished table is opened again, and its meta data are what the builder had, if and only if an interval
of blocks has at least five segments and the filter has left bytes. -/
theorem finished_reopens_iff
    (built : (RawSstableBuilder.make sizeLimit).bind (·.addAll d es) = some r)
    (finished : r.finish d = some file) :
    Reopens d r file ↔ 5 ≤ d.opt.maxBlockSegmentsNumber ∧ filterAfter d.filter none [] es ≠ [] := by
  obtain ⟨fresh, made, added⟩ := Option.bind_eq_some_iff.mp built
  have holds : RawSstableBuilder.Holds d es r := (RawSstableBuilder.holds_make made).addAll added
  obtain ⟨flushed, flush, ends⟩ := RawSstableBuilder.finish_cases finished
  have holds' := holds.flush flush
  rw [reopens_iff, ← holds.filterRep]
  rcases ends with ⟨empty, -⟩ | ⟨rep, positive, last, first, size, metaBuilder, metaAdded, small, layout⟩
  · rw [holds'.filterRep, ← holds.filterRep] at empty
    refine iff_of_false ?_ (fun both => both.2 empty)
    rintro ⟨blockOffsets, run⟩
    obtain ⟨mbo, -, run⟩ := Option.bind_eq_some_iff.mp run
    obtain ⟨storage, -, run⟩ := Option.bind_eq_some_iff.mp run
    obtain ⟨fields, parsed, run⟩ := Option.bind_eq_some_iff.mp run
    obtain ⟨offsets, -, eq⟩ := Option.map_eq_some_iff.mp run
    have present := (parseMetaBlock_cases parsed).2
    rw [(Prod.mk.inj eq).1] at present
    exact present empty
  · obtain ⟨parts, file', stored⟩ := holds'.parts
    rw [holds'.appended, file'] at layout
    have parsed : parseMetaData d.crc32c file =
        (parseMetaBlock d.crc32c (sealBlock d.crc32c 0 metaBuilder.finish.openContent)).map
          fun fields => (fields, partOffsets 0 parts) :=
      (parseMetaData_of_layout stored size layout).2
    rw [parsed, and_iff_left (by rwa [holds.filterRep, ← holds'.filterRep])]
    by_cases wide : 5 ≤ d.opt.maxBlockSegmentsNumber
    · rw [MetaBlock.parseMetaBlock_seal metaAdded small wide last first rep, holds'.filterRep,
        holds'.firstUk, holds'.lastUk, ← holds.filterRep, ← holds.firstUk, ← holds.lastUk]
      exact iff_of_true ⟨_, rfl⟩ wide
    · rw [MetaBlock.parseMetaBlock_narrow metaAdded small positive (by omega)]
      exact iff_of_false (fun found => by obtain ⟨_, eq⟩ := found; cases eq) wide

theorem wide_reopened :
    ∃ r file, (RawSstableBuilder.make 4096).bind (·.addAll smallBlocks RawBlock.threeEntries) = some r ∧
      r.finish smallBlocks = some file ∧ Reopens smallBlocks r file := by
  obtain ⟨r, file, built, finished⟩ :=
    @exists_finished smallBlocks RawBlock.threeEntries 4096 (by decide +kernel)
  exact ⟨r, file, built, finished, (finished_reopens_iff built finished).mpr
    ⟨by decide, filterAfter_bloom_ne_nil _ _ (by decide)⟩⟩

/-- The same dependencies with intervals of four segments. -/
def narrowBlocks : TableDeps :=
  { smallBlocks with opt := ⟨{ Options.twoFileLevels with maxBlockSegmentsNumber := 4 }, true, "zstd"⟩ }

/-- The filter record opens a second interval, and the table is finished but cannot be opened. -/
theorem narrow_not_reopened :
    ∃ r file, (RawSstableBuilder.make 4096).bind (·.addAll narrowBlocks RawBlock.threeEntries) = some r ∧
      r.finish narrowBlocks = some file ∧ ¬ Reopens narrowBlocks r file := by
  have runs : (((RawSstableBuilder.make 4096).bind (·.addAll narrowBlocks RawBlock.threeEntries)).any
      fun r => (r.finish narrowBlocks).any fun file =>
        (parseMetaData narrowBlocks.crc32c file).isNone) = true := by
    decide +kernel
  obtain ⟨r, built, run⟩ := (Option.any_eq_true _ _).mp runs
  obtain ⟨file, finished, failed⟩ := (Option.any_eq_true _ _).mp run
  refine ⟨r, file, built, finished, ?_⟩
  rintro ⟨-, blockOffsets, records⟩
  rw [records] at failed
  cases failed

end RawSstable

end FrenzyKV
