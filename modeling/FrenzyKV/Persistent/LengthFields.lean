import FrenzyKV.Log.LogFile
import FrenzyKV.Persistent.BlockParse

/-! The length and count fields of log entries and blocks against what they stand for
(`db/kv_entry.cc`, `log/write_ahead_logger.cc`, `persistent/block.cc`). -/

namespace FrenzyKV

open Bytes

/-- A part of what is written: a length or a count in a field of some width, or other bytes. -/
inductive Piece
  | field (width value : Nat)
  | other (bytes : ByteString)

namespace Piece

/-- A value is cut to the width of its field. -/
def bytes : Piece → ByteString
  | field width value => encodeBigEndian width value
  | other bytes => bytes

/-- The bytes of the field say its value. -/
def Exact : Piece → Prop
  | field width value => decodeBigEndian (encodeBigEndian width value) = value
  | other _ => True

theorem exact_field_iff {width value : Nat} : (field width value).Exact ↔ value < 256 ^ width := by
  rw [Exact, decode_encodeBigEndian]
  constructor
  · intro same
    rw [← same]
    exact Nat.mod_lt _ (by positivity)
  · exact Nat.mod_eq_of_lt

end Piece

namespace RawBlockBuilder

/-- The constructor of `block_segment_builder`: the prefix length counts the length of the key, too. -/
def openPieces (e : KvEntry) : List Piece :=
  [.field bsPpl (userKeyLengthBytesSize + e.userKey.size),
    .field userKeyLengthBytesSize e.userKey.size, .other e.userKey.bytes]

/-- `block_segment_builder::add`. -/
def itemPieces (e : KvEntry) : List Piece :=
  [.field bsRil (seqBytesSize + e.value.serializedBytesSize), .other (encodeBigEndian seqBytesSize e.seq),
    .field userValueLengthBytesSize e.value.size, .other e.value.copied]

/-- What `add` appends to the storage. -/
def addPieces (b : RawBlockBuilder) (e : KvEntry) : List Piece :=
  match b.publicPrefix with
  | none => openPieces e ++ itemPieces e
  | some lastPrefix =>
    if e.key.serializeUserKey = lastPrefix then itemPieces e
    else .other (encodeBigEndian bsRil 0) :: (openPieces e ++ itemPieces e)

def addAllPieces (opt : Options) : RawBlockBuilder → List KvEntry → List Piece
  | _, [] => []
  | b, e :: es => b.addPieces e ++ ((b.add opt e).map fun b => b.addAllPieces opt es).getD []

/-- What `finish` appends before it stores the content. -/
def finishPieces (b : RawBlockBuilder) : List Piece :=
  [.other (encodeBigEndian bsRil 0), .other (b.sbsos.flatMap (encodeBigEndian sbsoSize)),
    .field nsbsSize b.sbsos.length]

/-- The special ones among the first `n` segments: the first, and those that the counter picks. -/
def specialSegments (interval n : Nat) : Nat :=
  (List.range' 1 n).countP fun i => i = 1 || (i + 1) % interval = 0

theorem specialSegments_succ (interval n : Nat) : specialSegments interval (n + 1) =
    specialSegments interval n + if n = 0 ∨ (n + 2) % interval = 0 then 1 else 0 := by
  rw [specialSegments, List.range'_concat, List.countP_append, List.countP_singleton, specialSegments]
  congr 1
  refine if_congr ?_ rfl rfl
  rw [Bool.or_eq_true, decide_eq_true_iff, decide_eq_true_iff, Nat.one_mul, Nat.add_comm 1 n]
  exact or_congr (by omega) Iff.rfl

/-- How many of the entries have another user key than the one before them. -/
def keyRuns : Option UserKey → List KvEntry → Nat
  | _, [] => 0
  | last, e :: es => (if last = some e.userKey then 0 else 1) + keyRuns (some e.userKey) es

/-- The counts of a builder whose last entry has the key `last`. -/
structure Counts (opt : Options) (b : RawBlockBuilder) (last : Option UserKey) : Prop where
  publicPrefix : b.publicPrefix = last.map UserKey.serialize
  special : b.sbsos.length = specialSegments opt.maxBlockSegmentsNumber b.segCount
  started : b.segCount = 0 ↔ last = none
  header : btlSize ≤ b.storage.length
  inside : ∀ pos ∈ b.sbsos, pos < b.storage.length
  attached : b.detached = false

variable {opt : Options} {b b' : RawBlockBuilder} {last : Option UserKey} {e : KvEntry}
  {es : List KvEntry}

theorem counts_fresh (opt : Options) : fresh.Counts opt none where
  publicPrefix := rfl
  special := rfl
  started := iff_of_true rfl rfl
  header := Nat.le_refl _
  inside := List.forall_mem_nil _
  attached := rfl

theorem bytes_openPieces (e : KvEntry) :
    (openPieces e).flatMap Piece.bytes = BlockSegment.openBytes e.key.serializeUserKey := by
  rw [BlockSegment.openBytes, SequencedKey.serializeUserKey, List.length_append, encodeBigEndian_length]
  simp [openPieces, Piece.bytes, KvEntry.userKey, UserKey.size]

theorem bytes_itemPieces (e : KvEntry) :
    (itemPieces e).flatMap Piece.bytes = BlockSegment.itemBytes (e.seq, e.value) := by
  simp [itemPieces, Piece.bytes, BlockSegment.itemBytes, BlockSegment.itemBody, KvUserValue.serialize]

/-- The first entry opens a segment, an entry with the key of the segment joins it, and one with another
key ends it and opens the next. -/
theorem add_cases (added : b.add opt e = some b') :
    (b.publicPrefix = none ∧
      b' = ⟨b.storage ++ (openPieces e ++ itemPieces e).flatMap Piece.bytes, some e.key.serializeUserKey,
        b.segCount + 1, b.sbsos ++ [btlSize], false⟩) ∨
    (b.publicPrefix = some e.key.serializeUserKey ∧
      b' = { b with storage := b.storage ++ (itemPieces e).flatMap Piece.bytes }) ∨
    ∃ lastPrefix, b.publicPrefix = some lastPrefix ∧ e.key.serializeUserKey ≠ lastPrefix ∧
      b' = ⟨b.storage ++ (encodeBigEndian bsRil 0 ++ (openPieces e ++ itemPieces e).flatMap Piece.bytes),
        some e.key.serializeUserKey, b.segCount + 1,
        b.sbsos ++ if (b.segCount + 2) % opt.maxBlockSegmentsNumber = 0 then
          [(b.storage ++ encodeBigEndian bsRil 0).length % 2 ^ 32] else [], false⟩ := by
  rw [List.flatMap_append, bytes_openPieces, bytes_itemPieces]
  rw [add, opened] at added
  cases current : b.publicPrefix with
  | none =>
    rw [current] at added
    simp only [if_true] at added
    obtain rfl := Option.some.inj added
    exact .inl ⟨rfl, by rw [List.append_assoc]⟩
  | some lastPrefix =>
    rw [current] at added
    dsimp only at added
    by_cases same : e.key.serializeUserKey = lastPrefix
    · rw [if_pos same] at added
      obtain rfl := Option.some.inj added
      exact .inr (.inl ⟨by rw [same], by rw [current]⟩)
    · rw [if_neg same] at added
      split at added
      · obtain rfl := Option.some.inj added
        refine .inr (.inr ⟨lastPrefix, rfl, same, ?_⟩)
        rw [List.append_assoc, List.append_assoc]
      · cases added

theorem add_storage (added : b.add opt e = some b') :
    b'.storage = b.storage ++ (b.addPieces e).flatMap Piece.bytes := by
  rcases add_cases added with ⟨current, rfl⟩ | ⟨current, rfl⟩ | ⟨lastPrefix, current, other, rfl⟩
  · rw [addPieces, current]
  · rw [addPieces, current]
    simp only [if_true]
  · rw [addPieces, current]
    simp only [if_neg other, List.flatMap_cons]
    rfl

theorem length_openPieces_pos (e : KvEntry) (rest : List Piece) :
    0 < ((openPieces e ++ rest).flatMap Piece.bytes).length := by
  rw [List.flatMap_append, bytes_openPieces, BlockSegment.openBytes, List.length_append,
    List.length_append, encodeBigEndian_length, bsPpl]
  omega

theorem Counts.add (counts : b.Counts opt last) (added : b.add opt e = some b') :
    b'.Counts opt (some e.userKey) ∧
      b'.segCount = b.segCount + if last = some e.userKey then 0 else 1 := by
  have key : e.key.serializeUserKey = e.userKey.serialize := UserKey.serializeUserKey_eq e.key
  have publicPrefix := counts.publicPrefix
  have started := counts.started
  have header := counts.header
  have inside := counts.inside
  have longer : ∀ more : ByteString, ∀ pos ∈ b.sbsos, pos < (b.storage ++ more).length := by
    intro more pos mem
    rw [List.length_append]
    exact Nat.lt_add_right _ (inside pos mem)
  rcases add_cases added with ⟨current, rfl⟩ | ⟨current, rfl⟩ | ⟨lastPrefix, current, other, rfl⟩
  · have first : last = none := by
      cases last with
      | none => rfl
      | some k => rw [current] at publicPrefix; cases publicPrefix
    have zero := started.mpr first
    have positive := length_openPieces_pos e (itemPieces e)
    refine ⟨⟨by rw [key]; rfl, ?_, by simp, ?_, ?_, rfl⟩, by rw [first]; rfl⟩
    · rw [List.length_append, counts.special, zero, specialSegments_succ, if_pos (.inl rfl)]
      rfl
    · rw [List.length_append]
      omega
    · rw [List.forall_mem_append]
      refine ⟨longer _, List.forall_mem_singleton.mpr ?_⟩
      rw [List.length_append]
      omega
  · have same : last = some e.userKey := by
      rw [current, key] at publicPrefix
      obtain ⟨k, eq, serialized⟩ := Option.map_eq_some_iff.mp publicPrefix.symm
      rw [eq, UserKey.serialize_inj serialized]
    refine ⟨⟨same ▸ publicPrefix, counts.special, same ▸ started, ?_, longer _, counts.attached⟩,
      by rw [if_pos same]; rfl⟩
    rw [List.length_append]
    omega
  · have different : last ≠ some e.userKey := by
      intro same
      rw [current, same, Option.map_some] at publicPrefix
      exact other (key.trans (Option.some.inj publicPrefix).symm)
    have some_segment : b.segCount ≠ 0 := by
      intro zero
      rw [started.mp zero, current] at publicPrefix
      cases publicPrefix
    have positive := length_openPieces_pos e (itemPieces e)
    refine ⟨⟨by rw [key]; rfl, ?_, by simp, ?_, ?_, rfl⟩, by rw [if_neg different]⟩
    · rw [List.length_append, counts.special, specialSegments_succ]
      congr 1
      by_cases special : (b.segCount + 2) % opt.maxBlockSegmentsNumber = 0
      · rw [if_pos special, if_pos (.inr special)]
        rfl
      · rw [if_neg special, if_neg (not_or.mpr ⟨some_segment, special⟩)]
        rfl
    · rw [List.length_append]
      omega
    · rw [List.forall_mem_append]
      refine ⟨longer _, ?_⟩
      intro pos mem
      split at mem
      · rw [List.mem_singleton.mp mem]
        rw [← List.append_assoc]
        generalize b.storage ++ encodeBigEndian bsRil 0 = ended
        have cut := Nat.mod_le ended.length (2 ^ 32)
        rw [List.length_append]
        omega
      · cases mem

theorem Counts.addAll (counts : b.Counts opt last) (added : b.addAll opt es = some b') :
    (∃ last', b'.Counts opt last') ∧ b'.segCount = b.segCount + keyRuns last es ∧
      b'.storage = b.storage ++ (b.addAllPieces opt es).flatMap Piece.bytes := by
  induction es generalizing b last with
  | nil =>
    obtain rfl := Option.some.inj added
    exact ⟨⟨last, counts⟩, rfl, (List.append_nil _).symm⟩
  | cons e es ih =>
    obtain ⟨next, first, rest⟩ := Option.bind_eq_some_iff.mp added
    obtain ⟨counts', segCount⟩ := counts.add first
    obtain ⟨counted, total, storage⟩ := ih counts' rest
    refine ⟨counted, ?_, ?_⟩
    · rw [total, segCount, keyRuns, Nat.add_assoc]
    · rw [storage, add_storage first, addAllPieces, first, Option.map_some, Option.getD_some,
        List.flatMap_append, List.append_assoc]

/-- The content of a block is what the entries and `finish` have appended. -/
theorem content_pieces (added : fresh.addAll opt es = some b) :
    b.content = (fresh.addAllPieces opt es ++ b.finishPieces).flatMap Piece.bytes := by
  obtain ⟨⟨last, counts⟩, -, storage⟩ := (counts_fresh opt).addAll added
  have kept : b.sbsos.getLast? ≠ some (b.storage ++ encodeBigEndian bsRil 0).length := by
    intro behind
    have inside := counts.inside _ (List.mem_of_getLast? behind)
    rw [List.length_append] at inside
    omega
  have header : fresh.storage.length = btlSize := rfl
  rw [content, counts.attached, if_neg Bool.false_ne_true]
  simp only [if_neg kept]
  rw [storage, List.append_assoc, List.append_assoc, List.append_assoc, List.drop_left' header,
    List.flatMap_append]
  simp [finishPieces, Piece.bytes]

/-- What the fields of an entry in a block can hold. -/
def EntryFits (e : KvEntry) : Prop :=
  userKeyLengthBytesSize + e.userKey.size < 2 ^ 16 ∧ seqBytesSize + e.value.serializedBytesSize < 2 ^ 32

instance (e : KvEntry) : Decidable (EntryFits e) := inferInstanceAs (Decidable (_ ∧ _))

theorem exact_openPieces (e : KvEntry) :
    (∀ p ∈ openPieces e, p.Exact) ↔ userKeyLengthBytesSize + e.userKey.size < 2 ^ 16 := by
  rw [openPieces, List.forall_mem_cons, List.forall_mem_cons, List.forall_mem_singleton,
    Piece.exact_field_iff, Piece.exact_field_iff, bsPpl, userKeyLengthBytesSize]
  constructor
  · exact And.left
  · exact fun short => ⟨short, by omega, trivial⟩

theorem exact_itemPieces (e : KvEntry) :
    (∀ p ∈ itemPieces e, p.Exact) ↔ seqBytesSize + e.value.serializedBytesSize < 2 ^ 32 := by
  rw [itemPieces, List.forall_mem_cons, List.forall_mem_cons, List.forall_mem_cons,
    List.forall_mem_singleton, Piece.exact_field_iff, Piece.exact_field_iff, bsRil,
    userValueLengthBytesSize, KvUserValue.serializedBytesSize]
  constructor
  · exact And.left
  · exact fun short => ⟨short, trivial, by omega, trivial⟩

/-- An entry that joins a segment has the key of the entry that opened it. -/
theorem exact_addPieces (short : ∀ p, b.publicPrefix = some p → p.length < 2 ^ 16) (e : KvEntry) :
    (∀ p ∈ b.addPieces e, p.Exact) ↔ EntryFits e := by
  have both : (∀ p ∈ openPieces e ++ itemPieces e, p.Exact) ↔ EntryFits e := by
    rw [List.forall_mem_append, exact_openPieces, exact_itemPieces]
    rfl
  rw [addPieces]
  cases current : b.publicPrefix with
  | none => exact both
  | some lastPrefix =>
    dsimp only
    by_cases same : e.key.serializeUserKey = lastPrefix
    · have key := short lastPrefix current
      rw [← same, SequencedKey.serializeUserKey, List.length_append, encodeBigEndian_length] at key
      rw [if_pos same, exact_itemPieces]
      exact (and_iff_right key).symm
    · rw [if_neg same, List.forall_mem_cons, both]
      exact and_iff_right trivial

theorem exact_addAllPieces (short : ∀ p, b.publicPrefix = some p → p.length < 2 ^ 16)
    (added : b.addAll opt es = some b') :
    (∀ p ∈ b.addAllPieces opt es, p.Exact) ↔ ∀ e ∈ es, EntryFits e := by
  induction es generalizing b with
  | nil => exact iff_of_true (List.forall_mem_nil _) (List.forall_mem_nil _)
  | cons e es ih =>
    obtain ⟨next, first, rest⟩ := Option.bind_eq_some_iff.mp added
    rw [addAllPieces, first, Option.map_some, Option.getD_some, List.forall_mem_append,
      exact_addPieces short, List.forall_mem_cons]
    refine and_congr_right fun fits => ih ?_ rest
    have prefix_ : next.publicPrefix = some e.key.serializeUserKey := by
      rcases add_cases first with ⟨-, rfl⟩ | ⟨current, rfl⟩ | ⟨_, -, -, rfl⟩
      · rfl
      · exact current
      · rfl
    intro p current
    rw [prefix_] at current
    rw [← Option.some.inj current, SequencedKey.serializeUserKey, List.length_append,
      encodeBigEndian_length]
    exact fits.1

theorem exact_finishPieces (b : RawBlockBuilder) :
    (∀ p ∈ b.finishPieces, p.Exact) ↔ b.sbsos.length < 2 ^ 16 := by
  rw [finishPieces, List.forall_mem_cons, List.forall_mem_cons, List.forall_mem_singleton,
    Piece.exact_field_iff]
  constructor
  · exact fun exact_ => exact_.2.2
  · exact fun few => ⟨trivial, trivial, few⟩

end RawBlockBuilder

namespace KvEntry

/-- The length fields in the log say the lengths. -/
structure LoggedLengths (e : KvEntry) : Prop where
  userKeyLength : decodeBigEndian ((e.serialize.drop totalLengthBytesSize).take
    userKeyLengthBytesSize) = e.userKey.size
  valueLength : decodeBigEndian ((e.serialize.drop (totalLengthBytesSize +
    e.key.serializedBytesSize)).take userValueLengthBytesSize) = KvUserValue.size e.value

theorem loggedLengths_iff (e : KvEntry) :
    e.LoggedLengths ↔ e.userKey.size < 2 ^ 16 ∧ KvUserValue.size e.value < 2 ^ 32 := by
  constructor
  · rintro ⟨key, value⟩
    rw [decode_userKeyLength] at key
    rw [decode_valueLength] at value
    exact ⟨by omega, by omega⟩
  · rintro ⟨key, value⟩
    exact ⟨by rw [decode_userKeyLength, Nat.mod_eq_of_lt key],
      by rw [decode_valueLength, Nat.mod_eq_of_lt value]⟩

end KvEntry

open RawBlockBuilder in
/-- The fields of an accepted log entry and of a finished block are exact if and only if what they stand
for fits their widths; the prefix length of a block stands for two bytes more than the key has. -/
theorem lengthFields_exact_iff (logged : KvEntry) (opt : Options) (storageOpt : StorageOptions)
    (compressor : Option CompressorPolicy) (crc32c : ByteString → UInt32) (es : List KvEntry)
    (b : RawBlockBuilder) (storage : ByteString) :
    (∀ capacity, WriteAheadLogger.Accepts capacity logged →
      (logged.LoggedLengths ↔ logged.userKey.size < 2 ^ 16 ∧ KvUserValue.size logged.value < 2 ^ 32)) ∧
    (fresh.addAll opt es = some b → b.finish storageOpt compressor crc32c = some storage →
      b.content = (fresh.addAllPieces opt es ++ b.finishPieces).flatMap Piece.bytes ∧
      ((∀ p ∈ fresh.addAllPieces opt es ++ b.finishPieces, p.Exact) ↔
        (∀ e ∈ es, EntryFits e) ∧
          specialSegments opt.maxBlockSegmentsNumber (keyRuns none es) < 2 ^ 16)) := by
  refine ⟨fun _ _ => logged.loggedLengths_iff, ?_⟩
  intro added _
  obtain ⟨⟨last, counts⟩, segCount, -⟩ := (counts_fresh opt).addAll added
  have special : b.sbsos.length = specialSegments opt.maxBlockSegmentsNumber (keyRuns none es) := by
    rw [counts.special, segCount]
    exact congrArg _ (Nat.zero_add _)
  refine ⟨content_pieces added, ?_⟩
  rw [List.forall_mem_append, exact_addAllPieces (fun _ none_open => by cases none_open) added,
    exact_finishPieces, special]

/-- A tombstone whose key has `n` zero bytes. -/
def longKey (n : Nat) : KvEntry := ⟨⟨7, ⟨List.replicate n 0⟩⟩, none⟩

theorem longKey_userKey_size (n : Nat) : (longKey n).userKey.size = n := List.length_replicate

theorem longKey_serializedBytesSize (n : Nat) : (longKey n).serializedBytesSize = n + 14 := by
  have key : (longKey n).key.userKey.bytes.length = n := List.length_replicate
  rw [KvEntry.serializedBytesSize, SequencedKey.serializedBytesSize, UserKey.size, key]
  change 4 + (4 + 2 + n) + 4 = n + 14
  omega

open RawBlockBuilder in
/-- The logger takes a key of 65536 bytes and writes the length zero. A key of 65534 bytes is right in the
log, and its block is finished with the prefix length zero. -/
theorem longKey_truncated :
    (WriteAheadLogger.Accepts (2 ^ 17) (longKey 65536) ∧ ¬ (longKey 65536).LoggedLengths) ∧
    (WriteAheadLogger.Accepts (2 ^ 17) (longKey 65534) ∧ (longKey 65534).LoggedLengths) ∧
    ∃ b storage, fresh.addAll .twoFileLevels [longKey 65534] = some b ∧
      b.finish ⟨.twoFileLevels, false, ""⟩ none (fun _ => 0) = some storage ∧
      .field bsPpl 65536 ∈ fresh.addAllPieces .twoFileLevels [longKey 65534] ∧
      encodeBigEndian bsPpl 65536 = encodeBigEndian bsPpl 0 ∧ ¬ (Piece.field bsPpl 65536).Exact := by
  have accepts : ∀ n, n + 14 ≤ 2 ^ 17 → WriteAheadLogger.Accepts (2 ^ 17) (longKey n) := by
    intro n small
    rw [WriteAheadLogger.Accepts, longKey_serializedBytesSize]
    omega
  have tombstone : ∀ n, KvUserValue.size (longKey n).value = 0 := fun _ => rfl
  refine ⟨⟨accepts _ (by omega), ?_⟩, ⟨accepts _ (by omega), ?_⟩, ?_⟩
  · rw [KvEntry.loggedLengths_iff, longKey_userKey_size]
    omega
  · rw [KvEntry.loggedLengths_iff, longKey_userKey_size, tombstone]
    omega
  · let e := longKey 65534
    let b : RawBlockBuilder := ⟨fresh.storage ++ BlockSegment.openBytes e.key.serializeUserKey ++
      BlockSegment.itemBytes (e.seq, e.value), some e.key.serializeUserKey, 1, [btlSize], false⟩
    have key : e.key.serializeUserKey.length = 65536 := by
      rw [SequencedKey.serializeUserKey, List.length_append, encodeBigEndian_length]
      exact congrArg (2 + ·) (longKey_userKey_size 65534)
    have first : fresh.add .twoFileLevels e = some b := if_pos rfl
    have added : fresh.addAll .twoFileLevels [e] = some b := by rw [addAll, first]; rfl
    have pieces : fresh.addAllPieces .twoFileLevels [e] = openPieces e ++ itemPieces e := by
      rw [addAllPieces, first]
      exact List.append_nil _
    have small : b.content.length ≤ 2 ^ 17 := by
      rw [content_pieces added, pieces, List.flatMap_append, List.flatMap_append, bytes_openPieces,
        bytes_itemPieces, BlockSegment.openBytes]
      simp only [List.length_append, key, BlockSegment.itemBytes, BlockSegment.itemBody, KvUserValue.serialize,
        encodeBigEndian_length, finishPieces, Piece.bytes, List.flatMap_cons, List.flatMap_nil]
      decide +kernel
    refine ⟨b, sealBlock (fun _ => 0) 0 b.content, added, ?_, ?_, ?_, ?_⟩
    · rw [finish, if_neg (Option.some_ne_none _), storeContent_plain rfl]
      refine if_pos ?_
      rw [BlockStorage.sealBlock_length]
      change 4 + (b.content.length + (1 + 4)) ≤ 2 ^ 32 - 1
      omega
    · rw [pieces]
      refine List.mem_append_left _ (List.mem_cons.mpr (.inl ?_))
      rw [longKey_userKey_size]
      rfl
    · decide
    · rw [Piece.exact_field_iff]
      decide

end FrenzyKV
