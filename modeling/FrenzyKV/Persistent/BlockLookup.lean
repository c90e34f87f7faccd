import FrenzyKV.Persistent.BlockRoundTrip
import FrenzyKV.Persistent.BlockSearch

/-! `block::get` on the bytes of a built block against the list of its entries
(`persistent/block.cc`). -/

namespace FrenzyKV

open Bytes

namespace UserKey

variable {k uk : UserKey}

/-- A view of a prefix that goes on behind it compares as the prefix does. -/
theorem memcmpComparator_view (shortKey : k.size < 2 ^ 16) (short : uk.size < 2 ^ 16)
    (behind : ByteString) :
    memcmpComparator uk.serialize ((k.serialize ++ behind).take uk.serialize.length) =
      memcmpComparator uk.serialize (k.serialize.take uk.serialize.length) := by
  have length := serialize_length k
  have length' := serialize_length uk
  by_cases within : uk.serialize.length ≤ k.serialize.length
  · rw [List.take_append_of_le_length within]
  · -- The length field in front decides, and the view has it.
    have longer : k.size < uk.size := by omega
    have greater : k < uk := lt_iff.mpr (.inl longer)
    have width := encodeBigEndian_length userKeyLengthBytesSize k.size
    have fields : encodeBigEndian userKeyLengthBytesSize k.size <
        encodeBigEndian userKeyLengthBytesSize uk.size := by
      apply encodeBigEndian_lt
      change k.size % 2 ^ 16 < uk.size % 2 ^ 16
      omega
    have view : (k.serialize ++ behind).take uk.serialize.length =
        encodeBigEndian userKeyLengthBytesSize k.size ++ (k.bytes ++ behind).take uk.size := by
      rw [length', serialize, List.append_assoc, List.take_append, width, Nat.add_sub_cancel_left,
        List.take_of_length_le (by omega)]
    rw [memcmpComparator_take shortKey short, if_neg greater.asymm, if_pos greater, view]
    apply memcmpComparator_of_gt
    exact append_lt_append (by rw [width, encodeBigEndian_length]) fields _ _

end UserKey

namespace BlockSegment

/-- A special segment offset is where a segment stands. -/
theorem exists_of_mem_specialOffsets {offset pos : Nat} {segs : List BlockSegment}
    (mem : pos ∈ specialOffsets offset segs) : ∃ before seg after, segs = before ++ seg :: after ∧
      pos = offset + (before.flatMap bytes).length := by
  induction segs generalizing offset with
  | nil => cases mem
  | cons first segs ih =>
    cases List.mem_append.mp mem with
    | inl here =>
      by_cases special : first.special = true
      · rw [if_pos special, List.mem_singleton] at here
        exact ⟨[], first, segs, rfl, here⟩
      · rw [if_neg special] at here
        cases here
    | inr later =>
      obtain ⟨before, seg, after, rfl, place⟩ := ih later
      refine ⟨first :: before, seg, after, rfl, ?_⟩
      rw [place, List.flatMap_cons, List.length_append, Nat.add_assoc]

end BlockSegment

namespace RawBlock

variable (b : RawBlock) (beyond : ByteString)

/-- `m_prefix.subspan(0, n)` of the segment at a position, in the memory that holds the storage and
`beyond` behind it. -/
def viewAt (pos n : Nat) : ByteString := ((b.storage ++ beyond).drop (pos + bsPpl)).take n

/-- `larger_equal_than_this_public_prefix` of the segment at a position. -/
def largerEqualAt (userPrefix : ByteString) (pos : Nat) : Bool :=
  let cmpRet := memcmpComparator userPrefix (b.viewAt beyond pos userPrefix.length)
  cmpRet = .gt || cmpRet = .eq

/-- `less_than_this_public_prefix` of the segment at a position. -/
def lessAt (userPrefix : ByteString) (pos : Nat) : Bool :=
  memcmpComparator userPrefix (b.viewAt beyond pos userPrefix.length) = .lt

/-- The loop of `block::get` with the views as they lie in memory. -/
def getFromView (userPrefix : ByteString) : List Nat → Option (Option RawSegment)
  | [] => none
  | [lastSegp] => (b.segmentAt lastSegp).bind fun _ =>
      if b.largerEqualAt beyond userPrefix lastSegp then b.findFit userPrefix lastSegp b.metaDataBeg
      else some none
  | seg1p :: seg2p :: rest =>
    (b.segmentAt seg1p).bind fun _ => (b.segmentAt seg2p).bind fun _ =>
      if b.largerEqualAt beyond userPrefix seg1p && b.lessAt beyond userPrefix seg2p then
        (b.findFit userPrefix seg1p seg2p).bind fun found =>
          match found with
          | some seg => some (some seg)
          | none => getFromView userPrefix (seg2p :: rest)
      else getFromView userPrefix (seg2p :: rest)

/-- `block::get` with the views as they lie in memory. -/
def getView (userPrefix : ByteString) : Option (Option RawSegment) :=
  if b.largerEqualThanFirst userPrefix then b.getFromView beyond userPrefix b.specialSegs
  else some none

variable {b beyond} {userPrefix : ByteString}

theorem getFromView_eq {positions : List Nat}
    (agree : ∀ pos ∈ positions, ∀ seg, b.segmentAt pos = some seg →
      memcmpComparator userPrefix (b.viewAt beyond pos userPrefix.length) =
        memcmpComparator userPrefix (seg.publicPrefix.take userPrefix.length)) :
    b.getFromView beyond userPrefix positions = b.getFrom userPrefix positions := by
  induction positions with
  | nil => rfl
  | cons seg1p rest ih =>
    have first := agree seg1p List.mem_cons_self
    have later := ih fun pos mem => agree pos (List.mem_cons_of_mem _ mem)
    cases rest with
    | nil =>
      rw [getFromView, getFrom]
      cases at1 : b.segmentAt seg1p with
      | none => rfl
      | some seg1 =>
        rw [Option.bind_some, Option.bind_some, largerEqualAt, first seg1 at1]
        rfl
    | cons seg2p rest =>
      have second := agree seg2p (List.mem_cons_of_mem _ List.mem_cons_self)
      rw [getFromView, getFrom, later]
      cases at1 : b.segmentAt seg1p with
      | none => rfl
      | some seg1 =>
        cases at2 : b.segmentAt seg2p with
        | none => rfl
        | some seg2 =>
          simp only [Option.bind_some]
          rw [largerEqualAt, first seg1 at1, lessAt, second seg2 at2]
          rfl

end RawBlock

namespace Block

variable {b : Block} {storage : ByteString} {uk : UserKey}

/-- Where a special segment offset points in the storage. -/
theorem segment_of_mem_specialOffsets {tail : ByteString} {offset pos : Nat} {segs : List BlockSegment}
    (data : storage.drop offset = segs.flatMap BlockSegment.bytes ++ tail)
    (inside : pos ∈ BlockSegment.specialOffsets offset segs) :
    ∃ seg ∈ segs, ∃ rest, storage.drop pos = seg.bytes ++ rest := by
  obtain ⟨before, seg, after, rfl, place⟩ := BlockSegment.exists_of_mem_specialOffsets inside
  refine ⟨seg, List.mem_append_right _ List.mem_cons_self,
    after.flatMap BlockSegment.bytes ++ tail, ?_⟩
  rw [place, ← List.drop_drop, data, List.flatMap_append, List.append_assoc, List.drop_left,
    List.flatMap_cons, List.append_assoc]

/-- The segment there is parsed, and its view begins with its key. -/
theorem segmentAt_of_drop {seg : BlockSegment} {rest : ByteString} {pos : Nat} (raw : RawBlock)
    (fits : seg.Fits) (dropped : raw.storage.drop pos = seg.bytes ++ rest) (beyond : ByteString) :
    raw.segmentAt pos = some (.success seg.raw) ∧ ∃ behind, ∀ n,
      raw.viewAt beyond pos n = (seg.userKey.serialize ++ behind).take n := by
  have sizes := congrArg List.length dropped
  have length := BlockSegment.bytes_length seg
  rw [List.length_drop, List.length_append] at sizes
  rw [bsRil] at length
  constructor
  · rw [RawBlock.segmentAt, dropped]
    exact BlockSegment.parse_bytes fits rest (by omega)
  · refine ⟨seg.items.flatMap BlockSegment.itemBytes ++ encodeBigEndian bsRil 0 ++ rest ++ beyond, ?_⟩
    intro n
    have width := encodeBigEndian_length bsPpl seg.userKey.serialize.length
    rw [RawBlock.viewAt, ← List.drop_drop, List.drop_append_of_le_length (by omega), dropped,
      BlockSegment.bytes, BlockSegment.unfinishedBytes, BlockSegment.openBytes]
    simp only [List.append_assoc]
    rw [List.drop_left' width]

/-- In a built block the views that go on behind a prefix change no comparison. -/
theorem getView_of_holds (fits : b.Fits) (holds : BlockStorage.Holds storage b.content)
    (short : uk.size < 2 ^ 16) (beyond : ByteString) :
    (b.parsed storage).getView beyond uk.serialize = some ((b.get uk).map BlockSegment.raw) := by
  obtain ⟨rest, mem⟩ := drop_of_holds holds
  rw [← get_of_holds fits holds short, RawBlock.getView, RawBlock.get, RawBlock.getFromView_eq]
  intro pos inside seg found
  rw [show (b.parsed storage).specialSegs = _ from sbsos_eq fits.total] at inside
  obtain ⟨here, there, tail, dropped⟩ := segment_of_mem_specialOffsets mem inside
  have fit := fits.segments here there
  have shortKey : here.userKey.size < 2 ^ 16 := by
    have := fit.key
    omega
  obtain ⟨parsed_, behind, view⟩ := segmentAt_of_drop (b.parsed storage) fit dropped beyond
  obtain rfl := Option.some.inj (found.symm.trans parsed_)
  rw [view]
  exact UserKey.memcmpComparator_view shortKey short behind

end Block

end FrenzyKV
