import FrenzyKV.Table.BlockQuery

/-! The subspans that `block::get` takes of the prefixes of a block (`persistent/block.cc`). -/

namespace FrenzyKV

open Bytes BlockStorage

namespace RawBlock

variable (b : RawBlock) (beyond userPrefix : ByteString)

/-- The calls of `m_prefix.subspan(0, user_prefix.size())` in `fit_public_prefix`, up to the first
segment that fits: the length that is asked for, and that of the prefix. -/
def fitSubspans : List RawSegment → List (Nat × Nat)
  | [] => []
  | seg :: segs =>
    (if seg.publicPrefix.length < userPrefix.length then []
      else [(userPrefix.length, seg.publicPrefix.length)]) ++
    if RawSegment.fitPublicPrefix userPrefix seg.publicPrefix then [] else fitSubspans segs

/-- The subspans that the loop of `block::get` takes, in order. -/
def subspansFrom : List Nat → List (Nat × Nat)
  | [] => []
  | [lastSegp] =>
    match b.segmentAt lastSegp with
    | none => []
    | some lastSeg =>
      (userPrefix.length, lastSeg.publicPrefix.length) ::
        if b.largerEqualAt beyond userPrefix lastSegp then
          fitSubspans userPrefix (segmentsInSingleInterval b.storage lastSegp b.metaDataBeg).1
        else []
  | seg1p :: seg2p :: rest =>
    match b.segmentAt seg1p, b.segmentAt seg2p with
    | some seg1, some seg2 =>
      (userPrefix.length, seg1.publicPrefix.length) ::
        -- the second comparison is only made when the first one holds
        if b.largerEqualAt beyond userPrefix seg1p then
          (userPrefix.length, seg2.publicPrefix.length) ::
            if b.lessAt beyond userPrefix seg2p then
              fitSubspans userPrefix (segmentsInSingleInterval b.storage seg1p seg2p).1 ++
                if b.findFit userPrefix seg1p seg2p = some none then subspansFrom (seg2p :: rest)
                else []
            else subspansFrom (seg2p :: rest)
        else subspansFrom (seg2p :: rest)
    | _, _ => []

/-- The subspans that `block::get` takes; the first comparison takes the whole prefix. -/
def subspans : List (Nat × Nat) :=
  if b.largerEqualThanFirst userPrefix then b.subspansFrom beyond userPrefix b.specialSegs else []

/-- The prefixes of the special segments that the loop compares the key with, until it is found or a
segment cannot be read. -/
def comparedFrom : List Nat → List ByteString
  | [] => []
  | [lastSegp] =>
    match b.segmentAt lastSegp with
    | none => []
    | some lastSeg => [lastSeg.publicPrefix]
  | seg1p :: seg2p :: rest =>
    match b.segmentAt seg1p, b.segmentAt seg2p with
    | some seg1, some seg2 =>
      seg1.publicPrefix ::
        if b.largerEqualAt beyond userPrefix seg1p then
          seg2.publicPrefix ::
            if b.lessAt beyond userPrefix seg2p && b.findFit userPrefix seg1p seg2p ≠ some none then []
            else comparedFrom (seg2p :: rest)
        else comparedFrom (seg2p :: rest)
    | _, _ => []

def compared : List ByteString := b.comparedFrom beyond userPrefix b.specialSegs

/-- No subspan is longer than what it is taken from. -/
def SubspansInside : Prop := ∀ p ∈ b.subspans beyond userPrefix, p.1 ≤ p.2

variable {b beyond userPrefix}

/-- The guard of `fit_public_prefix`. -/
theorem fitSubspans_inside (segs : List RawSegment) : ∀ p ∈ fitSubspans userPrefix segs, p.1 ≤ p.2 := by
  induction segs with
  | nil =>
    intro p mem
    cases mem
  | cons seg segs ih =>
    intro p mem
    rw [fitSubspans] at mem
    cases List.mem_append.mp mem with
    | inl here =>
      split at here
      · cases here
      · rw [List.mem_singleton] at here
        subst here
        dsimp only
        omega
    | inr later =>
      split at later
      · cases later
      · exact ih p later

/-- Only the comparisons with special segments take a subspan without looking at its length. -/
theorem subspansFrom_inside_iff (positions : List Nat) :
    (∀ p ∈ b.subspansFrom beyond userPrefix positions, p.1 ≤ p.2) ↔
      ∀ x ∈ b.comparedFrom beyond userPrefix positions, userPrefix.length ≤ x.length := by
  induction positions with
  | nil => exact iff_of_true (List.forall_mem_nil _) (List.forall_mem_nil _)
  | cons seg1p rest ih =>
    cases rest with
    | nil =>
      rw [subspansFrom, comparedFrom]
      cases b.segmentAt seg1p with
      | none => exact iff_of_true (List.forall_mem_nil _) (List.forall_mem_nil _)
      | some seg1 =>
        rw [List.forall_mem_cons, List.forall_mem_singleton]
        refine and_iff_left ?_
        split
        · exact fitSubspans_inside _
        · exact List.forall_mem_nil _
    | cons seg2p rest =>
      rw [subspansFrom, comparedFrom]
      cases b.segmentAt seg1p with
      | none => exact iff_of_true (List.forall_mem_nil _) (List.forall_mem_nil _)
      | some seg1 =>
        cases b.segmentAt seg2p with
        | none => exact iff_of_true (List.forall_mem_nil _) (List.forall_mem_nil _)
        | some seg2 =>
          dsimp only
          rw [List.forall_mem_cons, List.forall_mem_cons]
          refine and_congr_right fun _ => ?_
          cases b.largerEqualAt beyond userPrefix seg1p with
          | false => exact ih
          | true =>
            rw [if_pos rfl, if_pos rfl, List.forall_mem_cons, List.forall_mem_cons]
            refine and_congr_right fun _ => ?_
            cases b.lessAt beyond userPrefix seg2p with
            | false => exact ih
            | true =>
              rw [if_pos rfl, List.forall_mem_append, and_iff_right (fitSubspans_inside _)]
              by_cases none_fits : b.findFit userPrefix seg1p seg2p = some none
              · simpa [none_fits] using ih
              · simp [none_fits]

/-- What is compared is the prefix of a special segment. -/
theorem mem_comparedFrom {positions : List Nat} {x : ByteString}
    (mem : x ∈ b.comparedFrom beyond userPrefix positions) :
    ∃ pos ∈ positions, ∃ seg, b.segmentAt pos = some seg ∧ seg.publicPrefix = x := by
  induction positions with
  | nil => cases mem
  | cons seg1p rest ih =>
    cases rest with
    | nil =>
      rw [comparedFrom] at mem
      cases at1 : b.segmentAt seg1p with
      | none =>
        rw [at1] at mem
        cases mem
      | some seg1 =>
        rw [at1] at mem
        exact ⟨seg1p, List.mem_cons_self, seg1, at1, (List.mem_singleton.mp mem).symm⟩
    | cons seg2p rest =>
      rw [comparedFrom] at mem
      cases at1 : b.segmentAt seg1p with
      | none =>
        rw [at1] at mem
        cases mem
      | some seg1 =>
        cases at2 : b.segmentAt seg2p with
        | none =>
          rw [at1, at2] at mem
          cases mem
        | some seg2 =>
          rw [at1, at2] at mem
          have later : x ∈ b.comparedFrom beyond userPrefix (seg2p :: rest) →
              ∃ pos ∈ seg1p :: seg2p :: rest, ∃ seg, b.segmentAt pos = some seg ∧ seg.publicPrefix = x := by
            intro inside
            obtain ⟨pos, there, found⟩ := ih inside
            exact ⟨pos, List.mem_cons_of_mem _ there, found⟩
          cases List.mem_cons.mp mem with
          | inl first => exact ⟨seg1p, List.mem_cons_self, seg1, at1, first.symm⟩
          | inr mem =>
            split at mem
            · cases List.mem_cons.mp mem with
              | inl second =>
                exact ⟨seg2p, List.mem_cons_of_mem _ List.mem_cons_self, seg2, at2, second.symm⟩
              | inr mem =>
                split at mem
                · cases mem
                · exact later mem
            · exact later mem

/-- For any opened block: the lookup ends at the first comparison, or no special segment that it
compares the key with has a prefix that is shorter than the key. -/
theorem subspansInside_iff : b.SubspansInside beyond userPrefix ↔
    b.largerEqualThanFirst userPrefix = false ∨
      ∀ x ∈ b.compared beyond userPrefix, userPrefix.length ≤ x.length := by
  rw [SubspansInside, subspans, compared, ← subspansFrom_inside_iff]
  cases b.largerEqualThanFirst userPrefix with
  | false => exact iff_of_true (List.forall_mem_nil _) (.inl rfl)
  | true => rw [if_pos rfl, or_iff_right Bool.true_eq_false.mp]

/-- The special segments of an opened block can be parsed, and none has a shorter prefix than the
first one. -/
structure Ordered (b : RawBlock) : Prop where
  stand : ∀ pos ∈ b.specialSegs, ∃ seg, b.segmentAt pos = some seg ∧
    b.firstSegPublicPrefix.length ≤ seg.publicPrefix.length
  first : ∃ pos ∈ b.specialSegs.head?, ∀ seg ∈ b.segmentAt pos,
    seg.publicPrefix = b.firstSegPublicPrefix

/-- In an ordered block the first prefix is the shortest one, and it is compared with. -/
theorem Ordered.compared_iff (ordered : b.Ordered) (beyond userPrefix : ByteString) :
    (∀ x ∈ b.compared beyond userPrefix, userPrefix.length ≤ x.length) ↔
      userPrefix.length ≤ b.firstSegPublicPrefix.length := by
  obtain ⟨pos, head, first⟩ := ordered.first
  obtain ⟨later, specials⟩ := List.head?_eq_some_iff.mp head
  obtain ⟨seg, found, _⟩ := ordered.stand pos (specials ▸ List.mem_cons_self)
  have called : seg.publicPrefix ∈ b.compared beyond userPrefix := by
    rw [compared, specials]
    cases later with
    | nil =>
      rw [comparedFrom, found]
      exact List.mem_cons_self
    | cons next later =>
      obtain ⟨seg', found', _⟩ := ordered.stand next
        (specials ▸ List.mem_cons_of_mem _ List.mem_cons_self)
      rw [comparedFrom, found, found']
      exact List.mem_cons_self
  constructor
  · intro inside
    rw [← first seg found]
    exact inside _ called
  · intro short x mem
    obtain ⟨pos', there, seg', found', rfl⟩ := mem_comparedFrom mem
    obtain ⟨_, found'', longer⟩ := ordered.stand pos' there
    obtain rfl := Option.some.inj (found'.symm.trans found'')
    exact short.trans longer

end RawBlock

namespace Block

variable {x : Block} {storage : ByteString} {b : RawBlock}

/-- The keys of a block do not get shorter, also from where a wrapped count makes it start. -/
theorem ordered_of_parse (wf : x.Wf) (segmentsFit : ∀ seg ∈ x.segments, seg.Fits)
    (total : btlSize + (x.content.length + (wcSize + crc32Size)) ≤ maxBtl)
    (holds : Holds storage x.content) (opened : RawBlock.parse storage = some b) : b.Ordered := by
  obtain ⟨dropped, kept, sbsos, _, few, metaData⟩ := x.content_split
  cases kept with
  | nil =>
    rw [metaData, List.flatMap_nil, List.append_nil] at holds
    rw [holds.parse_zero] at opened
    cases opened
  | cons pos later =>
    obtain ⟨front, seg, back, more, segments, _, _, rest, at_pos, found⟩ :=
      parse_of_split segmentsFit total holds sbsos few metaData
    have same := Option.some.inj (found.symm.trans opened)
    have stored : b.storage = storage := same ▸ rfl
    have specials : b.specialSegs = pos :: later := same ▸ rfl
    have firstPrefix : b.firstSegPublicPrefix = seg.userKey.serialize := same ▸ rfl
    have fit : ∀ y ∈ seg :: back, y.Fits := fun y mem =>
      segmentsFit y (segments ▸ List.mem_append_right front mem)
    have ascending := wf.ascending
    rw [segments, List.pairwise_append, List.pairwise_cons] at ascending
    rw [List.flatMap_cons, List.append_assoc] at at_pos
    have behind : storage.drop (pos + seg.bytes.length) = back.flatMap BlockSegment.bytes ++
        (dropped.flatMap (encodeBigEndian sbsoSize) ++ more) := by
      rw [← List.drop_drop, at_pos, List.drop_left]
    have parsed : ∀ {y : BlockSegment} {q : Nat} {tail : ByteString}, y ∈ seg :: back →
        storage.drop q = y.bytes ++ tail → b.segmentAt q = some (.success y.raw) :=
      fun mem dropped => (segmentAt_of_drop b (fit _ mem) (stored ▸ dropped) []).1
    have here := parsed List.mem_cons_self at_pos
    constructor
    · intro q mem
      rw [specials] at mem
      rw [firstPrefix]
      cases List.mem_cons.mp mem with
      | inl eq => exact ⟨_, eq ▸ here, le_rfl⟩
      | inr later_mem =>
        rw [rest] at later_mem
        obtain ⟨y, there, tail, dropped⟩ := segment_of_mem_specialOffsets behind later_mem
        refine ⟨_, parsed (List.mem_cons_of_mem _ there) dropped, ?_⟩
        change seg.userKey.serialize.length ≤ y.userKey.serialize.length
        have less := UserKey.lt_iff.mp (ascending.2.1.1 y there)
        rw [UserKey.serialize_length, UserKey.serialize_length]
        omega
    · refine ⟨pos, by rw [specials]; rfl, ?_⟩
      intro seg' found
      obtain rfl := Option.some.inj (here.symm.trans found)
      exact firstPrefix.symm

end Block

namespace RawBlock

open RawSstable

variable {d : TableDeps} {written : Option CompressorPolicy} {reader : CompressorPolicy}
  {es : List KvEntry} {r : RawBlockBuilder} {storage : ByteString} {b : RawBlock}

/-- A stored block that can be opened is ordered. -/
theorem ordered_of_openBlock (encodable : ∀ e ∈ es, e.Encodable)
    (accepted : RawBlockBuilder.fresh.addAll d.opt.toOptions es = some r)
    (finished : r.finish d.opt written d.crc32c = some storage)
    (inverts : d.opt.needCompress = true → ∀ writer, written = some writer → reader.Inverts writer)
    (opened : openBlock d reader storage = some b) : b.Ordered := by
  obtain ⟨builder, added, stores⟩ := BlockBuilder.stores_of_accepted encodable accepted
  obtain ⟨started, small, stored⟩ : r.publicPrefix ≠ none ∧
      (storeContent d.opt written d.crc32c r.content).length ≤ maxBtl ∧
      storeContent d.opt written d.crc32c r.content = storage := by
    rw [RawBlockBuilder.finish] at finished
    split at finished
    · cases finished
    · rename_i started
      obtain ⟨small, stored⟩ := Option.ite_none_right_eq_some.mp finished
      exact ⟨started, small, Option.some.inj stored⟩
  rw [BlockBuilder.content_of_stores stores started] at small stored
  have inv := (BlockBuilder.addAll_inv BlockBuilder.fresh_inv rfl added).1
  have nonempty : builder.entries ≠ [] := by
    intro empty
    rw [← BlockBuilder.isEmpty_iff inv] at empty
    rw [stores.publicPrefix] at started
    exact started (Option.map_eq_none_iff.mpr (Option.isNone_iff_eq_none.mp empty))
  have wf := BlockBuilder.finish_wf inv nonempty
  have encodable := BlockBuilder.encodable_of_addAll added encodable
  by_cases total : btlSize + (builder.finish.content.length + (wcSize + crc32Size)) ≤ maxBtl
  · obtain ⟨again, parsed, holds⟩ := openBlock_stored small inverts total
    rw [← stored, parsed] at opened
    exact Block.ordered_of_parse wf (Block.segments_fit wf.items encodable total) total holds opened
  · rw [← stored, openBlock_long small inverts (by omega)] at opened
    cases opened

end RawBlock

end FrenzyKV
