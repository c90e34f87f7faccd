import FrenzyKV.Persistent.BlockParse

/-! The lookup on the bytes of a block finds what the lookup on its segments finds
(`persistent/block.cc`). -/

namespace FrenzyKV

open Bytes

namespace UserKey

variable {k uk : UserKey}

/-- A prefix is compared as far as the searched key is long; its length field decides first. -/
theorem memcmpComparator_take (shortKey : k.size < 2 ^ 16) (short : uk.size < 2 ^ 16) :
    memcmpComparator uk.serialize (k.serialize.take uk.serialize.length) =
      if uk < k then .lt else if k < uk then .gt else .eq := by
  have length := serialize_length k
  have length' := serialize_length uk
  rcases lt_trichotomy uk k with less | same | greater
  · rw [if_pos less]
    apply memcmpComparator_of_lt
    by_cases longer : uk.size < k.size
    · have width := encodeBigEndian_length userKeyLengthBytesSize k.size
      have cut : k.serialize.take uk.serialize.length =
          encodeBigEndian userKeyLengthBytesSize k.size ++ k.bytes.take uk.size := by
        rw [length', serialize, List.take_append, width, Nat.add_sub_cancel_left,
          List.take_of_length_le (by omega)]
      rw [cut, serialize]
      apply append_lt_append
      · rw [encodeBigEndian_length, encodeBigEndian_length]
      · apply encodeBigEndian_lt
        change uk.size % 2 ^ 16 < k.size % 2 ^ 16
        omega
    · rw [List.take_of_length_le (by omega)]
      exact serialize_lt less shortKey
  · rw [same, if_neg (lt_irrefl k), if_neg (lt_irrefl k), List.take_length, memcmpComparator_self]
  · have shorter : k.size ≤ uk.size := by
      have cases := lt_iff.mp greater
      omega
    rw [if_neg greater.asymm, if_pos greater, List.take_of_length_le (by omega)]
    exact memcmpComparator_serialize_of_gt greater short

theorem largerEqual_serialize (shortKey : k.size < 2 ^ 16) (short : uk.size < 2 ^ 16) :
    RawSegment.largerEqualThanPublicPrefix uk.serialize k.serialize = decide (k ≤ uk) := by
  rw [RawSegment.largerEqualThanPublicPrefix, memcmpComparator_take shortKey short]
  rcases lt_trichotomy uk k with less | same | greater
  · simp [less, less.not_ge]
  · simp [same]
  · simp [greater, greater.asymm, greater.le]

theorem less_serialize (shortKey : k.size < 2 ^ 16) (short : uk.size < 2 ^ 16) :
    RawSegment.lessThanPublicPrefix uk.serialize k.serialize = decide (uk < k) := by
  rw [RawSegment.lessThanPublicPrefix, memcmpComparator_take shortKey short]
  rcases lt_trichotomy uk k with less | same | greater
  · simp [less]
  · simp [same]
  · simp [greater, greater.asymm]

theorem fit_serialize (shortKey : k.size < 2 ^ 16) (short : uk.size < 2 ^ 16) :
    RawSegment.fitPublicPrefix uk.serialize k.serialize = decide (k = uk) := by
  rw [RawSegment.fitPublicPrefix, memcmpComparator_take shortKey short]
  rcases lt_trichotomy uk k with less | same | greater
  · simp [less, less.ne']
  · simp [same]
  · simp [greater, greater.asymm, greater.ne]

theorem memcmpComparator_serialize (shortKey : k.size < 2 ^ 16) (short : uk.size < 2 ^ 16) :
    memcmpComparator uk.serialize k.serialize =
      if uk < k then .lt else if k < uk then .gt else .eq := by
  rcases lt_trichotomy uk k with less | same | greater
  · rw [if_pos less, memcmpComparator_serialize_of_lt less shortKey]
  · rw [same, if_neg (lt_irrefl k), if_neg (lt_irrefl k), memcmpComparator_self]
  · rw [if_neg greater.asymm, if_pos greater, memcmpComparator_serialize_of_gt greater short]

end UserKey

namespace BlockSegment

/-- A run from one special segment up to the next. -/
def IsRun (run : List BlockSegment) : Prop :=
  ∃ first others, run = first :: others ∧ first.special = true ∧ ∀ seg ∈ others, seg.special = false

theorem not_special_of_isChain {first : BlockSegment} {others : List BlockSegment}
    (chain : (first :: others).IsChain fun _ next => (!next.special) = true) :
    ∀ seg ∈ others, seg.special = false := by
  induction others generalizing first with
  | nil =>
    intro seg mem
    cases mem
  | cons next others ih =>
    obtain ⟨head, tail⟩ := List.isChain_cons_cons.mp chain
    intro seg mem
    cases List.mem_cons.mp mem with
    | inl eq => simpa [eq] using head
    | inr mem => exact ih tail seg mem

theorem special_heads {runs : List (List BlockSegment)}
    (chain : runs.IsChain fun _ next => next.head?.all (·.special) = true)
    (first : ∀ run ∈ runs.head?, run.head?.all (·.special) = true) :
    ∀ run ∈ runs, run.head?.all (·.special) = true := by
  induction runs with
  | nil =>
    intro run mem
    cases mem
  | cons run runs ih =>
    intro x mem
    cases List.mem_cons.mp mem with
    | inl eq => exact eq ▸ first run rfl
    | inr mem =>
      refine ih chain.tail (fun next at_head => ?_) x mem
      cases runs with
      | nil => cases at_head
      | cons next' rest =>
        obtain rfl : next' = next := Option.some.inj at_head
        exact (List.isChain_cons_cons.mp chain).1

/-- Special segments are where the runs begin. -/
theorem specialOffsets_run {run : List BlockSegment} (isRun : IsRun run) (offset : Nat)
    (later : List BlockSegment) : specialOffsets offset (run ++ later) =
      offset :: specialOffsets (offset + (run.flatMap bytes).length) later := by
  obtain ⟨first, others, rfl, special, plain⟩ := isRun
  have none_inside : ∀ o, specialOffsets o others = [] := by
    induction others with
    | nil => intro o; rfl
    | cons seg others ih =>
      intro o
      rw [specialOffsets, plain seg List.mem_cons_self, ih fun x mem => plain x (List.mem_cons_of_mem _ mem)]
      rfl
  rw [specialOffsets_append, specialOffsets, if_pos special, none_inside]
  rfl

end BlockSegment

namespace Block

variable {b : Block}

theorem intervals_isRun (special : b.segments.head?.all (·.special) = true) :
    ∀ run ∈ b.intervals, BlockSegment.IsRun run := by
  have chain : b.intervals.IsChain fun _ next => next.head?.all (·.special) = true := by
    refine (List.isChain_getLast_head_splitBy _ b.segments).imp fun a next starts => ?_
    obtain ⟨_, present, head⟩ := starts
    rw [List.head?_eq_some_head present]
    simpa using head
  have first : ∀ run ∈ b.intervals.head?, run.head?.all (·.special) = true := by
    intro run at_head
    have present : b.intervals ≠ [] := by
      intro empty
      rw [empty] at at_head
      cases at_head
    have segments : b.segments ≠ [] := List.splitBy_ne_nil.mp present
    have same := List.head_head_splitBy (fun _ next : BlockSegment => !next.special) segments
    rw [List.head?_eq_some_head present] at at_head
    obtain rfl := Option.some.inj at_head
    rw [List.head?_eq_some_head segments, ← same] at special
    rw [List.head?_eq_some_head (List.ne_nil_of_mem_splitBy (List.head_mem present))]
    exact special
  have heads := BlockSegment.special_heads chain first
  intro run mem
  obtain ⟨first, others, rfl⟩ := List.exists_cons_of_ne_nil (List.ne_nil_of_mem_splitBy mem)
  exact ⟨first, others, rfl, heads _ mem,
    BlockSegment.not_special_of_isChain (List.isChain_of_mem_splitBy mem)⟩

end Block

namespace RawBlock

variable {raw : RawBlock} {uk : UserKey} {front rest : ByteString} {run : List BlockSegment}

theorem largerEqualThanFirst_serialize {k : UserKey} (first : raw.firstSegPublicPrefix = k.serialize)
    (shortKey : k.size < 2 ^ 16) (short : uk.size < 2 ^ 16) :
    raw.largerEqualThanFirst uk.serialize = decide (k ≤ uk) := by
  rw [largerEqualThanFirst, first, UserKey.memcmpComparator_serialize shortKey short]
  rcases lt_trichotomy uk k with less | same | greater
  · simp [less, less.not_ge]
  · simp [same]
  · simp [greater, greater.asymm, greater.le]

theorem lessThanFirst_serialize {k : UserKey} (first : raw.firstSegPublicPrefix = k.serialize)
    (shortKey : k.size < 2 ^ 16) (short : uk.size < 2 ^ 16) :
    raw.lessThanFirst uk.serialize = decide (uk < k) := by
  rw [lessThanFirst, first, UserKey.memcmpComparator_serialize shortKey short]
  rcases lt_trichotomy uk k with less | same | greater
  · simp [less]
  · simp [same]
  · simp [greater, greater.asymm]

/-- What lies between two special segments is searched as the run of its segments. -/
theorem findFit_run (storage : raw.storage = front ++ (run.flatMap BlockSegment.bytes ++ rest))
    (fits : ∀ seg ∈ run, seg.Fits) (short : uk.size < 2 ^ 16) {sentinel : Nat}
    (last : sentinel = front.length + (run.flatMap BlockSegment.bytes).length) :
    raw.findFit uk.serialize front.length sentinel =
      some ((run.find? (·.userKey = uk)).map BlockSegment.raw) := by
  have room : sentinel - front.length = (run.flatMap BlockSegment.bytes).length := by omega
  have interval : segmentsInSingleInterval raw.storage front.length sentinel =
      (run.map BlockSegment.raw, true) := by
    rw [segmentsInSingleInterval, storage, List.drop_left, room, walkSegments_bytes true fits]
  have found : (run.map BlockSegment.raw).find? (fun seg =>
      RawSegment.fitPublicPrefix uk.serialize seg.publicPrefix) =
        (run.find? (·.userKey = uk)).map BlockSegment.raw := by
    clear storage last room interval
    induction run with
    | nil => rfl
    | cons seg run ih =>
      have shortKey : seg.userKey.size < 2 ^ 16 := by
        have := (fits seg List.mem_cons_self).key
        omega
      have fit : RawSegment.fitPublicPrefix uk.serialize seg.raw.publicPrefix =
          decide (seg.userKey = uk) := UserKey.fit_serialize shortKey short
      rw [List.map_cons, List.find?_cons, List.find?_cons, fit,
        ih fun x mem => fits x (List.mem_cons_of_mem _ mem)]
      cases decide (seg.userKey = uk) with
      | true => rfl
      | false => rfl
  rw [findFit]
  simp only [interval, found, if_true]
  cases run.find? (·.userKey = uk) with
  | none => rfl
  | some seg => rfl

/-- The segment that a special segment pointer points at. -/
theorem segmentAt_first {seg : BlockSegment} (storage : raw.storage = front ++ (seg.bytes ++ rest))
    (fits : seg.Fits) : raw.segmentAt front.length = some (.success seg.raw) := by
  have room : seg.bytes.length ≤ raw.storage.length - front.length := by
    rw [storage, List.length_append, List.length_append]
    omega
  rw [segmentAt, storage, List.drop_left]
  rw [storage] at room
  exact BlockSegment.parse_bytes fits rest room

/-- What the walk compares with at the beginning of a run. -/
theorem opening_run {run : List BlockSegment} (isRun : BlockSegment.IsRun run) (fits : ∀ seg ∈ run, seg.Fits)
    (short : uk.size < 2 ^ 16) (storage : raw.storage = front ++ (run.flatMap BlockSegment.bytes ++ rest)) :
    ∃ seg : BlockSegment, raw.segmentAt front.length = some (.success seg.raw) ∧
      RawSegment.largerEqualThanPublicPrefix uk.serialize seg.raw.publicPrefix = Block.startsAtOrBefore run uk ∧
      RawSegment.lessThanPublicPrefix uk.serialize seg.raw.publicPrefix = Block.startsAfter run uk := by
  obtain ⟨first, others, rfl, _⟩ := isRun
  have fit := fits first List.mem_cons_self
  have shortKey : first.userKey.size < 2 ^ 16 := by
    have := fit.key
    omega
  rw [List.flatMap_cons, List.append_assoc] at storage
  exact ⟨first, segmentAt_first storage fit, UserKey.largerEqual_serialize shortKey short,
    UserKey.less_serialize shortKey short⟩

/-- The walk over adjacent special segments is the walk over adjacent runs. -/
theorem getFrom_runs {runs : List (List BlockSegment)} (some_run : runs ≠ [])
    (isRuns : ∀ run ∈ runs, BlockSegment.IsRun run) (fits : ∀ seg ∈ runs.flatten, seg.Fits)
    (short : uk.size < 2 ^ 16)
    (storage : raw.storage = front ++ (runs.flatten.flatMap BlockSegment.bytes ++ rest))
    (last : raw.metaDataBeg = front.length + (runs.flatten.flatMap BlockSegment.bytes).length) :
    raw.getFrom uk.serialize (BlockSegment.specialOffsets front.length runs.flatten) =
      some ((Block.getFrom uk runs).map BlockSegment.raw) := by
  induction runs generalizing front with
  | nil => exact absurd rfl some_run
  | cons run runs ih =>
    have isRun := isRuns run List.mem_cons_self
    have fitsRun : ∀ seg ∈ run, seg.Fits := fun seg mem => fits seg (List.mem_append_left _ mem)
    have here : raw.storage = front ++ (run.flatMap BlockSegment.bytes ++
        (runs.flatten.flatMap BlockSegment.bytes ++ rest)) := by
      rw [storage, List.flatten_cons, List.flatMap_append, List.append_assoc]
    have there : raw.storage = (front ++ run.flatMap BlockSegment.bytes) ++
        (runs.flatten.flatMap BlockSegment.bytes ++ rest) := by
      rw [here, List.append_assoc]
    obtain ⟨seg1, at1, early, _⟩ := opening_run isRun fitsRun short here
    rw [List.flatten_cons, BlockSegment.specialOffsets_run isRun]
    rw [List.flatten_cons, List.flatMap_append, List.length_append] at last
    cases runs with
    | nil =>
      have end_here : raw.metaDataBeg = front.length + (run.flatMap BlockSegment.bytes).length := last
      have found := findFit_run here fitsRun short end_here
      change raw.getFrom uk.serialize [front.length] = _
      rw [getFrom, at1, Option.bind_some, Block.getFrom]
      change (if RawSegment.largerEqualThanPublicPrefix uk.serialize seg1.raw.publicPrefix then _ else _) = _
      rw [early]
      cases Block.startsAtOrBefore run uk with
      | true => exact found
      | false => rfl
    | cons next runs =>
      have isNext := isRuns next (List.mem_cons_of_mem _ List.mem_cons_self)
      have fitsLater : ∀ seg ∈ (next :: runs).flatten, seg.Fits :=
        fun seg mem => fits seg (List.mem_append_right _ mem)
      have atNext : raw.storage = (front ++ run.flatMap BlockSegment.bytes) ++
          (next.flatMap BlockSegment.bytes ++ (runs.flatten.flatMap BlockSegment.bytes ++ rest)) := by
        rw [there, List.flatten_cons, List.flatMap_append, List.append_assoc (next.flatMap _)]
      obtain ⟨seg2, at2, _, late⟩ := opening_run isNext
        (fun seg mem => fitsLater seg (List.mem_append_left _ mem)) short atNext
      have later := ih (List.cons_ne_nil _ _)
        (fun x mem => isRuns x (List.mem_cons_of_mem _ mem)) fitsLater there
        (by rw [last, List.length_append, Nat.add_assoc])
      have position : (front ++ run.flatMap BlockSegment.bytes).length =
          front.length + (run.flatMap BlockSegment.bytes).length := List.length_append
      have found := findFit_run here fitsRun short position
      rw [← position]
      rw [List.flatten_cons, BlockSegment.specialOffsets_run isNext] at later ⊢
      rw [getFrom, at1, Option.bind_some, at2, Option.bind_some, found, later, Block.getFrom]
      simp only [SegmentResult.publicPrefix, early, late]
      cases Block.startsAtOrBefore run uk && Block.startsAfter next uk with
      | false => rfl
      | true =>
        simp only [if_true, Option.bind_some]
        cases run.find? (·.userKey = uk) with
        | none => rfl
        | some seg => rfl

end RawBlock

namespace Block

variable {b : Block} {storage : ByteString} {uk : UserKey}

/-- The lookup in the bytes of a block is the lookup in its segments. -/
theorem get_of_holds (fits : b.Fits) (holds : BlockStorage.Holds storage b.content)
    (short : uk.size < 2 ^ 16) :
    (b.parsed storage).get uk.serialize = some ((b.get uk).map BlockSegment.raw) := by
  obtain ⟨first, later, segments, special⟩ := fits.first
  obtain ⟨tail, _, layout⟩ := holds.layout
  let front := encodeBigEndian btlSize (btlSize + (b.content.length + (wcSize + crc32Size)))
  have width : front.length = btlSize := encodeBigEndian_length _ _
  have runs : b.intervals.flatten = b.segments := flatten_intervals b
  have someRun : b.intervals ≠ [] := List.splitBy_ne_nil.mpr (by rw [segments]; exact List.cons_ne_nil _ _)
  have isRuns : ∀ run ∈ b.intervals, BlockSegment.IsRun run :=
    intervals_isRun (by rw [segments]; exact special)
  have shortFirst : first.userKey.size < 2 ^ 16 := by
    have := (fits.segments first (segments ▸ List.mem_cons_self)).key
    omega
  have inside : b.content ++ tail = b.segments.flatMap BlockSegment.bytes ++
      (b.sbsos.flatMap (encodeBigEndian sbsoSize) ++ encodeBigEndian nsbsSize b.sbsos.length ++ tail) := by
    rw [content, data, List.append_assoc]
  have there : (b.parsed storage).storage = front ++ (b.intervals.flatten.flatMap BlockSegment.bytes ++
      (b.sbsos.flatMap (encodeBigEndian sbsoSize) ++ encodeBigEndian nsbsSize b.sbsos.length ++ tail)) := by
    rw [runs, ← inside]
    exact layout
  have walk := RawBlock.getFrom_runs someRun isRuns (runs ▸ fits.segments) short there
    (by rw [runs, parsed, width, data])
  rw [runs, width, ← sbsos_eq fits.total] at walk
  have prefix_first : (b.parsed storage).firstSegPublicPrefix = first.userKey.serialize := by
    rw [parsed, segments]
    rfl
  have starts : (b.parsed storage).largerEqualThanFirst uk.serialize = startsAtOrBefore b.segments uk := by
    rw [RawBlock.largerEqualThanFirst_serialize prefix_first shortFirst short, segments]
    rfl
  rw [RawBlock.get, starts, get]
  cases startsAtOrBefore b.segments uk with
  | true => exact walk
  | false => rfl

end Block

end FrenzyKV
