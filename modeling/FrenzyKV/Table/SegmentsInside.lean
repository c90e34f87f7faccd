import FrenzyKV.Table.SstableOpening

/-! The segments of a block that can be read without leaving it (`persistent/block.cc`, `table/sstable.cc`). -/

namespace FrenzyKV

open Bytes Framework Framework.Checked Relation

namespace Opening

section Layout

variable (storage : ByteString) (sentinel : Nat)

/-- The length of the public prefix of a segment at `p`. -/
def ppl (p : Nat) : Nat := numberAt bsPpl p storage

/-- The length of an item at `p`, or zero behind the last one. -/
def ril (p : Nat) : Nat := numberAt bsRil p storage

def publicPrefix (p : Nat) : ByteString := Extent.bytes storage ⟨p + bsPpl, ppl storage p⟩

/-- Where the items of a segment at `p` begin. -/
def firstItem (p : Nat) : Nat := p + bsPpl + ppl storage p

/-- There is an item at `p`, and `q` is behind it. -/
def ItemHop (p q : Nat) : Prop := p < sentinel ∧ ril storage p ≠ 0 ∧ q = p + bsRil + ril storage p

/-- The items from `p` on, one behind another, and the length field behind the last one stand in the block. -/
def ItemsInside (p : Nat) : Prop := ∀ q, ReflTransGen (ItemHop storage sentinel) p q →
  (q ≤ sentinel → q + bsRil ≤ storage.length) ∧ (q < sentinel → q + bsRil + ril storage q ≤ storage.length)

def ItemsEnd (p last : Nat) : Prop :=
  ReflTransGen (ItemHop storage sentinel) p last ∧ (sentinel ≤ last ∨ ril storage last = 0)

/-- A segment at `p` stands in the block. -/
def SegmentInside (p : Nat) : Prop :=
  p + bsPpl ≤ storage.length ∧
    (ppl storage p ≠ 0 → firstItem storage p ≤ storage.length ∧ ItemsInside storage sentinel (firstItem storage p))

/-- A segment at `p` is complete before the sentinel, and `q` is behind it. -/
def SegmentEnds (p q : Nat) : Prop :=
  ppl storage p ≠ 0 ∧ ∃ last, ItemsEnd storage sentinel (firstItem storage p) last ∧ last ≤ sentinel ∧
    q = if ril storage last = 0 then last + bsRil else sentinel

def recordKeys : List UserKey := [MetaBlock.bloomFilterKey, MetaBlock.lastUkKey, MetaBlock.firstUkKey]

def IsRecord (p : Nat) : Prop := ∃ key ∈ recordKeys, publicPrefix storage p = key.serialize

/-- The length of the value in the first item of a segment at `p`. -/
def valueLen (p : Nat) : Nat :=
  numberAt userValueLengthBytesSize (firstItem storage p + bsRil + seqBytesSize) storage

/-- A record at `p` has an item with room for a number, and its value stands in the block. -/
def RecordInside (p : Nat) : Prop :=
  let item := firstItem storage p
  (item < sentinel ∧ ril storage item ≠ 0) ∧ seqBytesSize ≤ ril storage item ∧
    (ril storage item ≠ seqBytesSize →
      item + bsRil + seqBytesSize + userValueLengthBytesSize + valueLen storage p ≤ storage.length)

/-- The value of a record at `p` is not a tombstone. -/
def RecordReads (p : Nat) : Prop := ril storage (firstItem storage p) ≠ seqBytesSize ∧ valueLen storage p ≠ 0

/-- The loop over the segments goes on from a segment at `p` to `q`. -/
def SegmentHop (p q : Nat) : Prop :=
  p < sentinel ∧ SegmentEnds storage sentinel p q ∧ (IsRecord storage p → RecordReads storage p)

/-- The segments from `p` on, and the values of the records among them, stand in the block. -/
def SegmentsInside (p : Nat) : Prop := ∀ q, ReflTransGen (SegmentHop storage sentinel) p q → q < sentinel →
  SegmentInside storage sentinel q ∧
    ((∃ next, SegmentEnds storage sentinel q next) → IsRecord storage q → RecordInside storage sentinel q)

/-- The loop over the segments from `p` on ends at `last`, which may have an incomplete segment. -/
def SegmentsEnd (p last : Nat) : Prop := ReflTransGen (SegmentHop storage sentinel) p last ∧
  (sentinel ≤ last ∨ (ppl storage last ≠ 0 ∧ ¬ ∃ next, SegmentEnds storage sentinel last next))

/-- The loop over the segments from `p` on reads the record of a key. -/
def Finds (p : Nat) (key : UserKey) : Prop := ∃ q next, ReflTransGen (SegmentHop storage sentinel) p q ∧
  SegmentHop storage sentinel q next ∧ publicPrefix storage q = key.serialize

end Layout

section Items

variable {storage : ByteString} {sentinel p q : Nat}

/-- What the loop over the items needs at one place. -/
def ItemInside (storage : ByteString) (sentinel p : Nat) : Prop :=
  p < sentinel → p + bsRil ≤ storage.length ∧ (ril storage p ≠ 0 → p + bsRil + ril storage p ≤ storage.length)

theorem inside_itemStep_iff : (itemStep storage sentinel p).Inside ↔ ItemInside storage sentinel p := by
  simp only [itemStep, inside_ite, inside_pure, inside_readAt_bind, inside_require_bind, implies_true, true_and,
    and_true, Nat.not_le]
  rfl

theorem itemHop_iff_hops (inside : ItemInside storage sentinel p) :
    ItemHop storage sentinel p q ↔ ∃ q', Hops (itemStep storage sentinel) p q' ∧ q' = q := by
  rw [exists_eq_right, hops_itemStep_iff]
  constructor
  · rintro ⟨before, item, eq⟩
    obtain ⟨field, body⟩ := inside before
    exact ⟨before, field, item, body item, eq⟩
  · rintro ⟨before, _, item, _, eq⟩
    exact ⟨before, item, eq⟩

theorem itemHop_of_hops (hops : Hops (itemStep storage sentinel) p q) : ItemHop storage sentinel p q := by
  obtain ⟨before, _, item, _, eq⟩ := (hops_itemStep_iff storage).mp hops
  exact ⟨before, item, eq⟩

theorem itemStep_eq_none_iff (inside : ItemInside storage sentinel p) :
    itemStep storage sentinel p = .ok none ↔ sentinel ≤ p ∨ ril storage p = 0 := by
  by_cases ended : sentinel ≤ p
  · exact iff_of_true (if_pos ended) (.inl ended)
  · have field := (inside (Nat.not_le.mp ended)).1
    rw [or_iff_right ended, itemStep, if_neg ended, readAt_bind_eq_ok_iff, and_iff_right field]
    by_cases zero : ril storage p = 0
    · exact iff_of_true (if_pos zero) zero
    · refine iff_of_false ?_ zero
      change ¬ (if ril storage p = 0 then _ else _) = _
      rw [if_neg zero, require_bind_eq_ok_iff]
      rintro ⟨_, taken⟩
      cases taken

theorem ItemsInside.item (inside : ItemsInside storage sentinel p) {q : Nat}
    (reached : ReflTransGen (ItemHop storage sentinel) p q) : ItemInside storage sentinel q := by
  intro before
  have body := (inside q reached).2 before
  exact ⟨by omega, fun _ => body⟩

/-- Where all items are inside, the walk over them ends where they end. -/
theorem parseItems_iff (inside : ∀ q, ReflTransGen (ItemHop storage sentinel) p q → ItemInside storage sentinel q)
    (last : Nat) : (∃ items, parseItems storage sentinel p = .ok (items, last)) ↔ ItemsEnd storage sentinel p last := by
  constructor
  · rintro ⟨items, walked⟩
    obtain ⟨reached, ends⟩ := reached_of_walk walked
    have there := ReflTransGen.mono (fun _ _ => itemHop_of_hops) _ _ reached
    exact ⟨there, (itemStep_eq_none_iff (inside last there)).mp ends⟩
  · rintro ⟨reached, ends⟩
    have all := (forall_reached_iff (fun a b => itemHop_iff_hops) p).mpr inside
    obtain ⟨last', reached', rfl⟩ := reached_place (fun a b => itemHop_iff_hops) all reached
    exact walk_of_reached reached' ((itemStep_eq_none_iff (inside last' reached)).mpr ends)

/-- The loop over the items, and the read of the field behind it, stay in the block. -/
theorem itemsInside_iff : ItemsInside storage sentinel p ↔ (parseItems storage sentinel p).Inside ∧
    ∀ items last, parseItems storage sentinel p = .ok (items, last) → last ≤ sentinel →
      last + bsRil ≤ storage.length := by
  have walks : (parseItems storage sentinel p).Inside ↔
      ∀ q, ReflTransGen (ItemHop storage sentinel) p q → ItemInside storage sentinel q := by
    rw [parseItems, inside_walk_iff, ← forall_reached_iff (fun a b => itemHop_iff_hops) p]
    exact forall₂_congr fun q _ => inside_itemStep_iff
  rw [walks]
  constructor
  · intro inside
    refine ⟨fun q reached => inside.item reached, fun items last walked before => ?_⟩
    have ends := (parseItems_iff (fun q reached => inside.item reached) last).mp ⟨items, walked⟩
    exact (inside last ends.1).1 before
  · rintro ⟨inside, ends⟩ q reached
    have here := inside q reached
    constructor
    · intro before
      rcases Nat.lt_or_eq_of_le before with less | same
      · exact (here less).1
      · obtain ⟨items, walked⟩ := (parseItems_iff inside q).mpr ⟨reached, .inl same.ge⟩
        exact ends items q walked before
    · intro less
      obtain ⟨field, body⟩ := here less
      by_cases zero : ril storage q = 0
      · omega
      · exact body zero

theorem parseItems_ne_report (error : OpenError) : parseItems storage sentinel p ≠ report error := by
  intro reports
  obtain ⟨q, _, fails⟩ := reached_of_walk_error reports
  rw [itemStep] at fails
  split at fails
  · cases fails
  · rw [readAt, bind_assoc, require] at fails
    split at fails
    · change (if ril storage q = 0 then pure none else _) = _ at fails
      split at fails
      · cases fails
      · rw [require] at fails
        split at fails
        · cases fails
        · cases fails
    · cases fails

/-- The first item is the one at the beginning, if there is one. -/
theorem head_of_parseItems {items : List Extent} {last : Nat}
    (walked : parseItems storage sentinel p = .ok (items, last)) :
    (p < sentinel ∧ ril storage p ≠ 0 ∧ ∃ later, items = ⟨p + bsRil, ril storage p⟩ :: later) ∨
      (¬ (p < sentinel ∧ ril storage p ≠ 0) ∧ items = []) := by
  cases step : itemStep storage sentinel p with
  | error e =>
    rw [parseItems, walk_of_error step] at walked
    cases walked
  | ok next =>
    cases next with
    | none =>
      rw [parseItems, walk_of_none step] at walked
      obtain ⟨rfl, rfl⟩ := Prod.mk.inj (Except.ok.inj walked)
      refine .inr ⟨fun both => ?_, rfl⟩
      have inside : ItemInside storage sentinel p := by
        rw [← inside_itemStep_iff, step]
        exact inside_ok _
      rcases (itemStep_eq_none_iff inside).mp step with ended | zero
      · exact both.1.not_ge ended
      · exact both.2 zero
    | some taken =>
      obtain ⟨item, next⟩ := taken
      obtain ⟨before, _, present, _, rfl, _⟩ := (itemStep_eq_some_iff storage).mp step
      rw [parseItems, walk_of_some step] at walked
      cases later : parseItems storage sentinel next with
      | error e =>
        rw [← parseItems, later] at walked
        cases walked
      | ok rest =>
        rw [← parseItems, later] at walked
        obtain ⟨rfl, rfl⟩ := Prod.mk.inj (Except.ok.inj walked)
        exact .inl ⟨before, present, rest.1, rfl⟩

end Items

section Segments

variable {storage : ByteString} {sentinel p q : Nat} {seg : PlacedSegment} {fields : MetaBlock.Fields}

theorem inside_parseSegment_iff :
    (parseSegment storage sentinel p).Inside ↔ SegmentInside storage sentinel p := by
  rw [parseSegment, inside_readAt_bind, SegmentInside, inside_ite, inside_require_bind, inside_bind_iff,
    itemsInside_iff]
  refine and_congr_right fun _ => (and_iff_right fun _ => inside_report _).trans ?_
  refine imp_congr_right fun _ => and_congr_right fun _ => and_congr_right fun _ => ?_
  rw [Prod.forall]
  refine forall₂_congr fun items last => imp_congr_right fun _ => ?_
  rw [inside_ite, inside_readAt_bind, and_iff_left (inside_pure _), and_iff_right fun _ => inside_pure _, Nat.not_lt]

theorem publicPrefix_of_parsed (parsed : parseSegment storage sentinel p = .ok (some seg)) :
    seg.publicPrefix.bytes storage = publicPrefix storage p := by
  obtain ⟨_, _, _, items, last, _, _, _, rfl⟩ := (parseSegment_eq_some_iff storage).mp parsed
  rfl

/-- A segment that stands in the block is parsed exactly if it is complete. -/
theorem segmentEnds_iff (inside : SegmentInside storage sentinel p) :
    SegmentEnds storage sentinel p q ↔ ∃ seg, parseSegment storage sentinel p = .ok (some seg) ∧ seg.stop = q := by
  obtain ⟨field, later⟩ := inside
  constructor
  · rintro ⟨present, last, ends, before, rfl⟩
    obtain ⟨room, items_inside⟩ := later present
    obtain ⟨items, walked⟩ :=
      (parseItems_iff (fun q reached => items_inside.item reached) last).mpr ends
    have behind := (items_inside last ends.1).1 before
    exact ⟨_, (parseSegment_eq_some_iff storage).mpr
      ⟨field, present, room, items, last, walked, before, behind, rfl⟩, rfl⟩
  · rintro ⟨seg, parsed, rfl⟩
    obtain ⟨_, present, room, items, last, walked, before, _, rfl⟩ :=
      (parseSegment_eq_some_iff storage).mp parsed
    have items_inside := (later present).2
    exact ⟨present, last, (parseItems_iff (fun q reached => items_inside.item reached) last).mp ⟨items, walked⟩,
      before, rfl⟩

/-- A segment that stands in the block is parsed as an incomplete one exactly if it is one. -/
theorem parseSegment_eq_none_iff (inside : SegmentInside storage sentinel p) :
    parseSegment storage sentinel p = .ok none ↔
      ppl storage p ≠ 0 ∧ ¬ ∃ q, SegmentEnds storage sentinel p q := by
  constructor
  · intro parsed
    constructor
    · intro zero
      rw [ppl] at zero
      rw [parseSegment, readAt_bind_eq_ok_iff, if_pos zero] at parsed
      exact not_report_eq_ok parsed.2
    · rintro ⟨q, ends⟩
      obtain ⟨seg, parsed', _⟩ := (segmentEnds_iff inside).mp ends
      rw [parsed] at parsed'
      cases parsed'
  · rintro ⟨present, cut⟩
    obtain ⟨room, items_inside⟩ := inside.2 present
    obtain ⟨⟨items, last⟩, walked⟩ := exists_ok (itemsInside_iff.mp items_inside).1 parseItems_ne_report
    have some_prefix : numberAt bsPpl p storage ≠ 0 := present
    rw [parseSegment, readAt_bind_eq_ok_iff, and_iff_right inside.1, if_neg some_prefix, require_bind_eq_ok_iff]
    refine ⟨room, bind_eq_ok_iff.mpr ?_⟩
    refine ⟨_, walked, if_pos (Nat.not_le.mp fun before => cut ⟨_, present, last, ?_, before, rfl⟩)⟩
    exact (parseItems_iff (fun q reached => items_inside.item reached) last).mp ⟨items, walked⟩

/-- The first item of a parsed segment. -/
theorem items_of_parsed (parsed : parseSegment storage sentinel p = .ok (some seg)) :
    let item := firstItem storage p
    (item < sentinel ∧ ril storage item ≠ 0 ∧
        ∃ later, seg.items = ⟨item + bsRil, ril storage item⟩ :: later) ∨
      (¬ (item < sentinel ∧ ril storage item ≠ 0) ∧ seg.items = []) := by
  obtain ⟨_, _, _, items, last, walked, _, _, rfl⟩ := (parseSegment_eq_some_iff storage).mp parsed
  exact head_of_parseItems walked

theorem inside_frontValue_iff (parsed : parseSegment storage sentinel p = .ok (some seg)) :
    (frontValue storage seg.items).Inside ↔ RecordInside storage sentinel p := by
  rcases items_of_parsed parsed with ⟨before, present, later, items⟩ | ⟨missing, items⟩
  · have placed : firstItem storage p < sentinel ∧ ril storage (firstItem storage p) ≠ 0 := ⟨before, present⟩
    rw [items, frontValue, RecordInside, inside_sub_bind]
    dsimp only
    rw [and_iff_right placed]
    refine and_congr_right fun number => ?_
    simp only [inside_ite, inside_report, inside_readAt_bind, inside_require_bind, inside_pure, implies_true,
      true_and, and_true, Nat.sub_eq_zero_iff_le]
    change (_ → _ ∧ (¬ valueLen storage p = 0 → _ + valueLen storage p ≤ _)) ↔ _
    constructor
    · intro inside more
      obtain ⟨field, value⟩ := inside (by omega)
      by_cases zero : valueLen storage p = 0
      · omega
      · exact value zero
    · intro inside more
      have := inside (by omega)
      exact ⟨by omega, fun _ => this⟩
  · rw [items]
    exact iff_of_false not_inside_leave fun inside => missing inside.1

theorem frontValue_eq_ok_iff {item : Extent} {later : List Extent} {v : ByteString} :
    let beg := item.beg + seqBytesSize
    let valueLen := numberAt userValueLengthBytesSize beg storage
    frontValue storage (item :: later) = .ok v ↔ seqBytesSize ≤ item.size ∧ item.size ≠ seqBytesSize ∧
      beg + userValueLengthBytesSize ≤ storage.length ∧ valueLen ≠ 0 ∧
      beg + userValueLengthBytesSize + valueLen ≤ storage.length ∧
      v = Extent.bytes storage ⟨beg + userValueLengthBytesSize, valueLen⟩ := by
  intro beg valueLen
  rw [frontValue, sub_bind_eq_ok_iff]
  refine and_congr_right fun number => ?_
  by_cases empty : item.size - seqBytesSize = 0
  · rw [if_pos empty]
    exact iff_of_false not_report_eq_ok fun both => both.1 (by omega)
  · rw [if_neg empty, and_iff_right (by omega), readAt_bind_eq_ok_iff]
    refine and_congr_right fun _ => ?_
    by_cases zero : valueLen = 0
    · exact iff_of_false (by rw [if_pos zero]; exact not_report_eq_ok) fun both => both.1 zero
    · rw [if_neg zero, and_iff_right zero, require_bind_eq_ok_iff, pure_eq_ok_iff, @eq_comm _ v]

/-- A record inside has a value exactly if it is not a tombstone. -/
theorem frontValue_iff (parsed : parseSegment storage sentinel p = .ok (some seg))
    (inside : RecordInside storage sentinel p) :
    (∃ v, frontValue storage seg.items = .ok v) ↔ RecordReads storage p := by
  obtain ⟨placed, number, value⟩ := inside
  rcases items_of_parsed parsed with ⟨_, _, later, items⟩ | ⟨missing, _⟩
  · simp only [items, frontValue_eq_ok_iff]
    constructor
    · rintro ⟨v, _, more, _, present, _⟩
      exact ⟨more, present⟩
    · rintro ⟨more, present⟩
      have room := value more
      exact ⟨_, number, more, by omega, present, room, rfl⟩
  · exact absurd placed missing

/-- Values that are read have bytes. -/
theorem frontValue_ne_nil {items : List Extent} {v : ByteString} (read : frontValue storage items = .ok v) :
    v ≠ [] := by
  cases items with
  | nil => cases read
  | cons item later =>
    obtain ⟨_, _, _, present, room, rfl⟩ := frontValue_eq_ok_iff.mp read
    apply List.ne_nil_of_length_pos
    rw [Extent.bytes, List.length_take, List.length_drop]
    dsimp only
    omega

theorem isRecord_iff : IsRecord storage p ↔ publicPrefix storage p = MetaBlock.bloomFilterKey.serialize ∨
    publicPrefix storage p = MetaBlock.lastUkKey.serialize ∨
      publicPrefix storage p = MetaBlock.firstUkKey.serialize := by
  simp [IsRecord, recordKeys]

theorem readSegment_of_plain (parsed : parseSegment storage sentinel p = .ok (some seg))
    (plain : ¬ IsRecord storage p) : readSegment storage fields seg = .ok fields := by
  rw [isRecord_iff, not_or, not_or] at plain
  rw [readSegment, publicPrefix_of_parsed parsed]
  rw [if_neg plain.1, if_neg plain.2.1, if_neg plain.2.2]
  rfl

theorem readSegment_of_record (parsed : parseSegment storage sentinel p = .ok (some seg))
    (record : IsRecord storage p) :
    ∃ set : ByteString → MetaBlock.Fields,
      readSegment storage fields seg = frontValue storage seg.items >>= fun v => pure (set v) := by
  rw [readSegment, publicPrefix_of_parsed parsed]
  by_cases bloom : publicPrefix storage p = MetaBlock.bloomFilterKey.serialize
  · rw [if_pos bloom]
    exact ⟨_, rfl⟩
  · rw [if_neg bloom]
    by_cases last : publicPrefix storage p = MetaBlock.lastUkKey.serialize
    · rw [if_pos last]
      exact ⟨_, rfl⟩
    · rw [if_neg last, if_pos (((isRecord_iff.mp record).resolve_left bloom).resolve_left last)]
      exact ⟨_, rfl⟩

theorem inside_readSegment_iff (parsed : parseSegment storage sentinel p = .ok (some seg)) :
    (readSegment storage fields seg).Inside ↔ (IsRecord storage p → RecordInside storage sentinel p) := by
  by_cases record : IsRecord storage p
  · obtain ⟨set, eq⟩ := readSegment_of_record parsed record
    rw [eq, inside_bind_pure_iff, inside_frontValue_iff parsed]
    exact (imp_iff_right record).symm
  · rw [readSegment_of_plain parsed record]
    exact iff_of_true (inside_ok _) fun is => absurd is record

theorem readSegment_iff (parsed : parseSegment storage sentinel p = .ok (some seg))
    (inside : IsRecord storage p → RecordInside storage sentinel p) :
    (∃ fields', readSegment storage fields seg = .ok fields') ↔ (IsRecord storage p → RecordReads storage p) := by
  by_cases record : IsRecord storage p
  · obtain ⟨set, eq⟩ := readSegment_of_record parsed record
    rw [eq, imp_iff_right record, ← frontValue_iff parsed (inside record)]
    simp only [bind_eq_ok_iff, pure_eq_ok_iff]
    constructor
    · rintro ⟨fields', v, read, _⟩
      exact ⟨v, read⟩
    · rintro ⟨v, read⟩
      exact ⟨_, v, read, rfl⟩
  · exact iff_of_true ⟨fields, readSegment_of_plain parsed record⟩ fun is => absurd is record

/-- What the loop over the segments needs at one place. -/
def StepInside (storage : ByteString) (sentinel p : Nat) : Prop := p < sentinel →
  SegmentInside storage sentinel p ∧
    ((∃ next, SegmentEnds storage sentinel p next) → IsRecord storage p → RecordInside storage sentinel p)

theorem inside_segmentStep_iff {s : Nat × MetaBlock.Fields} :
    (segmentStep storage sentinel s).Inside ↔ StepInside storage sentinel s.1 := by
  rw [segmentStep, inside_ite, and_iff_right fun _ => inside_pure _, Nat.not_le]
  refine imp_congr_right fun _ => ?_
  rw [inside_bind_iff, inside_parseSegment_iff]
  refine and_congr_right fun inside => ?_
  constructor
  · rintro all ⟨next, ends⟩
    obtain ⟨seg, parsed, _⟩ := (segmentEnds_iff inside).mp ends
    have read := all (some seg) parsed
    dsimp only at read
    rw [inside_bind_pure_iff] at read
    exact (inside_readSegment_iff parsed).mp read
  · intro records parsed run
    cases parsed with
    | none => exact inside_pure _
    | some seg =>
      dsimp only
      rw [inside_bind_pure_iff, inside_readSegment_iff run]
      exact records ⟨seg.stop, (segmentEnds_iff inside).mpr ⟨seg, run, rfl⟩⟩

theorem segmentHop_iff_hops (s : Nat × MetaBlock.Fields) (q : Nat) (inside : StepInside storage sentinel s.1) :
    SegmentHop storage sentinel s.1 q ↔ ∃ s', Hops (segmentStep storage sentinel) s s' ∧ s'.1 = q := by
  constructor
  · rintro ⟨before, ends, reads⟩
    obtain ⟨segment, records⟩ := inside before
    obtain ⟨seg, parsed, rfl⟩ := (segmentEnds_iff segment).mp ends
    obtain ⟨fields', read⟩ := (readSegment_iff parsed (records ⟨_, ends⟩)).mpr reads
    refine ⟨(seg.stop, fields'), ⟨seg, ?_⟩, rfl⟩
    rw [segmentStep, if_neg (Nat.not_le.mpr before), bind_eq_ok_iff]
    exact ⟨_, parsed, bind_eq_ok_iff.mpr ⟨_, read, rfl⟩⟩
  · rintro ⟨s', hops, rfl⟩
    obtain ⟨before, seg, parsed, read, stop⟩ := hops_segmentStep storage hops
    obtain ⟨segment, records⟩ := inside before
    have ends := (segmentEnds_iff segment).mpr ⟨seg, parsed, stop.symm⟩
    exact ⟨before, ends, (readSegment_iff parsed (records ⟨_, ends⟩)).mp ⟨_, read⟩⟩

/-- The loop over the segments stays in the block exactly if the segments and the records stand there. -/
theorem inside_readSegments_iff :
    (readSegments storage sentinel p).Inside ↔ SegmentsInside storage sentinel p := by
  rw [readSegments, inside_walk_iff]
  simp only [inside_segmentStep_iff]
  exact forall_reached_iff segmentHop_iff_hops (p, ⟨[], [], []⟩)

theorem stepInside_of_ok {s : Nat × MetaBlock.Fields} {next : Option (PlacedSegment × Nat × MetaBlock.Fields)}
    (step : segmentStep storage sentinel s = .ok next) : StepInside storage sentinel s.1 := by
  rw [← inside_segmentStep_iff, step]
  exact inside_ok _

theorem segmentHop_of_hops {s s' : Nat × MetaBlock.Fields} (hops : Hops (segmentStep storage sentinel) s s') :
    SegmentHop storage sentinel s.1 s'.1 := by
  obtain ⟨seg, taken⟩ := hops
  exact (segmentHop_iff_hops s s'.1 (stepInside_of_ok taken)).mpr ⟨s', ⟨seg, taken⟩, rfl⟩

/-- The loop goes one way only. -/
theorem segmentHop_unique {s s' : Nat × MetaBlock.Fields} (hops : Hops (segmentStep storage sentinel) s s')
    (hop : SegmentHop storage sentinel s.1 q) : s'.1 = q := by
  obtain ⟨seg, taken⟩ := hops
  obtain ⟨_, ⟨seg', taken'⟩, rfl⟩ := (segmentHop_iff_hops s q (stepInside_of_ok taken)).mp hop
  rw [taken] at taken'
  obtain ⟨_, rfl⟩ := Prod.mk.inj (Option.some.inj (Except.ok.inj taken'))
  rfl

theorem segmentStep_eq_none_iff {s : Nat × MetaBlock.Fields} (inside : StepInside storage sentinel s.1) :
    segmentStep storage sentinel s = .ok none ↔
      sentinel ≤ s.1 ∨ (ppl storage s.1 ≠ 0 ∧ ¬ ∃ next, SegmentEnds storage sentinel s.1 next) := by
  by_cases ended : sentinel ≤ s.1
  · exact iff_of_true (if_pos ended) (.inl ended)
  · rw [or_iff_right ended, ← parseSegment_eq_none_iff (inside (Nat.not_le.mp ended)).1, segmentStep, if_neg ended,
      bind_eq_ok_iff]
    constructor
    · rintro ⟨parsed, run, taken⟩
      cases parsed with
      | none => exact run
      | some seg =>
        obtain ⟨_, _, taken⟩ := bind_eq_ok_iff.mp taken
        cases taken
    · exact fun parsed => ⟨none, parsed, rfl⟩

/-- Where the loop over the segments stays in the block, it comes to its end exactly if they do. -/
theorem readSegments_iff (inside : SegmentsInside storage sentinel p) :
    (∃ segs, readSegments storage sentinel p = .ok segs) ↔ ∃ last, SegmentsEnd storage sentinel p last := by
  constructor
  · rintro ⟨⟨segs, last⟩, walked⟩
    obtain ⟨reached, ends⟩ := reached_of_walk walked
    refine ⟨last.1, ?_, (segmentStep_eq_none_iff (stepInside_of_ok ends)).mp ends⟩
    exact reached.lift Prod.fst fun _ _ => segmentHop_of_hops
  · rintro ⟨last, reached, ends⟩
    have all := (forall_reached_iff segmentHop_iff_hops (p, ⟨[], [], []⟩)).mpr inside
    obtain ⟨s, reached', rfl⟩ := reached_place segmentHop_iff_hops all reached
    obtain ⟨segs, walked⟩ := walk_of_reached reached' ((segmentStep_eq_none_iff (inside s.1 reached)).mpr ends)
    exact ⟨_, walked⟩

/-- What a segment does to the members. -/
theorem readSegment_eq_ok {fields' : MetaBlock.Fields} (parsed : parseSegment storage sentinel p = .ok (some seg))
    (read : readSegment storage fields seg = .ok fields') :
    (publicPrefix storage p = MetaBlock.bloomFilterKey.serialize ∧
      ∃ uv, uv ≠ [] ∧ fields' = { fields with filterRep := uv }) ∨
    (publicPrefix storage p = MetaBlock.lastUkKey.serialize ∧
      ∃ uv, uv ≠ [] ∧ fields' = { fields with lastUk := uv }) ∨
    (publicPrefix storage p = MetaBlock.firstUkKey.serialize ∧
      ∃ uv, uv ≠ [] ∧ fields' = { fields with firstUk := uv }) ∨
    (¬ IsRecord storage p ∧ fields' = fields) := by
  by_cases record : IsRecord storage p
  · rw [readSegment, publicPrefix_of_parsed parsed] at read
    split at read
    · rename_i bloom
      obtain ⟨uv, value, set⟩ := bind_eq_ok_iff.mp read
      exact .inl ⟨bloom, uv, frontValue_ne_nil value, (Except.ok.inj set).symm⟩
    · split at read
      · rename_i last
        obtain ⟨uv, value, set⟩ := bind_eq_ok_iff.mp read
        exact .inr (.inl ⟨last, uv, frontValue_ne_nil value, (Except.ok.inj set).symm⟩)
      · rename_i noBloom noLast
        have first := ((isRecord_iff.mp record).resolve_left noBloom).resolve_left noLast
        rw [if_pos first] at read
        obtain ⟨uv, value, set⟩ := bind_eq_ok_iff.mp read
        exact .inr (.inr (.inl ⟨first, uv, frontValue_ne_nil value, (Except.ok.inj set).symm⟩))
  · rw [readSegment_of_plain parsed record] at read
    exact .inr (.inr (.inr ⟨record, (Except.ok.inj read).symm⟩))

/-- The keys of the records are written in different bytes. -/
theorem recordKeys_differ : MetaBlock.bloomFilterKey.serialize ≠ MetaBlock.lastUkKey.serialize ∧
    MetaBlock.bloomFilterKey.serialize ≠ MetaBlock.firstUkKey.serialize ∧
    MetaBlock.lastUkKey.serialize ≠ MetaBlock.firstUkKey.serialize := by
  decide

/-- A member is filled by the segments of its key, and by no others. -/
def Tracks (storage : ByteString) (sentinel : Nat) (member : MetaBlock.Fields → ByteString) (key : UserKey) : Prop :=
  ∀ p seg fields fields', parseSegment storage sentinel p = .ok (some seg) →
    readSegment storage fields seg = .ok fields' →
      (member fields' ≠ [] ↔ member fields ≠ [] ∨ publicPrefix storage p = key.serialize)

theorem members_readSegment {fields' : MetaBlock.Fields} (parsed : parseSegment storage sentinel p = .ok (some seg))
    (read : readSegment storage fields seg = .ok fields') :
    (fields'.filterRep ≠ [] ↔
      fields.filterRep ≠ [] ∨ publicPrefix storage p = MetaBlock.bloomFilterKey.serialize) ∧
    (fields'.lastUk ≠ [] ↔ fields.lastUk ≠ [] ∨ publicPrefix storage p = MetaBlock.lastUkKey.serialize) ∧
    (fields'.firstUk ≠ [] ↔ fields.firstUk ≠ [] ∨ publicPrefix storage p = MetaBlock.firstUkKey.serialize) := by
  obtain ⟨bloomLast, bloomFirst, lastFirst⟩ := recordKeys_differ
  rcases readSegment_eq_ok parsed read with ⟨here, uv, filled, rfl⟩ | ⟨here, uv, filled, rfl⟩ |
    ⟨here, uv, filled, rfl⟩ | ⟨plain, rfl⟩
  · rw [here]
    exact ⟨iff_of_true filled (.inr rfl), (or_iff_left bloomLast).symm, (or_iff_left bloomFirst).symm⟩
  · rw [here]
    exact ⟨(or_iff_left bloomLast.symm).symm, iff_of_true filled (.inr rfl), (or_iff_left lastFirst).symm⟩
  · rw [here]
    exact ⟨(or_iff_left bloomFirst.symm).symm, (or_iff_left lastFirst.symm).symm, iff_of_true filled (.inr rfl)⟩
  · rw [isRecord_iff, not_or, not_or] at plain
    exact ⟨(or_iff_left plain.1).symm, (or_iff_left plain.2.1).symm, (or_iff_left plain.2.2).symm⟩

theorem tracks_filterRep (storage : ByteString) (sentinel : Nat) :
    Tracks storage sentinel MetaBlock.Fields.filterRep MetaBlock.bloomFilterKey :=
  fun _ _ _ _ parsed read => (members_readSegment parsed read).1

theorem tracks_lastUk (storage : ByteString) (sentinel : Nat) :
    Tracks storage sentinel MetaBlock.Fields.lastUk MetaBlock.lastUkKey :=
  fun _ _ _ _ parsed read => (members_readSegment parsed read).2.1

theorem tracks_firstUk (storage : ByteString) (sentinel : Nat) :
    Tracks storage sentinel MetaBlock.Fields.firstUk MetaBlock.firstUkKey :=
  fun _ _ _ _ parsed read => (members_readSegment parsed read).2.2

/-- The first segment has the key, or a later one has. -/
theorem finds_iff_of_hops {s s' : Nat × MetaBlock.Fields} {key : UserKey}
    (hops : Hops (segmentStep storage sentinel) s s') : Finds storage sentinel s.1 key ↔
      publicPrefix storage s.1 = key.serialize ∨ Finds storage sentinel s'.1 key := by
  have here := segmentHop_of_hops hops
  constructor
  · rintro ⟨q, next, reached, hop, same⟩
    cases reached.cases_head with
    | inl first =>
      rw [first]
      exact .inl same
    | inr later =>
      obtain ⟨q', first, rest⟩ := later
      obtain rfl := segmentHop_unique hops first
      exact .inr ⟨q, next, rest, hop, same⟩
  · rintro (same | ⟨q, next, rest, hop, same⟩)
    · exact ⟨s.1, s'.1, .refl, here, same⟩
    · exact ⟨q, next, rest.head here, hop, same⟩

theorem not_finds_of_none {s : Nat × MetaBlock.Fields} {key : UserKey}
    (ends : segmentStep storage sentinel s = .ok none) : ¬ Finds storage sentinel s.1 key := by
  have stays (q : Nat) : ¬ SegmentHop storage sentinel s.1 q := by
    intro hop
    obtain ⟨_, ⟨_, taken⟩, _⟩ := (segmentHop_iff_hops s q (stepInside_of_ok ends)).mp hop
    rw [ends] at taken
    cases taken
  rintro ⟨q, next, reached, hop, _⟩
  cases reached.cases_head with
  | inl here =>
    obtain rfl := here
    exact stays next hop
  | inr later =>
    obtain ⟨q', first, _⟩ := later
    exact stays q' first

/-- Behind the last segment a member is filled exactly if the loop has found its key. -/
theorem Tracks.filled_iff {member : MetaBlock.Fields → ByteString} {key : UserKey}
    (tracks : Tracks storage sentinel member key) {s last : Nat × MetaBlock.Fields}
    (reached : ReflTransGen (Hops (segmentStep storage sentinel)) s last)
    (ends : segmentStep storage sentinel last = .ok none) :
    member last.2 ≠ [] ↔ member s.2 ≠ [] ∨ Finds storage sentinel s.1 key := by
  induction reached using ReflTransGen.head_induction_on with
  | refl => exact (or_iff_left (not_finds_of_none ends)).symm
  | @head s s' hop _ ih =>
    obtain ⟨_, seg, parsed, read, _⟩ := hops_segmentStep storage hop
    rw [ih, tracks s.1 seg s.2 s'.2 parsed read, finds_iff_of_hops hop, or_assoc]

/-- Behind the loop over the segments no member is missing exactly if it has found every key. -/
theorem filled_of_readSegments {segs : List PlacedSegment × Nat × MetaBlock.Fields}
    (walked : readSegments storage sentinel p = .ok segs) :
    (segs.2.2.filterRep ≠ [] ∧ segs.2.2.lastUk ≠ [] ∧ segs.2.2.firstUk ≠ []) ↔
      ∀ key ∈ recordKeys, Finds storage sentinel p key := by
  obtain ⟨reached, ends⟩ := reached_of_walk walked
  rw [(tracks_filterRep storage sentinel).filled_iff reached ends,
    (tracks_lastUk storage sentinel).filled_iff reached ends,
    (tracks_firstUk storage sentinel).filled_iff reached ends]
  simp [recordKeys]

end Segments

end Opening

end FrenzyKV
