import FrenzyKV.Persistent.BlockSearch
import FrenzyKV.Table.Sstable
import FrenzyKV.Table.SstableRoundTrip

/-! The point lookup in the file of a table (`table/sstable.cc`). -/

namespace FrenzyKV

open Bytes TableDeps

namespace RawSegment

/-- The loop of `get_kv_entry` over the items of a segment, the last one first. -/
def newestUpTo (seg : RawSegment) (s : Nat) : List ByteString → Option (Option KvEntry)
  | [] => some none
  | item :: items =>
    (entryOf seg.userKey item).bind fun entry =>
      if entry.seq ≤ s then some (some entry) else seg.newestUpTo s items

end RawSegment

namespace BlockSegment

/-- The loop finds what a search in the entries finds. -/
theorem newestUpTo_raw {seg : BlockSegment} (fits : seg.Fits) (s : Nat) :
    seg.raw.newestUpTo s seg.raw.items.reverse = some (seg.entries.reverse.find? (·.seq ≤ s)) := by
  have loop : ∀ items : List (Nat × KvUserValue), (∀ item ∈ items, item ∈ seg.items) →
      seg.raw.newestUpTo s (items.map itemBody) = some ((items.map fun item =>
        (⟨⟨item.1, seg.userKey⟩, item.2.stored⟩ : KvEntry)).find? (·.seq ≤ s)) := by
    intro items inside
    induction items with
    | nil => rfl
    | cons item items ih =>
      have fit := fits.items item (inside item List.mem_cons_self)
      have later := ih fun x mem => inside x (List.mem_cons_of_mem _ mem)
      rw [List.map_cons, List.map_cons, RawSegment.newestUpTo, userKey_raw, entryOf_itemBody fit.1 fit.2,
        Option.bind_some, later, List.find?_cons]
      change (if item.1 ≤ s then _ else _) = some (match decide (item.1 ≤ s) with | true => _ | false => _)
      by_cases old : item.1 ≤ s
      · rw [if_pos old, decide_eq_true old]
      · rw [if_neg old, decide_eq_false old]
  rw [raw, entries, ← List.map_reverse, ← List.map_reverse]
  exact loop seg.items.reverse fun item mem => List.mem_reverse.mp mem

end BlockSegment

namespace RawSstable

variable (t : RawSstable)

/-- The walk of `get_segment` over adjacent blocks; each block is fetched again for each pair. A
failure is no result. -/
def segmentFrom (userKeyRep : ByteString) : List (Nat × Nat) → Option (Option RawSegment)
  | [] => none
  | [last] =>
    (t.getBlock last).bind fun lastBlock =>
      if lastBlock.largerEqualThanFirst userKeyRep then lastBlock.get userKeyRep else some none
  | p0 :: p1 :: rest =>
    (t.getBlock p0).bind fun blk0 => (t.getBlock p1).bind fun blk1 =>
      if blk0.largerEqualThanFirst userKeyRep && blk1.lessThanFirst userKeyRep
      then blk0.get userKeyRep
      else segmentFrom userKeyRep (p1 :: rest)

/-- `sstable::get_segment`. -/
def getSegment (k : SequencedKey) : Option (Option RawSegment) :=
  if t.deps.filter.mayMatch k.serializeUserKey t.filterRep
  then t.segmentFrom k.serializeUserKey t.blockOffsets
  else some none

/-- `sstable::get_kv_entry`. -/
def getKvEntry (k : SequencedKey) : Option (Option KvEntry) :=
  (t.getSegment k).bind fun
    | none => some none
    | some seg => seg.newestUpTo k.seq seg.items.reverse

end RawSstable

namespace Sstable

/-- The lookup in the blocks of a table, behind its filter. -/
def searchEntry (uk : UserKey) (s : Nat) (blocks : List Block) : Option KvEntry :=
  (searchBlocks uk blocks).bind fun seg => seg.entries.reverse.find? (·.seq ≤ s)

/-- A block that holds a key again holds every version that the blocks before it have. -/
def VersionsTogether (blocks : List Block) : Prop :=
  blocks.Pairwise fun b b' => ∀ e ∈ b.entries, (∃ x ∈ b'.entries, x.userKey = e.userKey) →
    ∃ x ∈ b'.entries, x.key = e.key

variable {blocks : List Block}

theorem answers_of_versionsTogether (wf : ∀ b ∈ blocks, b.Wf)
    (sorted : (blocks.flatMap Block.entries).Pairwise (·.key ≤ ·.key))
    (together : VersionsTogether blocks) (uk : UserKey) (s : Nat) :
    Answers {e | e ∈ blocks.flatMap Block.entries} uk s (searchEntry uk s blocks) := by
  cases found : searchBlocks uk blocks with
  | none =>
    rw [searchEntry, found]
    intro e mem key
    exact absurd key (searchBlocks_eq_none wf sorted found e mem)
  | some seg =>
    obtain ⟨key, front, b, back, eq, segMem, absent⟩ := searchBlocks_eq_some wf sorted found
    have hb : b ∈ blocks := eq ▸ List.mem_append_right front List.mem_cons_self
    have inside : ∀ e ∈ seg.entries, e ∈ b.entries :=
      fun e mem => List.mem_flatMap.mpr ⟨seg, segMem, mem⟩
    have answers := answers_segment (sorted_segment sorted hb segMem) s
    rw [searchEntry, found, ← key]
    apply answers.extend
    · exact fun e mem => List.mem_flatMap.mpr ⟨b, hb, inside e mem⟩
    · -- the versions before the last block that holds the key are found in it again
      intro e mem same
      change e ∈ blocks.flatMap Block.entries at mem
      rw [eq, List.flatMap_append, List.flatMap_cons] at mem
      rw [eq, VersionsTogether, List.pairwise_append] at together
      have again : ∃ x ∈ b.entries, x.key = e.key := by
        rcases List.mem_append.mp mem with before | there
        · obtain ⟨b0, mem0, mem⟩ := List.mem_flatMap.mp before
          obtain ⟨x, memX, keyX⟩ := (wf b hb).exists_entry segMem
          exact together.2.2 b0 mem0 b List.mem_cons_self e mem ⟨x, inside x memX, keyX.trans same.symm⟩
        · rcases List.mem_append.mp there with here | after
          · exact ⟨e, here, rfl⟩
          · exact absurd (same.trans key) (absent e after)
      obtain ⟨x, memX, eqKey⟩ := again
      have sameKey : x.userKey = seg.userKey := (congrArg SequencedKey.userKey eqKey).trans same
      exact ⟨x, (wf b hb).mem_segment segMem memX sameKey, sameKey, congrArg SequencedKey.seq eqKey⟩

theorem versionsTogether_of_answers (wf : ∀ b ∈ blocks, b.Wf)
    (sorted : (blocks.flatMap Block.entries).Pairwise (·.key ≤ ·.key))
    (answers : ∀ e ∈ blocks.flatMap Block.entries,
      Answers {e | e ∈ blocks.flatMap Block.entries} e.userKey e.seq
        (searchEntry e.userKey e.seq blocks)) : VersionsTogether blocks := by
  have ordered := (List.pairwise_flatMap.mp sorted).2
  rw [VersionsTogether, List.pairwise_iff_getElem]
  rw [List.pairwise_iff_getElem] at ordered
  intro i j hi hj before e mem again
  obtain ⟨x, memX, keyX⟩ := again
  have there : e ∈ blocks.flatMap Block.entries := List.mem_flatMap.mpr ⟨_, List.getElem_mem hi, mem⟩
  have answer := answers e there
  cases found : searchBlocks e.userKey blocks with
  | none => exact absurd rfl (searchBlocks_eq_none wf sorted found e there)
  | some seg =>
    obtain ⟨key, front, b, back, eq, segMem, absent⟩ := searchBlocks_eq_some wf sorted found
    rw [searchEntry, found, Option.bind_some] at answer
    cases hit : seg.entries.reverse.find? (·.seq ≤ e.seq) with
    | none =>
      rw [hit] at answer
      exact absurd (answer e there rfl) (lt_irrefl _)
    | some y =>
      rw [hit] at answer
      obtain ⟨⟨_, old⟩, keyY, newest⟩ := answer
      have sameSeq : y.seq = e.seq := le_antisymm old (newest e ⟨there, le_rfl⟩ rfl)
      have inB : y ∈ b.entries :=
        List.mem_flatMap.mpr ⟨seg, segMem, List.mem_reverse.mp (List.mem_of_find?_eq_some hit)⟩
      have position : blocks[front.length]? = some b := by
        rw [eq, List.getElem?_append_right le_rfl, Nat.sub_self]
        rfl
      obtain ⟨hn, atN⟩ := List.getElem?_eq_some_iff.mp position
      -- the later block lies before the one where the key was found, or is that block
      rcases lt_trichotomy j front.length with earlier | same | later
      · have le := ordered i j hi hj before e mem x memX
        have le' := ordered j front.length hj hn earlier x memX y (atN ▸ inB)
        have eqKey : x.key = e.key := by
          refine le_antisymm (le'.trans (le_of_eq ?_)) le
          exact congrArg₂ SequencedKey.mk sameSeq keyY
        exact ⟨x, memX, eqKey⟩
      · subst same
        exact ⟨y, atN ▸ inB, congrArg₂ SequencedKey.mk sameSeq keyY⟩
      · have behind : blocks[j] ∈ back := by
          have inBack : back[j - front.length - 1]? = some blocks[j] := by
            rw [← List.getElem?_eq_getElem hj]
            conv_rhs => rw [eq]
            rw [List.getElem?_append_right later.le, List.getElem?_cons]
            rw [if_neg (by omega)]
          exact List.mem_of_getElem? inBack
        exact absurd keyX (absent x (List.mem_flatMap.mpr ⟨_, behind, memX⟩))

end Sstable

namespace TableDeps

variable {d : TableDeps} {x : Block}

theorem Written.short_entry (written : d.Written x) : ∀ e ∈ x.entries, e.userKey.size < 2 ^ 16 := by
  intro e inside
  have bound : e.userKey.size ≤ 65533 := (written.encodable e inside).1
  omega

theorem Written.short (written : d.Written x) : ∀ seg ∈ x.segments, seg.userKey.size < 2 ^ 16 := by
  intro seg mem
  obtain ⟨e, inside, key⟩ := written.wf.exists_entry mem
  rw [← key]
  exact written.short_entry e (List.mem_flatMap.mpr ⟨seg, mem, inside⟩)

end TableDeps

namespace RawSstable

variable {t : RawSstable} {p : Nat × Nat} {x : Block} {offsets : List (Nat × Nat)}
  {blocks : List Block} {uk : UserKey}

/-- A block that fits is compared and searched as its segments are. -/
theorem getBlock_views (written : t.deps.Written x) (fits : t.deps.BlockFits x)
    (inverts : t.deps.CodecInverts t.compressor) (stands : t.Stands p x) (short : uk.size < 2 ^ 16) :
    ∃ blk, t.getBlock p = some blk ∧
      blk.largerEqualThanFirst uk.serialize = Block.startsAtOrBefore x.segments uk ∧
      blk.lessThanFirst uk.serialize = Block.startsAfter x.segments uk ∧
      blk.get uk.serialize = some ((x.get uk).map BlockSegment.raw) := by
  obtain ⟨storage, found, holds⟩ := getBlock_of_fits written fits inverts stands
  obtain ⟨first, later, segments⟩ := List.exists_cons_of_ne_nil written.wf.nonempty
  have shortFirst := written.short first (segments ▸ List.mem_cons_self)
  have prefix_first : (x.parsed storage).firstSegPublicPrefix = first.userKey.serialize := by
    rw [Block.parsed, segments]
    rfl
  refine ⟨_, found, ?_, ?_, Block.get_of_holds (written.fits fits) holds short⟩
  · rw [RawBlock.largerEqualThanFirst_serialize prefix_first shortFirst short, segments]
    rfl
  · rw [RawBlock.lessThanFirst_serialize prefix_first shortFirst short, segments]
    rfl

/-- Over blocks that fit, the walk is the search in the blocks. -/
theorem segmentFrom_of_fits (some_block : blocks ≠ []) (stands : List.Forall₂ t.Stands offsets blocks)
    (written : ∀ x ∈ blocks, t.deps.Written x) (fits : ∀ x ∈ blocks, t.deps.BlockFits x)
    (inverts : t.deps.CodecInverts t.compressor) (short : uk.size < 2 ^ 16) :
    t.segmentFrom uk.serialize offsets =
      some ((Sstable.searchBlocks uk blocks).map BlockSegment.raw) := by
  induction stands with
  | nil => exact absurd rfl some_block
  | @cons p x offsets xs here there ih =>
    obtain ⟨blk0, found0, early, _, get0⟩ :=
      getBlock_views (written x List.mem_cons_self) (fits x List.mem_cons_self) inverts here short
    cases there with
    | nil =>
      rw [segmentFrom, found0, Option.bind_some, early, Sstable.searchBlocks, get0]
      cases Block.startsAtOrBefore x.segments uk with
      | true => rfl
      | false => rfl
    | @cons p1 x1 offsets xs next rest =>
      have mem1 : x1 ∈ x :: x1 :: xs := List.mem_cons_of_mem _ List.mem_cons_self
      obtain ⟨blk1, found1, _, late, _⟩ :=
        getBlock_views (written x1 mem1) (fits x1 mem1) inverts next short
      have later := ih (List.cons_ne_nil _ _) (fun y mem => written y (List.mem_cons_of_mem _ mem))
        (fun y mem => fits y (List.mem_cons_of_mem _ mem))
      rw [segmentFrom, found0, Option.bind_some, found1, Option.bind_some, early, late, get0, later,
        Sstable.searchBlocks]
      cases Block.startsAtOrBefore x.segments uk && Block.startsAfter x1.segments uk with
      | true => rfl
      | false => rfl

/-- A lookup whose key passes the filter is the lookup in the blocks. -/
theorem getKvEntry_of_fits {k : SequencedKey} (some_block : blocks ≠ [])
    (stands : List.Forall₂ t.Stands t.blockOffsets blocks)
    (written : ∀ x ∈ blocks, t.deps.Written x) (fits : ∀ x ∈ blocks, t.deps.BlockFits x)
    (inverts : t.deps.CodecInverts t.compressor) (short : k.userKey.size < 2 ^ 16)
    (sorted : (blocks.flatMap Block.entries).Pairwise (·.key ≤ ·.key))
    (pass : t.deps.filter.mayMatch k.serializeUserKey t.filterRep = true) :
    t.getKvEntry k = some (Sstable.searchEntry k.userKey k.seq blocks) := by
  have walk := segmentFrom_of_fits some_block stands written fits inverts short
  have segment : t.getSegment k = some ((Sstable.searchBlocks k.userKey blocks).map BlockSegment.raw) := by
    rw [getSegment, if_pos pass]
    exact walk
  rw [getKvEntry, segment, Option.bind_some, Sstable.searchEntry]
  cases found : Sstable.searchBlocks k.userKey blocks with
  | none => rfl
  | some seg =>
    obtain ⟨_, front, x, back, eq, segMem, _⟩ :=
      Sstable.searchBlocks_eq_some (fun y mem => (written y mem).wf) sorted found
    have mem : x ∈ blocks := eq ▸ List.mem_append_right front List.mem_cons_self
    exact BlockSegment.newestUpTo_raw ((written x mem).segments_fit (fits x mem).total seg segMem) k.seq

/-- Blocks that start behind the key, or are refused, yield no segment. -/
theorem segmentFrom_late (late : ∀ p ∈ offsets, ∀ blk, t.getBlock p = some blk →
    blk.largerEqualThanFirst uk.serialize = false) (seg : RawSegment) :
    t.segmentFrom uk.serialize offsets ≠ some (some seg) := by
  induction offsets with
  | nil => exact fun eq => by cases eq
  | cons p rest ih =>
    have later := ih fun q mem => late q (List.mem_cons_of_mem _ mem)
    have here := late p List.mem_cons_self
    cases rest with
    | nil =>
      rw [segmentFrom]
      cases found : t.getBlock p with
      | none => exact fun eq => by cases eq
      | some blk =>
        rw [Option.bind_some, here blk found]
        exact fun eq => by cases eq
    | cons p1 rest =>
      rw [segmentFrom]
      cases found : t.getBlock p with
      | none => exact fun eq => by cases eq
      | some blk =>
        rw [Option.bind_some, here blk found]
        cases t.getBlock p1 with
        | none => exact fun eq => by cases eq
        | some blk1 => exact later

/-- Whatever block is opened starts with a key of its own. -/
theorem first_of_getBlock (written : t.deps.Written x) (inverts : t.deps.CodecInverts t.compressor)
    (stands : t.Stands p x) {blk : RawBlock} (found : t.getBlock p = some blk) :
    ∃ seg ∈ x.segments, blk.firstSegPublicPrefix = seg.userKey.serialize := by
  by_cases fits : t.deps.BlockFits x
  · obtain ⟨storage, found', _⟩ := getBlock_of_fits written fits inverts stands
    obtain rfl := Option.some.inj (found.symm.trans found')
    obtain ⟨first, later, segments⟩ := List.exists_cons_of_ne_nil written.wf.nonempty
    refine ⟨first, segments ▸ List.mem_cons_self, ?_⟩
    rw [Block.parsed, segments]
    rfl
  · cases getBlock_of_unfit written fits inverts stands with
    | inl refused =>
      rw [refused] at found
      cases found
    | inr late =>
      obtain ⟨raw, front, seg, back, found', _, segments, _, first⟩ := late
      obtain rfl := Option.some.inj (found.symm.trans found')
      exact ⟨seg, segments ▸ List.mem_append_right front List.mem_cons_self, first⟩

/-- The walk passes the blocks in front of `x` when these do not start behind the key, and does not
stop in front of `x` with a segment when that is refused or starts behind a key that they miss. -/
theorem segmentFrom_front {good : List Block} {q : Nat × Nat} {front behind : List (Nat × Nat)}
    (standsGood : List.Forall₂ t.Stands front good) (written : ∀ g ∈ good, t.deps.Written g)
    (fits : ∀ g ∈ good, t.deps.BlockFits g) (inverts : t.deps.CodecInverts t.compressor)
    (short : uk.size < 2 ^ 16) (early : ∀ g ∈ good, Block.startsAfter g.segments uk = false)
    (missed : ∀ blk, t.getBlock q = some blk →
      blk.lessThanFirst uk.serialize = true ∧ ∀ g ∈ good, g.get uk = none)
    (rest : ∀ seg, t.segmentFrom uk.serialize (q :: behind) ≠ some (some seg)) (seg : RawSegment) :
    t.segmentFrom uk.serialize (front ++ q :: behind) ≠ some (some seg) := by
  induction standsGood with
  | nil => exact rest seg
  | @cons p g front good here there ih =>
    obtain ⟨blk0, found0, _, _, get0⟩ :=
      getBlock_views (written g List.mem_cons_self) (fits g List.mem_cons_self) inverts here short
    have tail := ih (fun y mem => written y (List.mem_cons_of_mem _ mem))
      (fun y mem => fits y (List.mem_cons_of_mem _ mem))
      (fun y mem => early y (List.mem_cons_of_mem _ mem))
      (fun blk found => ⟨(missed blk found).1, fun y mem => (missed blk found).2 y (List.mem_cons_of_mem _ mem)⟩)
    cases there with
    | nil =>
      change t.segmentFrom uk.serialize (p :: q :: behind) ≠ _
      rw [segmentFrom, found0, Option.bind_some]
      cases found : t.getBlock q with
      | none => exact fun eq => by cases eq
      | some blk =>
        obtain ⟨less, none_there⟩ := missed blk found
        rw [Option.bind_some, less, Bool.and_true, get0, none_there g List.mem_cons_self]
        split
        · exact fun eq => by cases eq
        · exact rest seg
    | @cons p1 g1 front good next more =>
      have mem1 : g1 ∈ g :: g1 :: good := List.mem_cons_of_mem _ List.mem_cons_self
      obtain ⟨blk1, found1, _, late, _⟩ :=
        getBlock_views (written g1 mem1) (fits g1 mem1) inverts next short
      change t.segmentFrom uk.serialize (p :: p1 :: (front ++ q :: behind)) ≠ _
      rw [segmentFrom, found0, Option.bind_some, found1, Option.bind_some, late, early g1 mem1,
        Bool.and_false]
      exact tail

theorem exists_stands (stands : List.Forall₂ t.Stands offsets blocks) (mem : p ∈ offsets) :
    ∃ x ∈ blocks, t.Stands p x := by
  induction stands with
  | nil => cases mem
  | @cons q x offsets xs here there ih =>
    cases List.mem_cons.mp mem with
    | inl same => exact ⟨x, List.mem_cons_self, same ▸ here⟩
    | inr mem =>
      obtain ⟨y, inside, stands⟩ := ih mem
      exact ⟨y, List.mem_cons_of_mem _ inside, stands⟩

/-- A block that starts behind a key has no entry up to it. -/
theorem startsAfter_of_mem {b : Block} (wf : b.Wf) (le : ∀ y ∈ b.entries, y.userKey ≤ uk) :
    Block.startsAfter b.segments uk = false := by
  obtain ⟨first, later, e, es, segments, entries, key⟩ := wf.exists_first
  have early : first.userKey ≤ uk := key ▸ le e (entries ▸ List.mem_cons_self)
  rw [segments]
  exact decide_eq_false early.not_gt

section

variable {good later : List Block} {q : Nat × Nat} {front behind : List (Nat × Nat)}

/-- Sorted blocks in front of `x` hold no key above one of `x`, and those behind it none below. -/
theorem le_of_sorted (sorted : ((good ++ x :: later).flatMap Block.entries).Pairwise (·.key ≤ ·.key))
    {e : KvEntry} (inside : e ∈ x.entries) :
    (∀ g ∈ good, ∀ y ∈ g.entries, y.userKey ≤ e.userKey) ∧
      ∀ z ∈ later, ∀ y ∈ z.entries, e.userKey ≤ y.userKey := by
  have blocksSorted := (List.pairwise_append.mp (List.pairwise_flatMap.mp sorted).2)
  constructor
  · intro g mem y hy
    exact SequencedKey.userKey_mono (blocksSorted.2.2 g mem x List.mem_cons_self y hy e inside)
  · intro z mem y hy
    exact SequencedKey.userKey_mono (List.rel_of_pairwise_cons blocksSorted.2.1 mem e inside y hy)

/-- A lookup of the first key of a block that is refused fails. -/
theorem missed_of_refused (standsGood : List.Forall₂ t.Stands front good)
    (written : ∀ y ∈ good ++ x :: later, t.deps.Written y) (fits : ∀ g ∈ good, t.deps.BlockFits g)
    (inverts : t.deps.CodecInverts t.compressor)
    (sorted : ((good ++ x :: later).flatMap Block.entries).Pairwise (·.key ≤ ·.key))
    (refused : t.getBlock q = none) :
    ∃ e ∈ x.entries, ∀ seg,
      t.segmentFrom e.userKey.serialize (front ++ q :: behind) ≠ some (some seg) := by
  have writtenGood : ∀ g ∈ good, t.deps.Written g := fun g mem => written g (List.mem_append_left _ mem)
  have writtenX := written x (List.mem_append_right good List.mem_cons_self)
  obtain ⟨_, _, e, es, _, entries, _⟩ := writtenX.wf.exists_first
  have inside : e ∈ x.entries := entries ▸ List.mem_cons_self
  have below := (le_of_sorted sorted inside).1
  refine ⟨e, inside, segmentFrom_front standsGood writtenGood fits inverts (writtenX.short_entry e inside)
    (fun g mem => startsAfter_of_mem (writtenGood g mem).wf (below g mem)) ?_ ?_⟩
  · intro blk opened
    rw [refused] at opened
    cases opened
  · intro seg
    cases behind with
    | nil =>
      rw [segmentFrom, refused]
      exact fun eq => by cases eq
    | cons p1 rest =>
      rw [segmentFrom, refused]
      exact fun eq => by cases eq

/-- A block that pretends to start late hides the keys in front of that start. -/
theorem missed_of_late (standsGood : List.Forall₂ t.Stands front good)
    (standsLater : List.Forall₂ t.Stands behind later)
    (written : ∀ y ∈ good ++ x :: later, t.deps.Written y) (fits : ∀ g ∈ good, t.deps.BlockFits g)
    (inverts : t.deps.CodecInverts t.compressor)
    (sorted : ((good ++ x :: later).flatMap Block.entries).Pairwise (·.key ≤ ·.key))
    {raw : RawBlock} (opened : t.getBlock q = some raw) {s0 s1 seg : BlockSegment}
    {more back : List BlockSegment} (segments : x.segments = s0 :: s1 :: (more ++ seg :: back))
    (first : raw.firstSegPublicPrefix = seg.userKey.serialize) :
    ∃ e ∈ x.entries, ∀ seg,
      t.segmentFrom e.userKey.serialize (front ++ q :: behind) ≠ some (some seg) := by
  have writtenGood : ∀ g ∈ good, t.deps.Written g := fun g mem => written g (List.mem_append_left _ mem)
  have writtenX := written x (List.mem_append_right good List.mem_cons_self)
  have memSeg : seg ∈ x.segments := by
    rw [segments]
    exact List.mem_cons_of_mem _ (List.mem_cons_of_mem _ (List.mem_append_right more List.mem_cons_self))
  have ascending := writtenX.wf.ascending
  rw [segments] at ascending
  have zero_one : s0.userKey < s1.userKey := List.rel_of_pairwise_cons ascending List.mem_cons_self
  have one_seg : s1.userKey < seg.userKey :=
    List.rel_of_pairwise_cons ascending.of_cons (List.mem_append_right more List.mem_cons_self)
  have entryOf : ∀ s ∈ x.segments, ∃ e ∈ x.entries, e.userKey = s.userKey := by
    intro s mem
    obtain ⟨e, inside, key⟩ := writtenX.wf.exists_entry mem
    exact ⟨e, List.mem_flatMap.mpr ⟨s, mem, inside⟩, key⟩
  obtain ⟨e0, entry0, key0⟩ := entryOf s0 (segments ▸ List.mem_cons_self)
  obtain ⟨e1, entry1, key1⟩ := entryOf s1 (segments ▸ List.mem_cons_of_mem _ List.mem_cons_self)
  obtain ⟨eSeg, entrySeg, keySeg⟩ := entryOf seg memSeg
  have below := (le_of_sorted sorted entry1).1
  have short := writtenX.short_entry e1 entry1
  refine ⟨e1, entry1, segmentFrom_front standsGood writtenGood fits inverts short
    (fun g mem => startsAfter_of_mem (writtenGood g mem).wf (below g mem)) ?_ ?_⟩
  · intro blk opened'
    obtain rfl := Option.some.inj (opened.symm.trans opened')
    constructor
    · rw [RawBlock.lessThanFirst_serialize first (writtenX.short seg memSeg) short, key1]
      exact decide_eq_true one_seg
    · -- the blocks in front hold no key above the first one of `x`
      intro g mem
      cases hit : g.get e1.userKey with
      | none => rfl
      | some s =>
        obtain ⟨inG, keyS⟩ := Block.get_eq_some hit
        obtain ⟨y, insideS, keyY⟩ := (writtenGood g mem).wf.exists_entry inG
        have le := (le_of_sorted sorted entry0).1 g mem y (List.mem_flatMap.mpr ⟨s, inG, insideS⟩)
        rw [keyY, keyS, key0, key1] at le
        exact absurd zero_one le.not_gt
  · refine fun s => segmentFrom_late (fun p mem blk opened' => ?_) s
    cases List.mem_cons.mp mem with
    | inl same =>
      rw [same] at opened'
      obtain rfl := Option.some.inj (opened.symm.trans opened')
      rw [RawBlock.largerEqualThanFirst_serialize first (writtenX.short seg memSeg) short, key1]
      exact decide_eq_false one_seg.not_ge
    | inr mem =>
      obtain ⟨z, memZ, standsZ⟩ := exists_stands standsLater mem
      have writtenZ := written z (List.mem_append_right good (List.mem_cons_of_mem _ memZ))
      obtain ⟨sz, memSz, firstZ⟩ := first_of_getBlock writtenZ inverts standsZ opened'
      obtain ⟨y, insideY, keyY⟩ := writtenZ.wf.exists_entry memSz
      have le := (le_of_sorted sorted entrySeg).2 z memZ y (List.mem_flatMap.mpr ⟨sz, memSz, insideY⟩)
      rw [keySeg, keyY] at le
      rw [RawBlock.largerEqualThanFirst_serialize firstZ (writtenZ.short sz memSz) short, key1]
      exact decide_eq_false (one_seg.trans_le le).not_ge

end

/-- When some block does not fit, an entry of the first such block is missed. -/
theorem exists_missed (stands : List.Forall₂ t.Stands offsets blocks)
    (written : ∀ x ∈ blocks, t.deps.Written x) (inverts : t.deps.CodecInverts t.compressor)
    (sorted : (blocks.flatMap Block.entries).Pairwise (·.key ≤ ·.key))
    (unfit : ∃ x ∈ blocks, ¬ t.deps.BlockFits x) :
    ∃ e ∈ blocks.flatMap Block.entries, ∀ seg,
      t.segmentFrom e.userKey.serialize offsets ≠ some (some seg) := by
  obtain ⟨x, found⟩ : ∃ x, blocks.find? (fun x => ¬ t.deps.BlockFits x) = some x := by
    obtain ⟨x, mem, unfit⟩ := unfit
    exact Option.isSome_iff_exists.mp (List.find?_isSome.mpr ⟨x, mem, by simpa using unfit⟩)
  obtain ⟨misfit, good, later, eq, fits⟩ := List.find?_eq_some_iff_append.mp found
  have misfit : ¬ t.deps.BlockFits x := of_decide_eq_true misfit
  have fits : ∀ g ∈ good, t.deps.BlockFits g := fun g mem => by simpa using fits g mem
  rw [eq] at stands written sorted ⊢
  have writtenX := written x (List.mem_append_right good List.mem_cons_self)
  have standsGood := List.forall₂_take_append offsets good (x :: later) stands
  obtain ⟨q, behind, here, standsLater, split⟩ :=
    List.forall₂_cons_right_iff.mp (List.forall₂_drop_append offsets good (x :: later) stands)
  have offsetsEq : offsets = offsets.take good.length ++ q :: behind := by
    rw [← split, List.take_append_drop]
  have missed : ∃ e ∈ x.entries, ∀ seg, t.segmentFrom e.userKey.serialize
      (offsets.take good.length ++ q :: behind) ≠ some (some seg) := by
    cases getBlock_of_unfit writtenX misfit inverts here with
    | inl refused => exact missed_of_refused standsGood written fits inverts sorted refused
    | inr late =>
      obtain ⟨raw, front, seg, back, opened, _, segments, many, first⟩ := late
      match front, many with
      | s0 :: s1 :: more, _ =>
        exact missed_of_late standsGood standsLater written fits inverts sorted opened segments first
  obtain ⟨e, inside, missed⟩ := missed
  rw [← offsetsEq] at missed
  exact ⟨e, List.mem_flatMap.mpr ⟨x, List.mem_append_right good List.mem_cons_self, inside⟩, missed⟩

end RawSstable

/-- The blocks that are cut from entries keep the versions of each key together. -/
def TableDeps.VersionsTogether (d : TableDeps) (es : List KvEntry) : Prop :=
  ∃ blocks, dataBlocks d.opt.toOptions .fresh es = some blocks ∧ Sstable.VersionsTogether blocks

namespace RawSstable

variable {d : TableDeps} {compressor : CompressorPolicy} {es : List KvEntry} {sizeLimit : Nat}
  {r : RawSstableBuilder} {file : ByteString}

/-- The file opens as a table with the filter that was built, and every lookup is answered from
the entries that were added. -/
def LooksUp (d : TableDeps) (file : ByteString) (es : List KvEntry) : Prop :=
  ∃ t, make d file = some t ∧ t.filterRep = SstableBuilder.filterAfter d.filter none [] es ∧
    ∀ k : SequencedKey, 1 ≤ k.userKey.size → k.userKey.size ≤ 65533 → k.seq < sequenceNumberModulus →
      ∃ answer, t.getKvEntry k = some answer ∧ Answers {e | e ∈ es} k.userKey k.seq answer

theorem fields_present {crc32c : ByteString → UInt32} {storage : ByteString} {fields : MetaBlock.Fields}
    (parsed : parseMetaBlock crc32c storage = some fields) : fields.filterRep ≠ [] := by
  rw [parseMetaBlock] at parsed
  by_cases intact : BlockStorage.blockIntegrityCheck storage crc32c = some true
  · rw [if_pos intact] at parsed
    obtain ⟨metaBlock, _, parsed⟩ := Option.bind_eq_some_iff.mp parsed
    split at parsed
    · dsimp only at parsed
      split at parsed
      · obtain ⟨read, _, parsed⟩ := Option.bind_eq_some_iff.mp parsed
        split at parsed
        · cases parsed
        · rename_i kept
          obtain rfl := Option.some.inj parsed
          exact fun empty => kept (.inl empty)
      · cases parsed
    · cases parsed
  · rw [if_neg intact] at parsed
    cases parsed

theorem filterRep_of_make {t : RawSstable} (made : make d file = some t) : t.filterRep ≠ [] := by
  obtain ⟨_, _, made⟩ := Option.bind_eq_some_iff.mp made
  obtain ⟨_, _, made⟩ := Option.bind_eq_some_iff.mp made
  obtain ⟨_, _, made⟩ := Option.bind_eq_some_iff.mp made
  obtain ⟨fields, parsed, made⟩ := Option.bind_eq_some_iff.mp made
  obtain ⟨_, _, rfl⟩ := Option.map_eq_some_iff.mp made
  exact fields_present parsed

theorem Finished.getKvEntry {blocks : List Block} (table : Finished d file es blocks) (nonempty : es ≠ [])
    (sorted : es.Pairwise (·.key ≤ ·.key)) (fits : ∀ x ∈ blocks, d.BlockFits x)
    (inverts : d.CodecInverts compressor) {k : SequencedKey} (size : k.userKey.size ≤ 65533)
    (pass : d.filter.mayMatch k.serializeUserKey
      (SstableBuilder.filterAfter d.filter none [] es) = true) :
    (opened d compressor file blocks es).getKvEntry k =
      some (Sstable.searchEntry k.userKey k.seq blocks) := by
  have entries := table.entries
  have someBlock : blocks ≠ [] := by
    intro none_there
    rw [none_there] at entries
    exact nonempty (List.map_eq_nil_iff.mp entries.symm)
  have sortedBlocks : (blocks.flatMap Block.entries).Pairwise (·.key ≤ ·.key) := by
    rw [entries]
    exact List.pairwise_map.mpr sorted
  exact getKvEntry_of_fits someBlock (table.stands compressor) table.written fits inverts (by omega)
    sortedBlocks pass

/-- A lookup whose answer covers the entry itself has found a segment. -/
theorem segmentFrom_of_answers {blocks : List Block} {e : KvEntry} {answer : Option KvEntry}
    (mem : e ∈ es) (pass : d.filter.mayMatch e.key.serializeUserKey
      (SstableBuilder.filterAfter d.filter none [] es) = true)
    (found : (opened d compressor file blocks es).getKvEntry e.key = some answer)
    (right : Answers {x | x ∈ es} e.userKey e.seq answer) :
    ∃ seg, (opened d compressor file blocks es).segmentFrom e.userKey.serialize
      (offsetsOf d 0 blocks) = some (some seg) := by
  have walk : (opened d compressor file blocks es).getSegment e.key =
      (opened d compressor file blocks es).segmentFrom e.userKey.serialize (offsetsOf d 0 blocks) :=
    if_pos pass
  rw [getKvEntry, walk] at found
  cases segment : (opened d compressor file blocks es).segmentFrom e.userKey.serialize
      (offsetsOf d 0 blocks) with
  | none =>
    rw [segment] at found
    cases found
  | some seg =>
    cases seg with
    | some seg => exact ⟨seg, rfl⟩
    | none =>
      rw [segment] at found
      obtain rfl := Option.some.inj found
      exact absurd (right e mem rfl) (lt_irrefl _)

section

variable {blocks : List Block} (table : Finished d file es blocks) (storable : ∀ e ∈ es, e.Storable)
  (sorted : es.Pairwise (·.key ≤ ·.key)) (inverts : d.CodecInverts compressor)
  (passes : ∀ e ∈ es, d.filter.mayMatch e.key.serializeUserKey
    (SstableBuilder.filterAfter d.filter none [] es) = true)

include table storable sorted

theorem Finished.blocks_sorted : (blocks.flatMap Block.entries).Pairwise (·.key ≤ ·.key) := by
  rw [table.entries_eq storable]
  exact sorted

include inverts passes

/-- A table that answers the lookup of each of its entries has no block that does not fit, and
none that is cut inside a key's versions. -/
theorem Finished.fits_of_answers (nonempty : es ≠ [])
    (answered : ∀ e ∈ es, ∃ answer, (opened d compressor file blocks es).getKvEntry e.key = some answer ∧
      Answers {x | x ∈ es} e.userKey e.seq answer) :
    (∀ x ∈ blocks, d.BlockFits x) ∧ Sstable.VersionsTogether blocks := by
  have entries := table.entries_eq storable
  have fits : ∀ x ∈ blocks, d.BlockFits x := by
    by_contra unfit
    push Not at unfit
    obtain ⟨e, inside, missed⟩ := exists_missed (table.stands compressor) table.written inverts
      (table.blocks_sorted storable sorted) unfit
    have mem : e ∈ es := entries ▸ inside
    obtain ⟨answer, found, right⟩ := answered e mem
    obtain ⟨seg, segment⟩ := segmentFrom_of_answers mem (passes e mem) found right
    exact missed seg segment
  refine ⟨fits, Sstable.versionsTogether_of_answers (fun x mem => (table.written x mem).wf)
    (table.blocks_sorted storable sorted) ?_⟩
  rw [entries]
  intro e mem
  obtain ⟨answer, found, right⟩ := answered e mem
  rw [table.getKvEntry nonempty sorted fits inverts (storable e mem).2.1 (passes e mem)] at found
  rw [← Option.some.inj found] at right
  exact right

theorem Finished.answers_of_fits (nonempty : es ≠ []) (fits : ∀ x ∈ blocks, d.BlockFits x)
    (together : Sstable.VersionsTogether blocks) {k : SequencedKey} (size : k.userKey.size ≤ 65533) :
    ∃ answer, (opened d compressor file blocks es).getKvEntry k = some answer ∧
      Answers {e | e ∈ es} k.userKey k.seq answer := by
  by_cases pass : d.filter.mayMatch k.serializeUserKey
      (SstableBuilder.filterAfter d.filter none [] es) = true
  · refine ⟨_, table.getKvEntry nonempty sorted fits inverts size pass, ?_⟩
    have answers := Sstable.answers_of_versionsTogether (fun x mem => (table.written x mem).wf)
      (table.blocks_sorted storable sorted) together k.userKey k.seq
    rw [table.entries_eq storable] at answers
    exact answers
  · have nothing : (opened d compressor file blocks es).getKvEntry k = some none := by
      rw [RawSstable.getKvEntry, getSegment]
      exact congrArg (Option.bind · _) (if_neg pass)
    refine ⟨none, nothing, ?_⟩
    intro e mem key
    have passed := passes e mem
    rw [SequencedKey.serializeUserKey, show e.key.userKey = k.userKey from key] at passed
    exact absurd passed pass

end

/-- Lookups in a finished table are answered from its entries exactly when the filter left
something behind, every data block fits, and no version of a key is cut off from the later ones. -/
theorem finished_table_lookups_iff (sorted : es.Pairwise (·.key ≤ ·.key))
    (storable : ∀ e ∈ es, e.Storable) (wide : 5 ≤ d.opt.maxBlockSegmentsNumber)
    (named : getCompressor d.zstd d.opt d.opt.compressorName = some compressor)
    (inverts : d.CodecInverts compressor)
    (passes : ∀ e ∈ es, d.filter.mayMatch e.key.serializeUserKey
      (SstableBuilder.filterAfter d.filter none [] es) = true)
    (built : (RawSstableBuilder.make sizeLimit).bind (·.addAll d es) = some r)
    (finished : r.finish d = some file) :
    LooksUp d file es ↔ SstableBuilder.filterAfter d.filter none [] es ≠ [] ∧ d.BlocksFit es ∧
      d.VersionsTogether es := by
  by_cases present : SstableBuilder.filterAfter d.filter none [] es = []
  · apply iff_of_false _ fun all => all.1 present
    intro looks
    obtain ⟨t, made, filterRep, _⟩ := looks
    exact filterRep_of_make made (filterRep.trans present)
  · have nonempty : es ≠ [] := by
      intro empty
      rw [empty] at present
      exact present rfl
    obtain ⟨blocks, table⟩ :=
      finished_of_finish nonempty (fun e mem => (storable e mem).encodable) built finished
    obtain ⟨_, made⟩ := table.made present wide named
    constructor
    · intro looks
      obtain ⟨t, made', _, lookup⟩ := looks
      obtain rfl := Option.some.inj (made.symm.trans made')
      obtain ⟨fits, together⟩ :=
        table.fits_of_answers storable sorted inverts passes nonempty fun e mem =>
          lookup e.key (storable e mem).1 (storable e mem).2.1 (storable e mem).2.2.2
      exact ⟨present, ⟨blocks, table.cut, fits⟩, blocks, table.cut, together⟩
    · intro all
      obtain ⟨_, ⟨blocks1, cut1, fits⟩, blocks2, cut2, together⟩ := all
      obtain rfl := Option.some.inj (table.cut.symm.trans cut1)
      obtain rfl := Option.some.inj (table.cut.symm.trans cut2)
      exact ⟨_, made, rfl, fun k _ size _ =>
        table.answers_of_fits storable sorted inverts passes nonempty fits together size⟩

/-- All entries in one block. -/
def wholeBlock : TableDeps := { smallBlocks with opt := RawBlock.compressing }

theorem wholeBlock_looks_up :
    ∃ r file, (RawSstableBuilder.make 4096).bind (·.addAll wholeBlock RawBlock.threeEntries) = some r ∧
      r.finish wholeBlock = some file ∧ LooksUp wholeBlock file RawBlock.threeEntries := by
  obtain ⟨r, file, built, finished⟩ :=
    @exists_finished wholeBlock RawBlock.threeEntries 4096 (by decide +kernel)
  have blocks : ((dataBlocks wholeBlock.opt.toOptions .fresh RawBlock.threeEntries).any fun blocks =>
      (blocks.all fun x => wholeBlock.BlockFits x) && blocks.length = 1) = true := by
    decide +kernel
  obtain ⟨cut, eq, all⟩ := (Option.any_eq_true _ _).mp blocks
  obtain ⟨fits, one⟩ := Bool.and_eq_true_iff.mp all
  obtain ⟨x, rfl⟩ := List.length_eq_one_iff.mp (of_decide_eq_true one)
  have fits : wholeBlock.BlocksFit RawBlock.threeEntries :=
    ⟨[x], eq, fun y mem => of_decide_eq_true (List.all_eq_true.mp fits y mem)⟩
  have together : wholeBlock.VersionsTogether RawBlock.threeEntries :=
    ⟨[x], eq, List.pairwise_singleton _ x⟩
  exact ⟨r, file, built, finished, (finished_table_lookups_iff (by decide) (by decide) (by decide)
    rfl (fun _ => tagging_inverts) (by decide +kernel) built finished).mpr
      ⟨by decide +kernel, fits, together⟩⟩

/-- With a block for every entry, the older of two versions is not found. -/
theorem smallBlocks_miss_older_version :
    ∃ r file t, (RawSstableBuilder.make 4096).bind (·.addAll smallBlocks RawBlock.threeEntries) = some r ∧
      r.finish smallBlocks = some file ∧ make smallBlocks file = some t ∧
      (∀ e ∈ RawBlock.threeEntries, t.deps.filter.mayMatch e.key.serializeUserKey t.filterRep = true) ∧
      t.getKvEntry ⟨7, ⟨[1]⟩⟩ = some none ∧
      ¬ Answers {e | e ∈ RawBlock.threeEntries} ⟨[1]⟩ 7 none := by
  obtain ⟨r, file, built, finished⟩ :=
    @exists_finished smallBlocks RawBlock.threeEntries 4096 (by decide +kernel)
  have storable : ∀ e ∈ RawBlock.threeEntries, e.Storable := by decide
  obtain ⟨blocks, table⟩ :=
    finished_of_finish (by decide) (fun e mem => (storable e mem).encodable) built finished
  obtain ⟨_, made⟩ := table.made (by decide +kernel) (by decide) rfl
  obtain ⟨blocks', cut', fits⟩ := smallBlocks_fit
  obtain rfl := Option.some.inj (table.cut.symm.trans cut')
  have missed : (dataBlocks smallBlocks.opt.toOptions .fresh RawBlock.threeEntries).map
      (Sstable.searchEntry ⟨[1]⟩ 7) = some none := by
    decide +kernel
  rw [table.cut, Option.map_some] at missed
  have passes : ∀ e ∈ RawBlock.threeEntries, smallBlocks.filter.mayMatch e.key.serializeUserKey
      (SstableBuilder.filterAfter smallBlocks.filter none [] RawBlock.threeEntries) = true := by
    decide +kernel
  refine ⟨r, file, _, built, finished, made, passes, ?_, ?_⟩
  · exact (table.getKvEntry (by decide) (by decide) fits (fun _ => tagging_inverts) (by decide)
      (by decide +kernel)).trans missed
  · intro nothing
    exact absurd (nothing (KvEntry.brief 1 7 2) List.mem_cons_self rfl) (lt_irrefl 7)

end RawSstable

end FrenzyKV
