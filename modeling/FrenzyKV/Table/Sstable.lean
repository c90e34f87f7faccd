import FrenzyKV.Persistent.Block
import FrenzyKV.Util.BloomFilter

/-! Tables and the point lookup through their blocks (`table/sstable.cc`). -/

namespace FrenzyKV

open Bytes

structure Sstable where
  blocks : List Block
  firstUk : UserKey
  lastUk : UserKey
  filterRep : ByteString
deriving DecidableEq, Repr, Inhabited

namespace Sstable

def entries (t : Sstable) : List KvEntry := t.blocks.flatMap Block.entries

/-- The entries as a set. -/
def contents (t : Sstable) : Set KvEntry := {e | e ∈ t.entries}

def firstUserKeyWithoutSeq (t : Sstable) : SequencedKey := ⟨0, t.firstUk⟩
def lastUserKeyWithoutSeq (t : Sstable) : SequencedKey := ⟨0, t.lastUk⟩

def disjoint (t other : Sstable) : Bool :=
  let al := t.firstUserKeyWithoutSeq
  let ar := t.lastUserKeyWithoutSeq
  let bl := other.firstUserKeyWithoutSeq
  let br := other.lastUserKeyWithoutSeq
  (al < bl && ar < bl) || (bl < al && br < al)

def overlapped (t other : Sstable) : Bool := !t.disjoint other

/-- The walk of `get_segment` over adjacent blocks: the first block that starts at or
before the key and whose successor starts after it, else the last block. -/
def searchBlocks (uk : UserKey) : List Block → Option BlockSegment
  | [] => none
  | [last] => if Block.startsAtOrBefore last.segments uk then last.get uk else none
  | blk0 :: blk1 :: rest =>
    if Block.startsAtOrBefore blk0.segments uk && Block.startsAfter blk1.segments uk
    then blk0.get uk
    else searchBlocks uk (blk1 :: rest)

def getSegment (filter : FilterPolicy) (t : Sstable) (k : SequencedKey) : Option BlockSegment :=
  if filter.mayMatch k.serializeUserKey t.filterRep then searchBlocks k.userKey t.blocks else none

/-- `sstable::get_kv_entry` on blocks that were read: the last version in the segment that is not above `k.seq`. -/
def getKvEntry (filter : FilterPolicy) (t : Sstable) (k : SequencedKey) : Option KvEntry :=
  (t.getSegment filter k).bind fun seg => seg.entries.reverse.find? (·.seq ≤ k.seq)

/-- `get_entries_from_sstable_at_once`, which lists backwards by default. -/
def getEntriesAtOnce (t : Sstable) : List KvEntry := t.entries.reverse

/-- What `sstable_builder` makes of entries that ascend. -/
structure Wf (filter : FilterPolicy) (t : Sstable) : Prop where
  nonempty : t.blocks ≠ []
  blocks : ∀ b ∈ t.blocks, b.Wf
  ascending : t.entries.Pairwise (·.key < ·.key)
  passes : ∀ e ∈ t.entries, filter.mayMatch e.key.serializeUserKey t.filterRep = true
  first : t.entries.head?.map KvEntry.userKey = some t.firstUk
  last : t.entries.getLast?.map KvEntry.userKey = some t.lastUk

/-- Every entry from a block on has at least the first user key of the block. -/
theorem first_le_of_mem {b : Block} {rest : List Block} (wf : b.Wf)
    (sorted : ((b :: rest).flatMap Block.entries).Pairwise (·.key ≤ ·.key)) {seg : BlockSegment}
    (head : b.segments.head? = some seg) {x : KvEntry}
    (mem : x ∈ (b :: rest).flatMap Block.entries) : seg.userKey ≤ x.userKey := by
  obtain ⟨first, segs, e, es, segsEq, entriesEq, key⟩ := wf.exists_first
  obtain rfl : first = seg := by simpa [segsEq] using head
  rw [List.flatMap_cons, entriesEq, List.cons_append] at sorted mem
  rcases List.mem_cons.mp mem with rfl | mem
  · exact key.ge
  · rw [← key]
    exact SequencedKey.userKey_mono (List.rel_of_pairwise_cons sorted mem)

/-- A key below the start of a block is in none of the blocks from there on. -/
theorem ne_of_startsAfter {b : Block} {rest : List Block} {uk : UserKey} (wf : b.Wf)
    (sorted : ((b :: rest).flatMap Block.entries).Pairwise (·.key ≤ ·.key))
    (late : Block.startsAfter b.segments uk = true) :
    ∀ e ∈ (b :: rest).flatMap Block.entries, e.userKey ≠ uk := by
  intro e mem
  obtain ⟨first, segs, _, _, segsEq, _, _⟩ := wf.exists_first
  have less : uk < first.userKey := by simpa [Block.startsAfter, segsEq] using late
  have head : b.segments.head? = some first := by simp [segsEq]
  exact (less.trans_le (first_le_of_mem wf sorted head mem)).ne'

theorem startsAfter_of_not_startsAtOrBefore {b : Block} {uk : UserKey} (wf : b.Wf)
    (late : Block.startsAtOrBefore b.segments uk = false) : Block.startsAfter b.segments uk = true := by
  obtain ⟨first, segs, _, _, segsEq, _, _⟩ := wf.exists_first
  simpa [Block.startsAtOrBefore, Block.startsAfter, segsEq] using late

/-- The segment that is found stands in the last block that holds the key. -/
theorem searchBlocks_eq_some {uk : UserKey} {blocks : List Block} {seg : BlockSegment}
    (wf : ∀ b ∈ blocks, b.Wf) (sorted : (blocks.flatMap Block.entries).Pairwise (·.key ≤ ·.key))
    (found : searchBlocks uk blocks = some seg) :
    seg.userKey = uk ∧ ∃ front b back, blocks = front ++ b :: back ∧ seg ∈ b.segments ∧
      ∀ e ∈ back.flatMap Block.entries, e.userKey ≠ uk := by
  induction blocks with
  | nil => simp [searchBlocks] at found
  | cons b rest ih =>
    cases rest with
    | nil =>
      rw [searchBlocks] at found
      split at found
      · obtain ⟨mem, key⟩ := Block.get_eq_some found
        exact ⟨key, [], b, [], rfl, mem, by simp⟩
      · simp at found
    | cons b' rest =>
      have wf' : ∀ x ∈ b' :: rest, x.Wf := fun x hx => wf x (List.mem_cons_of_mem _ hx)
      have sorted' : ((b' :: rest).flatMap Block.entries).Pairwise (·.key ≤ ·.key) := by
        rw [List.flatMap_cons, List.pairwise_append] at sorted
        exact sorted.2.1
      rw [searchBlocks] at found
      split at found
      · rename_i shot
        obtain ⟨mem, key⟩ := Block.get_eq_some found
        have late := ne_of_startsAfter (wf' b' List.mem_cons_self) sorted' (Bool.and_eq_true_iff.mp shot).2
        exact ⟨key, [], b, b' :: rest, rfl, mem, late⟩
      · obtain ⟨key, front, x, back, eq, mem, absent⟩ := ih wf' sorted' found
        exact ⟨key, b :: front, x, back, by rw [eq]; rfl, mem, absent⟩

theorem searchBlocks_eq_none {uk : UserKey} {blocks : List Block} (wf : ∀ b ∈ blocks, b.Wf)
    (sorted : (blocks.flatMap Block.entries).Pairwise (·.key ≤ ·.key))
    (missed : searchBlocks uk blocks = none) :
    ∀ e ∈ blocks.flatMap Block.entries, e.userKey ≠ uk := by
  induction blocks with
  | nil => simp
  | cons b rest ih =>
    have hb := wf b List.mem_cons_self
    cases rest with
    | nil =>
      rw [searchBlocks] at missed
      cases start : Block.startsAtOrBefore b.segments uk with
      | false => exact ne_of_startsAfter hb sorted (startsAfter_of_not_startsAtOrBefore hb start)
      | true => simpa using Block.ne_of_get_eq_none hb (by simpa [start] using missed)
    | cons b' rest =>
      have hb' := wf b' (by simp)
      have sorted' := sorted
      rw [List.flatMap_cons, List.pairwise_append] at sorted'
      obtain ⟨-, restAsc, cross⟩ := sorted'
      obtain ⟨first, segs, x, xs, segsEq, entriesEq, key⟩ := hb'.exists_first
      intro e he
      rw [List.flatMap_cons] at he
      rw [searchBlocks] at missed
      split at missed
      · rename_i shot
        obtain ⟨-, stop⟩ := Bool.and_eq_true_iff.mp shot
        rcases List.mem_append.mp he with here | there
        · exact Block.ne_of_get_eq_none hb missed e here
        · exact ne_of_startsAfter hb' restAsc stop e there
      · rename_i noShot
        have rest_absent := ih (fun x hx => wf x (List.mem_cons_of_mem _ hx)) restAsc missed
        rcases List.mem_append.mp he with here | there
        · cases start : Block.startsAtOrBefore b.segments uk with
          | false =>
            exact ne_of_startsAfter hb sorted (startsAfter_of_not_startsAtOrBefore hb start) e
              (by rw [List.flatMap_cons]; exact List.mem_append_left _ here)
          | true =>
            have le : first.userKey ≤ uk := by
              simpa [start, Block.startsAfter, segsEq] using noShot
            -- an entry of the key here would force one at the start of the next block
            intro same
            have mem : x ∈ (b' :: rest).flatMap Block.entries := by simp [entriesEq]
            have le' := SequencedKey.userKey_mono (cross e here x mem)
            change e.userKey ≤ x.userKey at le'
            rw [same, key] at le'
            exact rest_absent x mem (key.trans (le_antisymm le le'))
        · exact rest_absent e there

/-- The versions in a segment are searched from the newest one on. -/
theorem answers_segment {seg : BlockSegment} (sorted : seg.entries.Pairwise (·.key ≤ ·.key)) (s : Nat) :
    Answers {x | x ∈ seg.entries} seg.userKey s (seg.entries.reverse.find? (·.seq ≤ s)) := by
  have keys : ∀ x ∈ seg.entries.reverse, x.userKey = seg.userKey :=
    fun x mem => BlockSegment.userKey_of_mem (List.mem_reverse.mp mem)
  have numbers : seg.entries.reverse.Pairwise fun a b => b.seq ≤ a.seq := by
    rw [List.pairwise_reverse]
    refine sorted.imp_of_mem fun {a b} memA memB le => ?_
    have same : a.userKey = b.userKey :=
      (BlockSegment.userKey_of_mem memA).trans (BlockSegment.userKey_of_mem memB).symm
    exact (SequencedKey.le_iff.mp le).elim (fun lt => absurd same lt.ne) fun both => both.2
  have answers := Versioned.answers_find keys numbers s
  simp only [List.mem_reverse] at answers
  exact answers

theorem sorted_segment {blocks : List Block} {b : Block} {seg : BlockSegment}
    (sorted : (blocks.flatMap Block.entries).Pairwise (·.key ≤ ·.key)) (hb : b ∈ blocks)
    (mem : seg ∈ b.segments) : seg.entries.Pairwise (·.key ≤ ·.key) :=
  (List.pairwise_flatMap.mp ((List.pairwise_flatMap.mp sorted).1 b hb)).1 seg mem

variable {filter : FilterPolicy} {t : Sstable} {k : SequencedKey} {e : KvEntry}

/-- A lookup whose number is not below any stored version finds the newest version. -/
theorem isNewest_of_getKvEntry (wf : t.Wf filter)
    (top : ∀ x ∈ t.entries, x.userKey = k.userKey → x.seq ≤ k.seq)
    (found : t.getKvEntry filter k = some e) : IsNewest t.contents k.userKey e := by
  have sorted := wf.ascending.imp le_of_lt
  obtain ⟨seg, segFound, entryFound⟩ := Option.bind_eq_some_iff.mp found
  rw [getSegment] at segFound
  split at segFound
  · obtain ⟨key, front, b, back, eq, segMem, absent⟩ := searchBlocks_eq_some wf.blocks sorted segFound
    have hb : b ∈ t.blocks := eq ▸ List.mem_append_right front List.mem_cons_self
    have answers := answers_segment (sorted_segment sorted hb segMem) k.seq
    rw [entryFound] at answers
    obtain ⟨⟨inside, _⟩, entryKey, newest⟩ := answers
    have inBlock : e ∈ b.entries := List.mem_flatMap.mpr ⟨seg, segMem, inside⟩
    refine ⟨List.mem_flatMap.mpr ⟨b, hb, inBlock⟩, entryKey.trans key, fun x hx xKey => ?_⟩
    have ordered := sorted
    rw [entries, eq, List.flatMap_append, List.flatMap_cons, List.pairwise_append] at ordered
    change x ∈ t.blocks.flatMap Block.entries at hx
    rw [eq, List.flatMap_append, List.flatMap_cons] at hx
    rcases List.mem_append.mp hx with before | there
    · have le := ordered.2.2 x before e (List.mem_append_left _ inBlock)
      rcases SequencedKey.le_iff.mp le with lt | ⟨-, le⟩
      · exact absurd (xKey.trans (entryKey.trans key).symm) lt.ne
      · exact le
    · rcases List.mem_append.mp there with here | after
      · have inSegment := (wf.blocks b hb).mem_segment segMem here (xKey.trans key.symm)
        have old : x.seq ≤ k.seq := top x (List.mem_flatMap.mpr ⟨b, hb, here⟩) xKey
        exact newest x ⟨inSegment, old⟩ (xKey.trans key.symm)
      · exact absurd xKey (absent x after)
  · simp at segFound

theorem absent_of_getKvEntry (wf : t.Wf filter)
    (top : ∀ x ∈ t.entries, x.userKey = k.userKey → x.seq ≤ k.seq)
    (missed : t.getKvEntry filter k = none) : ∀ x ∈ t.entries, x.userKey ≠ k.userKey := by
  have sorted := wf.ascending.imp le_of_lt
  intro x hx same
  have rep : x.key.serializeUserKey = k.serializeUserKey := by
    simp only [SequencedKey.serializeUserKey]
    rw [show x.key.userKey = k.userKey from same]
  have pass := wf.passes x hx
  rw [rep] at pass
  rw [getKvEntry, getSegment, if_pos pass] at missed
  cases found : searchBlocks k.userKey t.blocks with
  | none => exact searchBlocks_eq_none wf.blocks sorted found x hx same
  | some seg =>
    obtain ⟨key, front, b, back, eq, segMem, -⟩ := searchBlocks_eq_some wf.blocks sorted found
    have hb : b ∈ t.blocks := eq ▸ List.mem_append_right front List.mem_cons_self
    rw [found, Option.bind_some, List.find?_eq_none] at missed
    obtain ⟨first, mem, firstKey⟩ := (wf.blocks b hb).exists_entry segMem
    have le : first.seq ≤ k.seq :=
      top first (List.mem_flatMap.mpr ⟨b, hb, List.mem_flatMap.mpr ⟨seg, segMem, mem⟩⟩)
        (firstKey.trans key)
    exact missed first (List.mem_reverse.mpr mem) (by simpa using le)

end Sstable

end FrenzyKV
