import FrenzyKV.Db.KvEntry
import Mathlib.Data.List.Nodup
import Mathlib.Data.List.SplitBy

/-! Blocks at the level of their segments, and the lookup in one block
(`persistent/block.cc`). -/

namespace FrenzyKV

open Bytes

/-- All versions of one user key that stand together in a block. `special` marks the
segments that the special segment offsets (SBSO) of the block point at. -/
structure BlockSegment where
  userKey : UserKey
  items : List (Nat × KvUserValue)
  special : Bool
deriving DecidableEq, Repr

namespace BlockSegment

/-- `entries_from_block_segment`. -/
def entries (seg : BlockSegment) : List KvEntry :=
  seg.items.map fun item => ⟨⟨item.1, seg.userKey⟩, item.2.stored⟩

theorem userKey_of_mem {seg : BlockSegment} {e : KvEntry} (mem : e ∈ seg.entries) :
    e.userKey = seg.userKey := by
  obtain ⟨item, -, rfl⟩ := List.mem_map.mp mem
  rfl

end BlockSegment

structure Block where
  segments : List BlockSegment
deriving DecidableEq, Repr

namespace Block

def entries (b : Block) : List KvEntry := b.segments.flatMap BlockSegment.entries

/-- The runs of segments between one special segment and the next. -/
def intervals (b : Block) : List (List BlockSegment) :=
  b.segments.splitBy fun _ next => !next.special

@[simp] theorem flatten_intervals (b : Block) : b.intervals.flatten = b.segments :=
  List.flatten_splitBy _ _

def startsAtOrBefore (segs : List BlockSegment) (uk : UserKey) : Bool :=
  segs.head?.any (·.userKey ≤ uk)

def startsAfter (segs : List BlockSegment) (uk : UserKey) : Bool :=
  segs.head?.any (uk < ·.userKey)

def getFrom (uk : UserKey) : List (List BlockSegment) → Option BlockSegment
  | [] => none
  | [last] => if startsAtOrBefore last uk then last.find? (·.userKey = uk) else none
  | run :: next :: rest =>
    match if startsAtOrBefore run uk && startsAfter next uk
      then run.find? (·.userKey = uk) else none with
    | some seg => some seg
    | none => getFrom uk (next :: rest)

/-- `block::get`. -/
def get (b : Block) (uk : UserKey) : Option BlockSegment :=
  if startsAtOrBefore b.segments uk then getFrom uk b.intervals else none

/-- What `block_builder` makes of entries that ascend. -/
structure Wf (b : Block) : Prop where
  nonempty : b.segments ≠ []
  items : ∀ seg ∈ b.segments, seg.items ≠ []
  ascending : b.segments.Pairwise (·.userKey < ·.userKey)

theorem Wf.exists_first {b : Block} (wf : b.Wf) :
    ∃ seg segs e es, b.segments = seg :: segs ∧ b.entries = e :: es ∧ e.userKey = seg.userKey := by
  obtain ⟨seg, segs, eq⟩ := List.exists_cons_of_ne_nil wf.nonempty
  obtain ⟨item, items, eq'⟩ := List.exists_cons_of_ne_nil (wf.items seg (by simp [eq]))
  refine ⟨seg, segs, ⟨⟨item.1, seg.userKey⟩, item.2.stored⟩,
    (items.map fun item => ⟨⟨item.1, seg.userKey⟩, item.2.stored⟩) ++
      segs.flatMap BlockSegment.entries, eq, ?_, rfl⟩
  simp [entries, eq, BlockSegment.entries, eq']

theorem Wf.exists_entry {b : Block} (wf : b.Wf) {seg : BlockSegment} (mem : seg ∈ b.segments) :
    ∃ e ∈ seg.entries, e.userKey = seg.userKey := by
  obtain ⟨item, items, eq⟩ := List.exists_cons_of_ne_nil (wf.items seg mem)
  refine ⟨⟨⟨item.1, seg.userKey⟩, item.2.stored⟩, ?_, rfl⟩
  rw [BlockSegment.entries, eq]
  exact List.mem_cons_self

/-- The segment of a key holds all its entries. -/
theorem Wf.mem_segment {b : Block} (wf : b.Wf) {seg : BlockSegment} (mem : seg ∈ b.segments)
    {e : KvEntry} (inside : e ∈ b.entries) (key : e.userKey = seg.userKey) : e ∈ seg.entries := by
  obtain ⟨other, there, inside⟩ := List.mem_flatMap.mp inside
  have distinct : (b.segments.map BlockSegment.userKey).Nodup :=
    List.pairwise_map.mpr (wf.ascending.imp ne_of_lt)
  have keys : other.userKey = seg.userKey := (BlockSegment.userKey_of_mem inside).symm.trans key
  rw [← List.inj_on_of_nodup_map distinct there mem keys]
  exact inside

/-- The entries of a key are those of its segment, in order. -/
theorem Wf.filter_entries {b : Block} (wf : b.Wf) {seg : BlockSegment} (mem : seg ∈ b.segments) :
    b.entries.filter (·.userKey = seg.userKey) = seg.entries := by
  obtain ⟨front, back, segments⟩ := List.append_of_mem mem
  have ascending := wf.ascending
  rw [segments, List.pairwise_append, List.pairwise_cons] at ascending
  have others : ∀ segs : List BlockSegment, (∀ other ∈ segs, other.userKey ≠ seg.userKey) →
      (segs.flatMap BlockSegment.entries).filter (·.userKey = seg.userKey) = [] := by
    intro segs differ
    rw [List.filter_eq_nil_iff]
    intro e inside same
    obtain ⟨other, there, inside⟩ := List.mem_flatMap.mp inside
    rw [BlockSegment.userKey_of_mem inside] at same
    exact differ other there (of_decide_eq_true same)
  have own : seg.entries.filter (·.userKey = seg.userKey) = seg.entries :=
    List.filter_eq_self.mpr fun e inside => decide_eq_true (BlockSegment.userKey_of_mem inside)
  rw [entries, segments, List.flatMap_append, List.flatMap_cons, List.filter_append,
    List.filter_append, own, others front fun other there =>
      (ascending.2.2 other there seg List.mem_cons_self).ne,
    others back fun other there => (ascending.2.1.1 other there).ne', List.nil_append, List.append_nil]

theorem getFrom_eq_some {uk : UserKey} {runs : List (List BlockSegment)} {seg : BlockSegment}
    (found : getFrom uk runs = some seg) : seg ∈ runs.flatten ∧ seg.userKey = uk := by
  induction runs with
  | nil => simp [getFrom] at found
  | cons run rest ih =>
    have hit : ∀ {c : Bool}, (if c then run.find? (·.userKey = uk) else none) = some seg →
        seg ∈ run ∧ seg.userKey = uk := by
      intro c eq
      cases c
      · simp at eq
      · exact ⟨List.mem_of_find?_eq_some eq, by simpa using List.find?_some eq⟩
    cases rest with
    | nil =>
      obtain ⟨mem, key⟩ := hit found
      exact ⟨by simpa using mem, key⟩
    | cons next rest =>
      rw [getFrom] at found
      split at found
      · rename_i shot
        obtain rfl := Option.some.inj found
        obtain ⟨mem, key⟩ := hit shot
        exact ⟨List.mem_flatten.mpr ⟨run, List.mem_cons_self, mem⟩, key⟩
      · obtain ⟨mem, key⟩ := ih found
        exact ⟨by rw [List.flatten_cons]; exact List.mem_append_right _ mem, key⟩

/-- A run that starts above the key holds only larger keys. -/
theorem lt_of_not_startsAtOrBefore {uk : UserKey} {run : List BlockSegment} (nonempty : run ≠ [])
    (ascending : run.Pairwise (·.userKey < ·.userKey)) (late : startsAtOrBefore run uk = false) :
    ∀ seg ∈ run, uk < seg.userKey := by
  obtain ⟨first, run, rfl⟩ := List.exists_cons_of_ne_nil nonempty
  have start : uk < first.userKey := by simpa [startsAtOrBefore] using late
  intro seg mem
  rcases List.mem_cons.mp mem with rfl | mem
  · exact start
  · exact start.trans (List.rel_of_pairwise_cons ascending mem)

theorem ne_of_find_eq_none {uk : UserKey} {run : List BlockSegment} (missed : run.find? (·.userKey = uk) = none) :
    ∀ seg ∈ run, seg.userKey ≠ uk := by
  intro seg mem
  simpa using List.find?_eq_none.mp missed seg mem

theorem getFrom_eq_none {uk : UserKey} {runs : List (List BlockSegment)}
    (nonempty : ∀ run ∈ runs, run ≠ [])
    (ascending : runs.flatten.Pairwise (·.userKey < ·.userKey))
    (missed : getFrom uk runs = none) : ∀ seg ∈ runs.flatten, seg.userKey ≠ uk := by
  induction runs with
  | nil => simp
  | cons run rest ih =>
    have runNe := nonempty run List.mem_cons_self
    rw [List.flatten_cons, List.pairwise_append] at ascending
    obtain ⟨runAsc, restAsc, cross⟩ := ascending
    cases rest with
    | nil =>
      intro seg mem
      have mem' : seg ∈ run := by simpa using mem
      rw [getFrom] at missed
      cases start : startsAtOrBefore run uk with
      | true => exact ne_of_find_eq_none (by simpa [start] using missed) seg mem'
      | false => exact (lt_of_not_startsAtOrBefore runNe runAsc start seg mem').ne'
    | cons next rest =>
      have nextNe := nonempty next (by simp)
      rw [getFrom] at missed
      split at missed
      · simp at missed
      · rename_i shot
        have tail := ih (fun r hr => nonempty r (List.mem_cons_of_mem _ hr)) restAsc missed
        intro seg mem
        rw [List.flatten_cons] at mem
        rcases List.mem_append.mp mem with here | there
        · cases start : startsAtOrBefore run uk with
          | false => exact (lt_of_not_startsAtOrBefore runNe runAsc start seg here).ne'
          | true =>
            cases stop : startsAfter next uk with
            | true => exact ne_of_find_eq_none (by simpa [start, stop] using shot) seg here
            | false =>
              -- the next run starts at or before the key, and this run ends before it
              obtain ⟨first, others, rfl⟩ := List.exists_cons_of_ne_nil nextNe
              have early : first.userKey ≤ uk := by simpa [startsAfter] using stop
              have lt := cross seg here first (by simp)
              exact (lt.trans_le early).ne
        · exact tail seg there

theorem get_eq_some {b : Block} {uk : UserKey} {seg : BlockSegment}
    (found : b.get uk = some seg) : seg ∈ b.segments ∧ seg.userKey = uk := by
  rw [get] at found
  split at found
  · simpa using getFrom_eq_some found
  · simp at found

theorem get_eq_none {b : Block} (wf : b.Wf) {uk : UserKey} (missed : b.get uk = none) :
    ∀ seg ∈ b.segments, seg.userKey ≠ uk := by
  rw [get] at missed
  split at missed
  · have runs := getFrom_eq_none (fun run mem => List.ne_nil_of_mem_splitBy mem)
      (by simpa using wf.ascending) missed
    simpa using runs
  · rename_i late
    intro seg mem
    exact (lt_of_not_startsAtOrBefore wf.nonempty wf.ascending (Bool.eq_false_of_not_eq_true late) seg mem).ne'

theorem ne_of_get_eq_none {b : Block} (wf : b.Wf) {uk : UserKey} (missed : b.get uk = none) :
    ∀ e ∈ b.entries, e.userKey ≠ uk := by
  intro e mem
  obtain ⟨seg, there, inside⟩ := List.mem_flatMap.mp mem
  rw [BlockSegment.userKey_of_mem inside]
  exact get_eq_none wf missed seg there

end Block

end FrenzyKV
