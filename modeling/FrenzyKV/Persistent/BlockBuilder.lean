import FrenzyKV.Persistent.Block
import FrenzyKV.Util.Options

/-! The incremental builder of one block (`block_builder` and `block_segment_builder` in
`persistent/block.cc`), on segments. A segment keeps its whole key; what the 16 bits of its length
field keep of it shows on the bytes. -/

namespace FrenzyKV

/-- `storageSize` is the length of `m_storage`, which starts with the block length field. -/
structure BlockBuilder where
  finished : List BlockSegment
  current : Option BlockSegment
  segCount : Nat
  storageSize : Nat

namespace BlockBuilder

def blockLengthBytesSize : Nat := 4

def fresh : BlockBuilder := ⟨[], none, 0, blockLengthBytesSize⟩

def isEmpty (b : BlockBuilder) : Bool := b.current.isNone

/-- Bytes that open a segment: the prefix length and the serialized user key. -/
def prefixBytes (e : KvEntry) : Nat := 2 + e.key.serializedUserKeyBytesSize

/-- Bytes of one item: its length, the number and the serialized value. -/
def itemBytes (e : KvEntry) : Nat := 4 + (seqBytesSize + e.value.serializedBytesSize)

/-- `block_builder::add`; no result means that the order assertion fails. -/
def add (opt : Options) (b : BlockBuilder) (e : KvEntry) : Option BlockBuilder :=
  match b.current with
  | none => some {
      finished := b.finished
      current := some ⟨e.userKey, [(e.seq, e.value)], true⟩
      segCount := b.segCount + 1
      storageSize := b.storageSize + prefixBytes e + itemBytes e }
  | some seg =>
    if e.userKey = seg.userKey then some {
      b with
      current := some { seg with items := seg.items ++ [(e.seq, e.value)] }
      storageSize := b.storageSize + itemBytes e }
    else if seg.userKey < e.userKey then
      let segCount := b.segCount + 1
      some {
        finished := b.finished ++ [seg]
        current := some ⟨e.userKey, [(e.seq, e.value)],
          (segCount + 1) % opt.maxBlockSegmentsNumber = 0⟩
        segCount
        -- four zero bytes end the previous segment
        storageSize := b.storageSize + 4 + prefixBytes e + itemBytes e }
    else none

/-- Entries added one after another. -/
def addAll (opt : Options) : BlockBuilder → List KvEntry → Option BlockBuilder
  | b, [] => some b
  | b, e :: es => (b.add opt e).bind fun b => b.addAll opt es

def finish (b : BlockBuilder) : Block := ⟨b.finished ++ b.current.toList⟩

def entries (b : BlockBuilder) : List KvEntry := b.finish.entries

structure Inv (b : BlockBuilder) : Prop where
  start : b.current = none → b.finished = []
  items : ∀ seg ∈ b.finish.segments, seg.items ≠ []
  ascending : b.finish.segments.Pairwise (·.userKey < ·.userKey)

theorem fresh_inv : fresh.Inv where
  start _ := rfl
  items := by simp [fresh, finish]
  ascending := by simp [fresh, finish]

@[simp] theorem entries_fresh : fresh.entries = [] := rfl

theorem isEmpty_iff {b : BlockBuilder} (inv : b.Inv) : b.isEmpty = true ↔ b.entries = [] := by
  rw [isEmpty, Option.isNone_iff_eq_none]
  constructor
  · intro none_current
    simp [entries, finish, Block.entries, none_current, inv.start none_current]
  · intro empty
    cases eq : b.current with
    | none => rfl
    | some seg =>
      have ne := inv.items seg (by simp [finish, eq])
      obtain ⟨item, items, itemsEq⟩ := List.exists_cons_of_ne_nil ne
      simp [entries, finish, Block.entries, eq, BlockSegment.entries, itemsEq] at empty

theorem finish_wf {b : BlockBuilder} (inv : b.Inv) (nonempty : b.entries ≠ []) : b.finish.Wf where
  nonempty := by
    intro empty
    exact nonempty (by simp [entries, Block.entries, empty])
  items := inv.items
  ascending := inv.ascending

variable {opt : Options} {b b' : BlockBuilder} {e : KvEntry}

theorem add_entries (added : b.add opt e = some b') : b'.entries = b.entries ++ [e.stored] := by
  rw [add] at added
  split at added
  · rename_i none_current
    obtain rfl := Option.some.inj added
    simp [entries, finish, Block.entries, none_current, BlockSegment.entries]
    rfl
  · rename_i seg current
    split_ifs at added with same larger
    · obtain rfl := Option.some.inj added
      simp only [entries, finish, Block.entries, current, BlockSegment.entries, Option.toList_some,
        List.flatMap_append, List.flatMap_singleton, List.map_append, List.append_assoc,
        List.map_singleton, ← same]
      rfl
    · obtain rfl := Option.some.inj added
      simp [entries, finish, Block.entries, current, BlockSegment.entries]
      rfl

theorem add_inv (inv : b.Inv) (added : b.add opt e = some b') : b'.Inv := by
  rw [add] at added
  split at added
  · rename_i none_current
    obtain rfl := Option.some.inj added
    have empty := inv.start none_current
    exact ⟨by simp, by simp [finish, empty], by simp [finish, empty]⟩
  · rename_i seg current
    have items := inv.items
    have ascending := inv.ascending
    simp only [finish, current, Option.toList_some] at items ascending
    split_ifs at added with same larger
    · obtain rfl := Option.some.inj added
      refine ⟨by simp, ?_, ?_⟩
      · intro s hs
        rcases List.mem_append.mp hs with hs | hs
        · exact items s (List.mem_append_left _ hs)
        · obtain rfl := List.mem_singleton.mp hs
          simp
      · simp only [finish, Option.toList_some]
        rw [List.pairwise_append] at ascending ⊢
        exact ⟨ascending.1, by simp, fun s hs x hx => by
          obtain rfl := List.mem_singleton.mp hx
          exact ascending.2.2 s hs seg (by simp)⟩
    · obtain rfl := Option.some.inj added
      refine ⟨by simp, ?_, ?_⟩
      · intro s hs
        rcases List.mem_append.mp hs with hs | hs
        · exact items s hs
        · obtain rfl := List.mem_singleton.mp hs
          simp
      · simp only [finish, Option.toList_some]
        rw [List.pairwise_append]
        refine ⟨ascending, by simp, fun s hs x hx => ?_⟩
        obtain rfl := List.mem_singleton.mp hx
        rcases List.mem_append.mp hs with hs | hs
        · exact ((List.pairwise_append.mp ascending).2.2 s hs seg (by simp)).trans larger
        · obtain rfl := List.mem_singleton.mp hs
          exact larger

theorem add_current (added : b.add opt e = some b') :
    ∃ seg, b'.current = some seg ∧ seg.userKey = e.userKey := by
  rw [add] at added
  cases current : b.current with
  | none =>
    rw [current] at added
    obtain rfl := Option.some.inj added
    exact ⟨_, rfl, rfl⟩
  | some seg =>
    rw [current] at added
    dsimp only at added
    by_cases same : e.userKey = seg.userKey
    · rw [if_pos same] at added
      obtain rfl := Option.some.inj added
      exact ⟨_, rfl, same.symm⟩
    · rw [if_neg same] at added
      by_cases larger : seg.userKey < e.userKey
      · rw [if_pos larger] at added
        obtain rfl := Option.some.inj added
        exact ⟨_, rfl, rfl⟩
      · rw [if_neg larger] at added
        cases added

/-- An entry that is not below what was added is accepted. -/
theorem add_isSome (opt : Options) (e : KvEntry) (inv : b.Inv)
    (above : ∀ x ∈ b.entries, x.userKey ≤ e.userKey) :
    ∃ b', b.add opt e = some b' := by
  rw [add]
  split
  · exact ⟨_, rfl⟩
  · rename_i seg current
    obtain ⟨item, items, itemsEq⟩ :=
      List.exists_cons_of_ne_nil (inv.items seg (by simp [finish, current]))
    have le : seg.userKey ≤ e.userKey :=
      above ⟨⟨item.1, seg.userKey⟩, item.2.stored⟩
        (by simp [entries, finish, Block.entries, current, BlockSegment.entries, itemsEq])
    split_ifs with same larger
    · exact ⟨_, rfl⟩
    · exact ⟨_, rfl⟩
    · exact absurd (lt_of_le_of_ne le (Ne.symm same)) larger

/-- The first segment is special. -/
theorem add_special (inv : b.Inv) (special : b.finish.segments.head?.all (·.special) = true)
    (added : b.add opt e = some b') : b'.finish.segments.head?.all (·.special) = true := by
  rw [add] at added
  cases current : b.current with
  | none =>
    rw [current] at added
    obtain rfl := Option.some.inj added
    rw [finish, inv.start current]
    rfl
  | some seg =>
    rw [current] at added
    dsimp only at added
    rw [finish, current, Option.toList_some] at special
    by_cases same : e.userKey = seg.userKey
    · rw [if_pos same] at added
      obtain rfl := Option.some.inj added
      rw [finish, Option.toList_some]
      cases finished : b.finished with
      | nil =>
        rw [finished] at special
        exact special
      | cons first rest =>
        rw [finished] at special
        exact special
    · rw [if_neg same] at added
      by_cases larger : seg.userKey < e.userKey
      · rw [if_pos larger] at added
        obtain rfl := Option.some.inj added
        rw [finish, Option.toList_some]
        cases finished : b.finished with
        | nil =>
          rw [finished] at special
          exact special
        | cons first rest =>
          rw [finished] at special
          exact special
      · rw [if_neg larger] at added
        cases added

theorem addAll_entries {es : List KvEntry} (added : b.addAll opt es = some b') :
    b'.entries = b.entries ++ es.map KvEntry.stored := by
  induction es generalizing b with
  | nil =>
    obtain rfl := Option.some.inj added
    exact (List.append_nil _).symm
  | cons e es ih =>
    obtain ⟨next, first, later⟩ := Option.bind_eq_some_iff.mp added
    rw [ih later, add_entries first, List.append_assoc, List.map_cons, List.singleton_append]

/-- Sorted entries are accepted one after another. -/
theorem addAll_isSome (opt : Options) {es : List KvEntry} (inv : b.Inv)
    (sorted : (b.entries ++ es).Pairwise (·.userKey ≤ ·.userKey)) :
    ∃ b', b.addAll opt es = some b' := by
  induction es generalizing b with
  | nil => exact ⟨b, rfl⟩
  | cons e es ih =>
    have cross := (List.pairwise_append.mp sorted).2.2
    obtain ⟨next, added⟩ := add_isSome opt e inv fun x mem => cross x mem e List.mem_cons_self
    have again : (next.entries ++ es).Pairwise (·.userKey ≤ ·.userKey) := by
      rw [add_entries added]
      simpa [List.pairwise_append, List.pairwise_cons] using sorted
    obtain ⟨b', later⟩ := ih (add_inv inv added) again
    exact ⟨b', by rw [addAll, added, Option.bind_some, later]⟩

theorem addAll_inv {es : List KvEntry} (inv : b.Inv)
    (special : b.finish.segments.head?.all (·.special) = true) (added : b.addAll opt es = some b') :
    b'.Inv ∧ b'.finish.segments.head?.all (·.special) = true := by
  induction es generalizing b with
  | nil =>
    obtain rfl := Option.some.inj added
    exact ⟨inv, special⟩
  | cons e es ih =>
    obtain ⟨next, first, later⟩ := Option.bind_eq_some_iff.mp added
    exact ih (add_inv inv first) (add_special inv special first) later

end BlockBuilder

end FrenzyKV
