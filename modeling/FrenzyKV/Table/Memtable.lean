import FrenzyKV.Math.SkipList
import FrenzyKV.Util.Options
import FrenzyKV.Util.WriteBatch

/-! The memtable: a bounded skip list of entries (`table/memtable.cc`). -/

namespace FrenzyKV

structure Memtable where
  boundSizeBytes : Nat
  sizeBytes : Nat
  list : SkipList SequencedKey KvUserValue

namespace Memtable

def make (opt : Options) : Memtable := ⟨opt.memoryPageBytes, 0, SkipList.empty⟩

def couldFitIn (m : Memtable) (b : WriteBatch) : Bool :=
  b.serializedSize + m.sizeBytes ≤ m.boundSizeBytes

/-- `insert_impl`. -/
def insertEntry (replace : Bool) (m : Memtable) (e : KvEntry) : Memtable :=
  { m with
    sizeBytes := m.sizeBytes + e.serializedBytesSize
    list := m.list.insert replace e.key e.value }

def ofEntries (opt : Options) (es : List KvEntry) : Memtable :=
  es.foldl (insertEntry true) (make opt)

/-- `memtable::insert`; no result stands for the out-of-range error, which changes nothing. -/
def insert (replace : Bool) (m : Memtable) (b : WriteBatch) : Option Memtable :=
  if m.couldFitIn b then some (b.entries.foldl (insertEntry replace) m) else none

/-- `memtable::get`. -/
def get (m : Memtable) (k : SequencedKey) : Option KvEntry :=
  (m.list.findLastLessEqual k).bind fun found =>
    if found.1.userKey = k.userKey then some ⟨found.1, found.2⟩ else none

def isEmpty (m : Memtable) : Bool := m.list.isEmpty

/-- `get_storage`, the entries in ascending order. -/
def storage (m : Memtable) : List KvEntry := m.list.items.map fun item => ⟨item.1, item.2⟩

def contents (m : Memtable) : Set KvEntry := {e | e ∈ m.storage}

theorem mem_storage {m : Memtable} {e : KvEntry} :
    e ∈ m.storage ↔ (e.key, e.value) ∈ m.list.items := by
  simp only [storage, List.mem_map]
  constructor
  · rintro ⟨item, mem, rfl⟩
    exact mem
  · exact fun mem => ⟨_, mem, rfl⟩

theorem storage_ascending (m : Memtable) : m.storage.Pairwise (·.key < ·.key) :=
  List.pairwise_map.mpr m.list.ascending

@[simp] theorem storage_make (opt : Options) : (make opt).storage = [] := rfl

/-- The lookup returns the largest number of the key that is not above the query. -/
theorem get_eq_some {m : Memtable} {k : SequencedKey} {e : KvEntry} (found : m.get k = some e) :
    e ∈ m.storage ∧ e.userKey = k.userKey ∧ e.seq ≤ k.seq ∧
      ∀ x ∈ m.storage, x.userKey = k.userKey → x.seq ≤ k.seq → x.seq ≤ e.seq := by
  obtain ⟨item, last, eq⟩ := Option.bind_eq_some_iff.mp found
  obtain ⟨mem, le, top⟩ := SkipList.findLastLessEqual_eq_some.mp last
  split at eq
  · rename_i same
    obtain rfl := Option.some.inj eq
    refine ⟨mem_storage.mpr mem, same, ?_, fun x hx key below => ?_⟩
    · rcases SequencedKey.le_iff.mp le with lt | ⟨-, le⟩
      · exact absurd same lt.ne
      · exact le
    · have le' := top _ (mem_storage.mp hx) (SequencedKey.le_iff.mpr (Or.inr ⟨key, below⟩))
      rcases SequencedKey.le_iff.mp le' with lt | ⟨-, le⟩
      · exact absurd (key.trans same.symm) lt.ne
      · exact le
  · simp at eq

theorem get_eq_none {m : Memtable} {k : SequencedKey} (missed : m.get k = none) :
    ∀ x ∈ m.storage, x.userKey = k.userKey → k.seq < x.seq := by
  intro x hx key
  by_contra below
  have le : x.key ≤ k := SequencedKey.le_iff.mpr (Or.inr ⟨key, not_lt.mp below⟩)
  cases last : m.list.findLastLessEqual k with
  | none => exact SkipList.findLastLessEqual_eq_none.mp last _ (mem_storage.mp hx) le
  | some item =>
    obtain ⟨-, itemLe, top⟩ := SkipList.findLastLessEqual_eq_some.mp last
    have lower := SequencedKey.userKey_mono (top _ (mem_storage.mp hx) le)
    have upper := SequencedKey.userKey_mono itemLe
    have same : item.1.userKey = k.userKey :=
      le_antisymm upper (by rw [← key]; exact lower)
    simp [get, last, same] at missed

theorem foldl_insertEntry_sizeBytes (replace : Bool) (m : Memtable) (es : List KvEntry) :
    (es.foldl (insertEntry replace) m).sizeBytes =
      m.sizeBytes + (es.map KvEntry.serializedBytesSize).sum := by
  induction es generalizing m with
  | nil => simp
  | cons e es ih => simp [ih, insertEntry, Nat.add_assoc]

theorem mem_of_mem_foldl_insertEntry {replace : Bool} {m : Memtable} {es : List KvEntry}
    {e : KvEntry} (mem : e ∈ (es.foldl (insertEntry replace) m).storage) :
    e ∈ es ∨ e ∈ m.storage := by
  induction es generalizing m with
  | nil => exact Or.inr mem
  | cons x es ih =>
    rcases ih (m := insertEntry replace m x) mem with later | earlier
    · exact Or.inl (List.mem_cons_of_mem _ later)
    · rcases SkipList.mem_insertItem (mem_storage.mp earlier) with eq | old
      · have : e = x := by
          cases e
          cases x
          simpa using eq
        exact Or.inl (this ▸ List.mem_cons_self)
      · exact Or.inr (mem_storage.mpr old)

theorem mem_of_mem_insert {replace : Bool} {m m' : Memtable} {b : WriteBatch} {e : KvEntry}
    (inserted : m.insert replace b = some m') (mem : e ∈ m'.storage) :
    e ∈ b.entries ∨ e ∈ m.storage := by
  rw [insert] at inserted
  split at inserted
  · obtain rfl := Option.some.inj inserted
    exact mem_of_mem_foldl_insertEntry mem
  · simp at inserted

/-- Every sequenced key that was there or is inserted is there afterwards. -/
theorem key_mem_foldl_insertEntry (replace : Bool) {m : Memtable} {es : List KvEntry}
    {e : KvEntry} (mem : e ∈ es ∨ e ∈ m.storage) :
    ∃ e' ∈ (es.foldl (insertEntry replace) m).storage, e'.key = e.key := by
  induction es generalizing m e with
  | nil =>
    rcases mem with mem | mem
    · simp at mem
    · exact ⟨e, mem, rfl⟩
  | cons x es ih =>
    have keep : ∀ {w}, (e.key, w) ∈ (m.list.insert replace x.key x.value).items →
        ∃ e' ∈ ((x :: es).foldl (insertEntry replace) m).storage, e'.key = e.key := by
      intro w inside
      exact ih (m := insertEntry replace m x) (e := ⟨e.key, w⟩) (Or.inr (mem_storage.mpr inside))
    rcases mem with mem | mem
    · rcases List.mem_cons.mp mem with rfl | mem
      · obtain ⟨w, hw⟩ := SkipList.key_mem_insertItem replace e.key e.value m.list.items
        exact keep hw
      · exact ih (Or.inl mem)
    · obtain ⟨w, hw⟩ := SkipList.key_mem_insertItem_of_mem replace x.key x.value
        (mem_storage.mp mem)
      exact keep hw

/-- Where keys identify entries, the contents grow by exactly the inserted entries. -/
theorem mem_foldl_insertEntry_iff {replace : Bool} {m : Memtable} {es : List KvEntry}
    (unique : ∀ x y, x ∈ es ∨ x ∈ m.storage → y ∈ es ∨ y ∈ m.storage → x.key = y.key → x = y)
    {e : KvEntry} : e ∈ (es.foldl (insertEntry replace) m).storage ↔ e ∈ es ∨ e ∈ m.storage := by
  constructor
  · exact mem_of_mem_foldl_insertEntry
  · intro mem
    obtain ⟨e', mem', sameKey⟩ := key_mem_foldl_insertEntry replace mem
    exact unique e' e (mem_of_mem_foldl_insertEntry mem') mem sameKey ▸ mem'

end Memtable

end FrenzyKV
