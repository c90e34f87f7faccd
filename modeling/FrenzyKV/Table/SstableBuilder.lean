import FrenzyKV.Persistent.BlockBuilder
import FrenzyKV.Table.Sstable

/-! The table builder and the loop that splits entries into tables (`table/sstable_builder.cc`), on
blocks. Their bytes, and what can be read back from them, are another layer. -/

namespace FrenzyKV

open Bytes

structure SstableBuilder where
  sizeLimit : Nat
  sizeFlushed : Nat
  firstUk : Option UserKey
  lastUk : Option UserKey
  filterRep : ByteString
  block : BlockBuilder
  written : List Block

namespace SstableBuilder

/-- The constructor, which asserts that the limit is not zero. -/
def make (sizeLimit : Nat) : Option SstableBuilder :=
  if sizeLimit = 0 then none else some ⟨sizeLimit, 0, none, none, [], .fresh, []⟩

def reachTheSizeLimit (b : SstableBuilder) : Bool := b.sizeLimit ≤ b.sizeFlushed

/-- `sstable_builder::add`. The size added after a flush is that of the fresh block
builder, since the flush replaces it first. -/
def add (opt : Options) (filter : FilterPolicy) (b : SstableBuilder) (e : KvEntry) :
    Option (Bool × SstableBuilder) :=
  if b.reachTheSizeLimit then some (false, b)
  else
    (b.block.add opt e).map fun block =>
      let b' : SstableBuilder := {
        b with
        firstUk := b.firstUk.or (some e.userKey)
        lastUk := some e.userKey
        filterRep :=
          if b.lastUk = some e.userKey then b.filterRep
          else filter.appendNewFilter e.key.serializeUserKey b.filterRep
        block }
      if opt.blockSize ≤ block.storageSize then
        (true, {
          b' with
          written := b.written ++ [block.finish]
          block := .fresh
          sizeFlushed := b.sizeFlushed + BlockBuilder.fresh.storageSize })
      else (true, b')

/-- Entries added one after another, each call returning true. -/
def addAll (opt : Options) (filter : FilterPolicy) :
    SstableBuilder → List KvEntry → Option SstableBuilder
  | b, [] => some b
  | b, e :: es =>
    (b.add opt filter e).bind fun added => if added.1 then addAll opt filter added.2 es else none

/-- `sstable_builder::finish`; a builder without entries leaves no table. -/
def finish (b : SstableBuilder) : Option Sstable :=
  match b.firstUk, b.lastUk with
  | some firstUk, some lastUk => some {
      blocks := b.written ++ if b.block.isEmpty then [] else [b.block.finish]
      firstUk
      lastUk
      filterRep := b.filterRep }
  | _, _ => none

def entries (b : SstableBuilder) : List KvEntry :=
  b.written.flatMap Block.entries ++ b.block.entries

end SstableBuilder

/-- The splitting loop of `memtable_flusher::flush_to_disk` and
`compactor::merged_list_to_sst`: a refused entry opens the next table, which must take it. -/
def buildTables (opt : Options) (filter : FilterPolicy) (sizeLimit : Nat) (b : SstableBuilder) :
    List KvEntry → Option (List Sstable)
  | [] => b.finish.map fun t => [t]
  | e :: es =>
    (b.add opt filter e).bind fun added =>
      if added.1 then buildTables opt filter sizeLimit added.2 es
      else
        b.finish.bind fun t => (SstableBuilder.make sizeLimit).bind fun b' =>
          (b'.add opt filter e).bind fun added' =>
            if added'.1 then (buildTables opt filter sizeLimit added'.2 es).map (t :: ·) else none

def buildTablesFrom (opt : Options) (filter : FilterPolicy) (sizeLimit : Nat)
    (es : List KvEntry) : Option (List Sstable) :=
  (SstableBuilder.make sizeLimit).bind fun b => buildTables opt filter sizeLimit b es

/-- A filter that lets every key through once one key was appended. -/
def FilterPolicy.Open (filter : FilterPolicy) : Prop :=
  ∀ key dst query, filter.mayMatch query (filter.appendNewFilter key dst) = true

theorem makeBloomFilter_open (hash : ByteString → UInt64) : (makeBloomFilter hash 64).Open :=
  fun key dst query => BloomFilter.mayMatch_appendNewFilter hash (by decide) key dst query

namespace SstableBuilder

structure Inv (filter : FilterPolicy) (b : SstableBuilder) : Prop where
  limit : 0 < b.sizeLimit
  flushed : 0 < b.sizeFlushed → b.entries ≠ []
  written : ∀ x ∈ b.written, x.Wf
  block : b.block.Inv
  ascending : b.entries.Pairwise (·.key < ·.key)
  first : b.entries.head?.map KvEntry.userKey = b.firstUk
  last : b.entries.getLast?.map KvEntry.userKey = b.lastUk
  passes : b.lastUk ≠ none → ∀ query, filter.mayMatch query b.filterRep = true

variable {opt : Options} {filter : FilterPolicy} {sizeLimit : Nat} {b b' : SstableBuilder}
  {e : KvEntry}

theorem make_inv (filter : FilterPolicy) (made : make sizeLimit = some b) : b.Inv filter ∧ b.entries = [] := by
  rw [make] at made
  split at made
  · simp at made
  · rename_i positive
    obtain rfl := Option.some.inj made
    exact ⟨⟨Nat.pos_of_ne_zero positive, by simp, by simp, BlockBuilder.fresh_inv, by simp [entries],
      by simp [entries], by simp [entries], by simp⟩, rfl⟩

theorem add_entries (added : b.add opt filter e = some (true, b')) :
    b'.entries = b.entries ++ [e.stored] := by
  rw [add] at added
  split at added
  · simp at added
  · obtain ⟨block, blockAdded, eq⟩ := Option.map_eq_some_iff.mp added
    have blockEntries := BlockBuilder.add_entries blockAdded
    dsimp only at eq
    split at eq
    · obtain rfl := (Prod.mk.inj eq).2
      have done : block.finish.entries = b.block.entries ++ [e.stored] := blockEntries
      simp [entries, done]
    · obtain rfl := (Prod.mk.inj eq).2
      simp [entries, blockEntries]

theorem add_inv (opened : filter.Open) (inv : b.Inv filter) (above : ∀ x ∈ b.entries, x.key < e.key)
    (added : b.add opt filter e = some (true, b')) : b'.Inv filter := by
  have all := add_entries added
  rw [add] at added
  split at added
  · simp at added
  · obtain ⟨block, blockAdded, eq⟩ := Option.map_eq_some_iff.mp added
    have blockInv := BlockBuilder.add_inv inv.block blockAdded
    have blockNe : block.entries ≠ [] := by simp [BlockBuilder.add_entries blockAdded]
    have asc : (b.entries ++ [e.stored]).Pairwise (·.key < ·.key) := by
      rw [List.pairwise_append]
      exact ⟨inv.ascending, by simp, fun x hx y hy => by
        obtain rfl := List.mem_singleton.mp hy
        exact above x hx⟩
    have head : (b.entries ++ [e.stored]).head?.map KvEntry.userKey =
        b.firstUk.or (some e.userKey) := by
      rw [← inv.first]
      cases b.entries <;> simp
    have pass : ∀ query, filter.mayMatch query
        (if b.lastUk = some e.userKey then b.filterRep
          else filter.appendNewFilter e.key.serializeUserKey b.filterRep) = true := by
      intro query
      split
      · rename_i same
        exact inv.passes (by simp [same]) query
      · exact opened _ _ query
    dsimp only at eq
    split at eq
    · obtain rfl := (Prod.mk.inj eq).2
      refine ⟨inv.limit, fun _ => by rw [all]; simp, ?_, BlockBuilder.fresh_inv,
        by rw [all]; exact asc, by rw [all]; exact head, by rw [all]; simp, fun _ => pass⟩
      intro x hx
      rcases List.mem_append.mp hx with hx | hx
      · exact inv.written x hx
      · obtain rfl := List.mem_singleton.mp hx
        exact BlockBuilder.finish_wf blockInv blockNe
    · obtain rfl := (Prod.mk.inj eq).2
      exact ⟨inv.limit, fun _ => by rw [all]; simp, inv.written, blockInv,
        by rw [all]; exact asc, by rw [all]; exact head, by rw [all]; simp, fun _ => pass⟩

theorem add_isSome (opt : Options) (inv : b.Inv filter) (above : ∀ x ∈ b.entries, x.key < e.key) :
    ∃ added, b.add opt filter e = some added := by
  rw [add]
  split
  · exact ⟨_, rfl⟩
  · obtain ⟨block, eq⟩ := BlockBuilder.add_isSome opt e inv.block fun x hx =>
      SequencedKey.userKey_mono (above x (List.mem_append_right _ hx)).le
    rw [eq]
    exact ⟨_, rfl⟩

/-- A finished table holds what the builder has taken. -/
theorem finish_entries {t : Sstable} (inv : b.block.Inv) (finished : b.finish = some t) :
    t.entries = b.entries := by
  rw [finish] at finished
  split at finished
  · obtain rfl := Option.some.inj finished
    rw [Sstable.entries, List.flatMap_append, entries]
    by_cases empty : b.block.isEmpty = true
    · rw [if_pos empty, (BlockBuilder.isEmpty_iff inv).mp empty]
      rfl
    · rw [if_neg empty, List.flatMap_singleton]
      rfl
  · cases finished

theorem finish_isSome (inv : b.Inv filter) (nonempty : b.entries ≠ []) :
    ∃ t, b.finish = some t ∧ t.Wf filter ∧ t.entries = b.entries := by
  obtain ⟨x, xs, eq⟩ := List.exists_cons_of_ne_nil nonempty
  obtain ⟨l, hl⟩ : ∃ l, b.entries.getLast? = some l := by
    cases h : b.entries.getLast? with
    | none => exact absurd (List.getLast?_eq_none_iff.mp h) nonempty
    | some l => exact ⟨l, rfl⟩
  have first : b.firstUk = some x.userKey := by rw [← inv.first, eq]; rfl
  have last : b.lastUk = some l.userKey := by rw [← inv.last, hl]; rfl
  have finished : b.finish = some ⟨b.written ++ if b.block.isEmpty then [] else [b.block.finish],
      x.userKey, l.userKey, b.filterRep⟩ := by rw [finish, first, last]
  have all := finish_entries inv.block finished
  refine ⟨_, finished, ?_, all⟩
  refine ⟨?_, ?_, by rw [all]; exact inv.ascending, fun e _ => inv.passes (by simp [last]) _,
    by rw [all, eq]; rfl, by rw [all, hl]; rfl⟩
  · intro empty
    rw [Sstable.entries, empty, List.flatMap_nil] at all
    exact nonempty all.symm
  · intro y hy
    rcases List.mem_append.mp hy with hy | hy
    · exact inv.written y hy
    · split at hy
      · simp at hy
      · rename_i notEmpty
        obtain rfl := List.mem_singleton.mp hy
        exact BlockBuilder.finish_wf inv.block
          fun empty => notEmpty ((BlockBuilder.isEmpty_iff inv.block).mpr empty)

theorem add_fresh (opt : Options) (filter : FilterPolicy) (e : KvEntry) (made : make sizeLimit = some b) :
    ∃ b', b.add opt filter e = some (true, b') := by
  have inv := make_inv filter made
  obtain ⟨block, eq⟩ := BlockBuilder.add_isSome opt e inv.1.block fun x hx => by
    have := List.mem_append_right (b.written.flatMap Block.entries) hx
    rw [← entries, inv.2] at this
    simp at this
  have open_limit : b.reachTheSizeLimit = false := by
    rw [make] at made
    split at made
    · simp at made
    · rename_i positive
      obtain rfl := Option.some.inj made
      simpa [reachTheSizeLimit] using positive
  rw [add, open_limit, eq]
  simp only [Bool.false_eq_true, if_false, Option.map_some]
  split
  · exact ⟨_, rfl⟩
  · exact ⟨_, rfl⟩

theorem entries_ne_of_limit (inv : b.Inv filter) (full : b.add opt filter e = some (false, b')) :
    b.entries ≠ [] := by
  rw [add] at full
  split at full
  · rename_i reached
    have := inv.limit
    simp only [reachTheSizeLimit, decide_eq_true_eq] at reached
    exact inv.flushed (by omega)
  · obtain ⟨block, -, eq⟩ := Option.map_eq_some_iff.mp full
    dsimp only at eq
    split at eq <;> simp at eq

end SstableBuilder

variable {filter : FilterPolicy} {sizeLimit : Nat}

/-- The splitting loop succeeds on ascending entries; its tables are well formed and hold
exactly the entries, in order. -/
theorem buildTables_spec (opt : Options) (opened : filter.Open) (positive : 0 < sizeLimit) {b : SstableBuilder}
    (inv : b.Inv filter) {es : List KvEntry} (some_entry : b.entries ++ es ≠ [])
    (ascending : (b.entries ++ es).Pairwise (·.key < ·.key)) :
    ∃ ts, buildTables opt filter sizeLimit b es = some ts ∧
      ts.flatMap Sstable.entries = b.entries ++ es.map KvEntry.stored ∧
      ts ≠ [] ∧ ∀ t ∈ ts, t.Wf filter := by
  induction es generalizing b with
  | nil =>
    obtain ⟨t, finished, wf, all⟩ := SstableBuilder.finish_isSome inv (by simpa using some_entry)
    exact ⟨[t], by simp [buildTables, finished], by simp [all], by simp, by simpa using wf⟩
  | cons e es ih =>
    have cross := (List.pairwise_append.mp ascending).2
    have above : ∀ x ∈ b.entries, x.key < e.key := fun x hx => cross.2 x hx e List.mem_cons_self
    have tail : ∀ {front : List KvEntry}, (front ++ [e] ++ es).Pairwise (·.key < ·.key) →
        (front ++ [e.stored] ++ es).Pairwise (·.key < ·.key) := by
      intro front h
      simpa [List.pairwise_append, List.pairwise_cons] using h
    obtain ⟨⟨taken, b'⟩, added⟩ := SstableBuilder.add_isSome opt inv above
    rw [buildTables, added]
    cases taken with
    | true =>
      have inv' := SstableBuilder.add_inv opened inv above added
      have all' := SstableBuilder.add_entries added
      obtain ⟨ts, built, all, ne, wf⟩ := ih inv' (by simp [all'])
        (by rw [all']; exact tail (by simpa using ascending))
      exact ⟨ts, built, by simpa [all'] using all, ne, wf⟩
    | false =>
      obtain ⟨t, finished, twf, tall⟩ := SstableBuilder.finish_isSome inv
        (SstableBuilder.entries_ne_of_limit inv added)
      obtain ⟨b1, made⟩ : ∃ b1, SstableBuilder.make sizeLimit = some b1 := by
        rw [SstableBuilder.make, if_neg positive.ne']
        exact ⟨_, rfl⟩
      obtain ⟨inv1, empty1⟩ := SstableBuilder.make_inv filter made
      obtain ⟨b2, added2⟩ := SstableBuilder.add_fresh opt filter e made
      have inv2 := SstableBuilder.add_inv opened inv1 (by simp [empty1]) added2
      have all2 := SstableBuilder.add_entries added2
      obtain ⟨ts, built, all, ne, wf⟩ := ih inv2 (by simp [all2])
        (by rw [all2, empty1]; exact tail (by simpa using cross.1))
      refine ⟨t :: ts, ?_, ?_, by simp, ?_⟩
      · simp [finished, made, added2, built]
      · simp [tall, all, all2, empty1]
      · intro u hu
        rcases List.mem_cons.mp hu with rfl | hu
        · exact twf
        · exact wf u hu

theorem buildTablesFrom_spec (opt : Options) (opened : filter.Open) (positive : 0 < sizeLimit) {es : List KvEntry}
    (some_entry : es ≠ []) (ascending : es.Pairwise (·.key < ·.key)) :
    ∃ ts, buildTablesFrom opt filter sizeLimit es = some ts ∧
      ts.flatMap Sstable.entries = es.map KvEntry.stored ∧ ts ≠ [] ∧ ∀ t ∈ ts, t.Wf filter := by
  obtain ⟨b, made⟩ : ∃ b, SstableBuilder.make sizeLimit = some b := by
    rw [SstableBuilder.make, if_neg positive.ne']
    exact ⟨_, rfl⟩
  obtain ⟨inv, empty⟩ := SstableBuilder.make_inv filter made
  obtain ⟨ts, built, all, ne, wf⟩ := buildTables_spec opt opened positive inv
    (by simpa [empty] using some_entry) (by simpa [empty] using ascending)
  exact ⟨ts, by simp [buildTablesFrom, made, built], by simpa [empty] using all, ne, wf⟩

end FrenzyKV
