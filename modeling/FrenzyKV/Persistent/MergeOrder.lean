import FrenzyKV.Persistent.Compaction
import Mathlib.Data.List.Sort

/-! Merging sorted tables in any order: the newest version of each key
(`merge_tables` in `persistent/compaction.cc`). -/

namespace FrenzyKV

open Merge

/-- The entries of a list of tables as a set. -/
def tablesContents (ts : List Sstable) : Set KvEntry := {e | ∃ t ∈ ts, e ∈ t.entries}

theorem tablesContents_append (front back : List Sstable) :
    tablesContents (front ++ back) = tablesContents front ∪ tablesContents back := by
  ext e
  simp only [tablesContents, Set.mem_ofPred_eq, Set.mem_union, List.mem_append, or_and_right,
    exists_or]

theorem key_gt_of_userKey_gt {es : List KvEntry} (h : es.Pairwise (·.userKey > ·.userKey)) :
    es.Pairwise (·.key > ·.key) :=
  h.imp fun gt => SequencedKey.lt_iff.mpr (Or.inl gt)

/-- User keys that descend strictly name their entries. -/
theorem eq_of_userKey_eq {es : List KvEntry} (strict : es.Pairwise (·.userKey > ·.userKey))
    {e e' : KvEntry} (he : e ∈ es) (he' : e' ∈ es) (same : e.userKey = e'.userKey) : e = e' := by
  by_contra ne
  have apart : es.Pairwise (·.userKey ≠ ·.userKey) := strict.imp fun gt => gt.ne'
  have symm : Std.Symm fun a b : KvEntry => a.userKey ≠ b.userKey := ⟨fun _ _ ne => ne.symm⟩
  exact List.Pairwise.forall apart he he' ne same

theorem isSorted_reverse {es : List KvEntry} (descends : es.Pairwise (·.key ≥ ·.key)) :
    isSorted es.reverse = true := by
  rw [isSorted_iff, List.pairwise_reverse]
  exact descends

/-- `es` descends, comes from `source` and holds a version of each of its keys that is as new as
any other. -/
structure Newest (source : Set KvEntry) (es : List KvEntry) : Prop where
  nonempty : es ≠ []
  descending : es.Pairwise (·.key ≥ ·.key)
  sub : ∀ e ∈ es, e ∈ source
  cover : ∀ e ∈ source, ∃ e' ∈ es, e'.userKey = e.userKey ∧ e.key ≤ e'.key

theorem newest_getEntriesAtOnce {t : Sstable} (some_entry : t.entries ≠ [])
    (sorted : t.entries.Pairwise (·.key ≤ ·.key)) : Newest (tablesContents [t]) t.getEntriesAtOnce where
  nonempty := List.reverse_eq_nil_iff.not.mpr some_entry
  descending := List.pairwise_reverse.mpr sorted
  sub e mem := ⟨t, List.mem_singleton_self t, List.mem_reverse.mp mem⟩
  cover e := by
    rintro ⟨u, mem, there⟩
    rw [List.mem_singleton.mp mem] at there
    exact ⟨e, List.mem_reverse.mpr there, rfl, le_rfl⟩

/-- Merging two descending lists fails no assertion and leaves one version of each key. -/
theorem mergeTwoTables_newest {left right : Set KvEntry} {lhs rhs : List KvEntry}
    (leftNewest : Newest left lhs) (rightNewest : Newest right rhs) :
    ∃ es, mergeTwoTables lhs rhs = some es ∧ Newest (left ∪ right) es ∧
      es.Pairwise (·.userKey > ·.userKey) := by
  let all := stdMerge KvEntry.key lhs.reverse rhs.reverse
  let es := unique KvEntry.userKey all.reverse
  have leftSorted := isSorted_reverse leftNewest.descending
  have rightSorted := isSorted_reverse rightNewest.descending
  have mem_all : ∀ e, e ∈ all ↔ e ∈ lhs ∨ e ∈ rhs := by
    intro e
    rw [(stdMerge_perm _ _ _).mem_iff, List.mem_append, List.mem_reverse, List.mem_reverse]
  have sorted : all.Pairwise (·.key ≤ ·.key) :=
    stdMerge_sorted _ (isSorted_iff.mp leftSorted) (isSorted_iff.mp rightSorted)
  have descends : all.reverse.Pairwise (·.key ≥ ·.key) := List.pairwise_reverse.mpr sorted
  have strict : es.Pairwise (·.userKey > ·.userKey) :=
    unique_strict _ (descends.imp fun ge => SequencedKey.userKey_mono ge)
  have descending : es.Pairwise (·.key ≥ ·.key) := (key_gt_of_userKey_gt strict).imp fun gt => gt.le
  -- An entry of an input is below one of its list, and that one below a kept one.
  have up : ∀ e : KvEntry, (∃ e' ∈ all, e'.userKey = e.userKey ∧ e.key ≤ e'.key) →
      ∃ e' ∈ es, e'.userKey = e.userKey ∧ e.key ≤ e'.key := by
    rintro e ⟨e', inAll, sameKey, le⟩
    obtain ⟨z, hz, zKey, zLe⟩ := exists_mem_unique KvEntry.key KvEntry.userKey descends
      (List.mem_reverse.mpr inAll)
    exact ⟨z, hz, zKey.trans sameKey, le.trans zLe⟩
  refine ⟨es, ?_, ⟨?_, descending, ?_, ?_⟩, strict⟩
  · rw [mergeTwoTables, if_neg, if_pos (isSorted_reverse descending)]
    simp [leftSorted, rightSorted, leftNewest.nonempty, rightNewest.nonempty]
  · intro empty
    obtain ⟨e, rest, eq⟩ := List.exists_cons_of_ne_nil leftNewest.nonempty
    have inAll : e ∈ all := (mem_all e).mpr (.inl (by rw [eq]; exact List.mem_cons_self))
    obtain ⟨z, hz, -⟩ := up e ⟨e, inAll, rfl, le_rfl⟩
    rw [empty] at hz
    cases hz
  · intro e he
    have inAll := List.mem_reverse.mp ((unique_sublist _ _).subset he)
    cases (mem_all e).mp inAll with
    | inl inLeft => exact .inl (leftNewest.sub e inLeft)
    | inr inRight => exact .inr (rightNewest.sub e inRight)
  · rintro e (inLeft | inRight)
    · obtain ⟨e', he', rel⟩ := leftNewest.cover e inLeft
      exact up e ⟨e', (mem_all e').mpr (.inl he'), rel⟩
    · obtain ⟨e', he', rel⟩ := rightNewest.cover e inRight
      exact up e ⟨e', (mem_all e').mpr (.inr he'), rel⟩

/-- The lists that a list of tables is merged to, however it is split on the way. -/
inductive MergesTo : List Sstable → List KvEntry → Prop
  | single (t : Sstable) : MergesTo [t] t.getEntriesAtOnce
  | halves {front back : List Sstable} {left right es : List KvEntry} :
    MergesTo front left → MergesTo back right → mergeTwoTables left right = some es →
    MergesTo (front ++ back) es

namespace MergesTo

variable {tables : List Sstable} {es : List KvEntry}

theorem positive (merges : MergesTo tables es) : 0 < tables.length := by
  induction merges with
  | single t => exact Nat.zero_lt_one
  | halves _ _ _ ih _ =>
    rw [List.length_append]
    omega

/-- Every way of merging gives the newest versions, one of a key as soon as two lists are merged. -/
theorem newest (merges : MergesTo tables es) (some_entry : ∀ t ∈ tables, t.entries ≠ [])
    (sorted : ∀ t ∈ tables, t.entries.Pairwise (·.key ≤ ·.key)) :
    Newest (tablesContents tables) es ∧
      (2 ≤ tables.length → es.Pairwise (·.userKey > ·.userKey)) := by
  induction merges with
  | single t =>
    have mem : t ∈ [t] := List.mem_singleton_self t
    refine ⟨newest_getEntriesAtOnce (some_entry t mem) (sorted t mem), ?_⟩
    intro two
    rw [List.length_singleton] at two
    omega
  | @halves front back left right es _ _ eq ihLeft ihRight =>
    have leftNewest := (ihLeft (fun t mem => some_entry t (List.mem_append_left _ mem))
      fun t mem => sorted t (List.mem_append_left _ mem)).1
    have rightNewest := (ihRight (fun t mem => some_entry t (List.mem_append_right _ mem))
      fun t mem => sorted t (List.mem_append_right _ mem)).1
    obtain ⟨es', eq', newest, strict⟩ := mergeTwoTables_newest leftNewest rightNewest
    obtain rfl := Option.some.inj (eq.symm.trans eq')
    rw [tablesContents_append]
    exact ⟨newest, fun _ => strict⟩

/-- What the parts of a split merge to can be merged. -/
theorem join {front back : List Sstable} {left right : List KvEntry} (mergesLeft : MergesTo front left)
    (mergesRight : MergesTo back right) (some_entry : ∀ t ∈ front ++ back, t.entries ≠ [])
    (sorted : ∀ t ∈ front ++ back, t.entries.Pairwise (·.key ≤ ·.key)) :
    ∃ es, mergeTwoTables left right = some es ∧ MergesTo (front ++ back) es := by
  have leftNewest := (mergesLeft.newest (fun t mem => some_entry t (List.mem_append_left _ mem))
    fun t mem => sorted t (List.mem_append_left _ mem)).1
  have rightNewest := (mergesRight.newest (fun t mem => some_entry t (List.mem_append_right _ mem))
    fun t mem => sorted t (List.mem_append_right _ mem)).1
  obtain ⟨es, eq, -⟩ := mergeTwoTables_newest leftNewest rightNewest
  exact ⟨es, eq, .halves mergesLeft mergesRight eq⟩

end MergesTo

/-- Two strictly descending lists of newest versions agree up to the values. -/
theorem Newest.key_unique {source : Set KvEntry} {es es' : List KvEntry} (newest : Newest source es)
    (newest' : Newest source es') (strict : es.Pairwise (·.userKey > ·.userKey))
    (strict' : es'.Pairwise (·.userKey > ·.userKey)) : es.map KvEntry.key = es'.map KvEntry.key := by
  have half : ∀ {xs ys : List KvEntry}, Newest source xs → Newest source ys →
      xs.Pairwise (·.userKey > ·.userKey) → ∀ k ∈ xs.map KvEntry.key, k ∈ ys.map KvEntry.key := by
    intro xs ys newestX newestY strictX k mem
    obtain ⟨x, hx, rfl⟩ := List.mem_map.mp mem
    obtain ⟨y, hy, yKey, xLe⟩ := newestY.cover x (newestX.sub x hx)
    obtain ⟨z, hz, zKey, yLe⟩ := newestX.cover y (newestY.sub y hy)
    have same : z = x := eq_of_userKey_eq strictX hz hx (zKey.trans yKey)
    rw [same] at yLe
    exact List.mem_map.mpr ⟨y, hy, le_antisymm yLe xLe⟩
  apply List.Pairwise.eq_of_mem_iff (r := (· > ·))
  · exact List.pairwise_map.mpr (key_gt_of_userKey_gt strict)
  · exact List.pairwise_map.mpr (key_gt_of_userKey_gt strict')
  · exact fun k => ⟨half newest newest' strict k, half newest' newest strict' k⟩

/-- The recursion of the source is one way of merging, and it fails no assertion. -/
theorem devideAndConquerMerge_mergesTo {fuel : Nat} {tables : List Sstable} (some_table : tables ≠ [])
    (some_entry : ∀ t ∈ tables, t.entries ≠ [])
    (sorted : ∀ t ∈ tables, t.entries.Pairwise (·.key ≤ ·.key)) (enough : tables.length ≤ fuel) :
    ∃ es, devideAndConquerMerge fuel tables = some es ∧ MergesTo tables es := by
  induction fuel generalizing tables with
  | zero => exact absurd (List.eq_nil_of_length_eq_zero (Nat.le_zero.mp enough)) some_table
  | succ fuel ih =>
    match tables, some_table, some_entry, sorted, enough with
    | [t], _, _, _, _ => exact ⟨t.getEntriesAtOnce, by rw [devideAndConquerMerge], .single t⟩
    | [t, u], _, some_entry, sorted, _ =>
      obtain ⟨es, eq, merges⟩ := (MergesTo.single t).join (.single u) some_entry sorted
      exact ⟨es, by rw [devideAndConquerMerge, eq], merges⟩
    | t :: u :: w :: rest, _, some_entry, sorted, enough =>
      let tables := t :: u :: w :: rest
      let half := tables.length / 2
      change tables.length ≤ fuel + 1 at enough
      have length : tables.length = rest.length + 3 := rfl
      have middle : 1 ≤ half ∧ half < tables.length := by omega
      have front : (tables.take half).length = half := List.length_take_of_le middle.2.le
      have back : (tables.drop half).length = tables.length - half := List.length_drop
      have split : tables.take half ++ tables.drop half = tables := List.take_append_drop half tables
      obtain ⟨left, leftEq, mergesLeft⟩ := @ih (tables.take half)
        (List.length_pos_iff.mp (by omega)) (fun x mem => some_entry x (List.mem_of_mem_take mem))
        (fun x mem => sorted x (List.mem_of_mem_take mem)) (by omega)
      obtain ⟨right, rightEq, mergesRight⟩ := @ih (tables.drop half)
        (List.length_pos_iff.mp (by omega)) (fun x mem => some_entry x (List.mem_of_mem_drop mem))
        (fun x mem => sorted x (List.mem_of_mem_drop mem)) (by omega)
      obtain ⟨es, eq, merges⟩ := mergesLeft.join mergesRight (by rwa [split]) (by rwa [split])
      rw [split] at merges
      refine ⟨es, ?_, merges⟩
      change (devideAndConquerMerge fuel (tables.take half)).bind _ = _
      rw [leftEq, Option.bind_some, rightEq, Option.bind_some, eq]

/-- `merge_tables` on sorted tables that have entries fails no assertion. Its result descends
strictly and holds for each user key the version with the largest number, and nothing else,
whatever the order of the tables and the way that the recursion splits them. -/
theorem mergeTables_newest {tables : List Sstable} (two : 2 ≤ tables.length)
    (some_entry : ∀ t ∈ tables, t.entries ≠ [])
    (sorted : ∀ t ∈ tables, t.entries.Pairwise (·.key ≤ ·.key)) :
    ∃ es, mergeTables tables = some es ∧ es.Pairwise (·.key > ·.key) ∧
      (∀ e ∈ es, e ∈ tablesContents tables) ∧
      (∀ x ∈ tablesContents tables, ∃ e ∈ es, e.userKey = x.userKey ∧
        (∀ y ∈ tablesContents tables, y.userKey = x.userKey → y.seq ≤ e.seq) ∧
        ∀ e' ∈ es, e'.userKey = x.userKey → e' = e) ∧
      (∀ es', MergesTo tables es' → es'.map KvEntry.key = es.map KvEntry.key) ∧
      ∀ other, other.Perm tables →
        ∃ es', mergeTables other = some es' ∧ es'.map KvEntry.key = es.map KvEntry.key := by
  have merge : ∀ other, other.Perm tables → ∃ es, mergeTables other = some es ∧
      MergesTo other es ∧ Newest (tablesContents tables) es ∧ es.Pairwise (·.userKey > ·.userKey) := by
    intro other perm
    have some_entry' : ∀ t ∈ other, t.entries ≠ [] := fun t mem => some_entry t (perm.subset mem)
    have sorted' : ∀ t ∈ other, t.entries.Pairwise (·.key ≤ ·.key) := fun t mem =>
      sorted t (perm.subset mem)
    have two' : 2 ≤ other.length := by rwa [perm.length_eq]
    obtain ⟨es, eq, merges⟩ := devideAndConquerMerge_mergesTo
      (List.length_pos_iff.mp (by omega)) some_entry' sorted' le_rfl
    have contents : tablesContents other = tablesContents tables := by
      ext e
      constructor
      · rintro ⟨t, mem, there⟩
        exact ⟨t, perm.mem_iff.mp mem, there⟩
      · rintro ⟨t, mem, there⟩
        exact ⟨t, perm.mem_iff.mpr mem, there⟩
    obtain ⟨newest, strict⟩ := merges.newest some_entry' sorted'
    rw [contents] at newest
    exact ⟨es, by rw [mergeTables, if_neg (by omega), eq], merges, newest, strict two'⟩
  obtain ⟨es, eq, merges, newest, strict⟩ := merge tables (List.Perm.refl _)
  refine ⟨es, eq, key_gt_of_userKey_gt strict, newest.sub, ?_, ?_, ?_⟩
  · intro x hx
    obtain ⟨e, he, sameKey, -⟩ := newest.cover x hx
    have only : ∀ e' ∈ es, e'.userKey = x.userKey → e' = e := fun e' he' sameKey' =>
      eq_of_userKey_eq strict he' he (sameKey'.trans sameKey.symm)
    refine ⟨e, he, sameKey, ?_, only⟩
    intro y hy keyY
    obtain ⟨z, hz, zKey, le⟩ := newest.cover y hy
    rw [only z hz (zKey.trans keyY)] at le
    rcases SequencedKey.le_iff.mp le with below | ⟨-, seq⟩
    · exact absurd below (keyY.trans sameKey.symm).not_lt
    · exact seq
  · intro es' merges'
    obtain ⟨newest', strict'⟩ := merges'.newest some_entry sorted
    exact newest'.key_unique newest (strict' two) strict
  · intro other perm
    obtain ⟨es', eq', -, newest', strict'⟩ := merge other perm
    exact ⟨es', eq', newest'.key_unique newest strict' strict⟩

/-- Three tables, with a key in each of them. -/
theorem mergeTables_newest_three :
    let tables : List Sstable := [1, 2, 3].map fun n : Nat =>
      ⟨[⟨[⟨⟨[97]⟩, [(n, some [1])], true⟩]⟩], ⟨[97]⟩, ⟨[97]⟩, []⟩
    ∃ es, mergeTables tables = some es ∧ es.Pairwise (·.key > ·.key) ∧
      ∀ e ∈ es, e ∈ tablesContents tables := by
  intro tables
  obtain ⟨es, eq, descending, sub, -⟩ := @mergeTables_newest tables (by decide) (by decide)
    (by decide)
  exact ⟨es, eq, descending, sub⟩

end FrenzyKV
