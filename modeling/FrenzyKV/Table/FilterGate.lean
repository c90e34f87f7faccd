import FrenzyKV.Table.SstableBuilder
import Mathlib.Data.Nat.Bitwise

/-! The filter that a table builder accumulates and the gate of a lookup
(`table/sstable_builder.cc`, `util/bloom_filter.cc`). -/

namespace FrenzyKV

open Bytes

namespace BloomFilter

/-- The bit that a probe of `bitpos` tests. -/
def BitSet (rep : ByteString) (bitpos : Nat) : Prop :=
  rep.getD (bitpos / 8) 0 &&& (1 <<< UInt8.ofNat (bitpos % 8)) ≠ 0

theorem toNat_mask {i : Nat} (small : i < 8) : (1 <<< UInt8.ofNat i : UInt8).toNat = 2 ^ i := by
  have all : ∀ i : Fin 8, (1 <<< UInt8.ofNat i : UInt8).toNat = 2 ^ (i : Nat) := by decide
  exact all ⟨i, small⟩

theorem bitSet_iff {rep : ByteString} {p : Nat} :
    BitSet rep p ↔ (rep.getD (p / 8) 0).toNat.testBit (p % 8) = true := by
  have mask := toNat_mask (Nat.mod_lt p (show 0 < 8 by decide))
  rw [BitSet, ne_eq, ← UInt8.toNat_inj, UInt8.toNat_and, mask, Nat.and_two_pow]
  cases ((rep.getD (p / 8) 0).toNat.testBit (p % 8)) with
  | false => simp
  | true => simp

@[simp] theorem setBit_length (rep : ByteString) (p : Nat) : (setBit rep p).length = rep.length := by
  simp [setBit]

/-- Setting a bit changes its own byte only, and that by adding the bit. -/
theorem getD_setBit (rep : ByteString) (p i : Nat) :
    (setBit rep p).getD i 0 =
      if p / 8 = i ∧ i < rep.length then rep.getD i 0 ||| (1 <<< UInt8.ofNat (p % 8))
      else rep.getD i 0 := by
  rw [setBit, List.getD_eq_getElem?_getD, List.getD_eq_getElem?_getD, List.getElem?_modify]
  by_cases inside : i < rep.length
  · rw [List.getElem?_eq_getElem inside]
    by_cases same : p / 8 = i
    · simp [same, inside]
    · simp [same]
  · rw [List.getElem?_eq_none (not_lt.mp inside)]
    simp [inside]

theorem bitSet_setBit {rep : ByteString} {p : Nat} (inside : p / 8 < rep.length) :
    BitSet (setBit rep p) p := by
  have mask := toNat_mask (Nat.mod_lt p (show 0 < 8 by decide))
  rw [bitSet_iff, getD_setBit, if_pos ⟨rfl, inside⟩, UInt8.toNat_or, mask, Nat.testBit_or,
    Nat.testBit_two_pow_self, Bool.or_true]

theorem BitSet.setBit {rep : ByteString} {p : Nat} (set : BitSet rep p) (q : Nat) :
    BitSet (setBit rep q) p := by
  rw [bitSet_iff] at set ⊢
  rw [getD_setBit]
  split
  · rw [UInt8.toNat_or, Nat.testBit_or, set, Bool.true_or]
  · exact set

theorem BitSet.setProbes {rep : ByteString} {p : Nat} (set : BitSet rep p) (bits : Nat)
    (delta : UInt64) (n : Nat) (h : UInt64) : BitSet (setProbes bits delta n h rep) p := by
  induction n generalizing h rep with
  | zero => exact set
  | succ n ih => exact ih (set.setBit _) (h + delta)

theorem BitSet.append {rep : ByteString} {p : Nat} (set : BitSet rep p) (more : ByteString) :
    BitSet (rep ++ more) p := by
  by_cases inside : p / 8 < rep.length
  · rw [bitSet_iff, List.getD_append _ _ _ _ inside]
    exact bitSet_iff.mp set
  · rw [bitSet_iff, List.getD_eq_default _ _ (not_lt.mp inside)] at set
    simp at set

/-- Every bit that is probed is set. -/
def ProbesSet (bits : Nat) (delta : UInt64) (rep : ByteString) : Nat → UInt64 → Prop
  | 0, _ => True
  | n + 1, h => BitSet rep (h.toNat % bits) ∧ ProbesSet bits delta rep n (h + delta)

theorem testProbes_iff {bits n : Nat} {delta h : UInt64} {rep : ByteString} :
    testProbes bits delta rep n h = true ↔ ProbesSet bits delta rep n h := by
  induction n generalizing h with
  | zero => simp [testProbes, ProbesSet]
  | succ n ih =>
    rw [testProbes, ProbesSet, ← ih]
    by_cases set : BitSet rep (h.toNat % bits)
    · rw [if_neg set]
      simp [set]
    · rw [if_pos (not_not.mp set)]
      simp [set]

theorem probesSet_setProbes {bits : Nat} (positive : 0 < bits) (delta : UInt64) (n : Nat)
    (h : UInt64) {arr : ByteString} (room : bits ≤ arr.length * 8) (more : ByteString) :
    ProbesSet bits delta (setProbes bits delta n h arr ++ more) n h := by
  induction n generalizing h arr with
  | zero => trivial
  | succ n ih =>
    have inside : h.toNat % bits / 8 < arr.length := by
      have := Nat.mod_lt h.toNat positive
      omega
    exact ⟨((bitSet_setBit inside).setProbes _ _ _ _).append _, ih _ (by simpa using room)⟩

variable {hash : ByteString → UInt64} {numKeyBits : Nat}

theorem probes_lt (numKeyBits : Nat) : probes numKeyBits < 256 := by
  have : probes numKeyBits ≤ 60 := Nat.min_le_left _ _
  omega

theorem probes_pos (numKeyBits : Nat) : 0 < probes numKeyBits := by
  rw [probes]
  omega

theorem thirty_lt_probes_iff : 30 < probes numKeyBits ↔ 45 ≤ numKeyBits := by
  rw [probes]
  omega

/-- A representation ends with the number of probes. -/
theorem appendNewFilter_last (key dst : ByteString) :
    (appendNewFilter hash numKeyBits key dst).getD
      ((appendNewFilter hash numKeyBits key dst).length - 1) 0 = UInt8.ofNat (probes numKeyBits) := by
  simp [appendNewFilter, List.getD_eq_getElem?_getD]

theorem appendNewFilter_length (key dst : ByteString) :
    (appendNewFilter hash numKeyBits key dst).length =
      dst.length + ((max numKeyBits 64 + 7) / 8 + 1) := by
  simp [appendNewFilter, setProbes_length]

/-- What a lookup tests in a representation with at most 30 probes. -/
theorem mayMatch_iff_probesSet (few : probes numKeyBits ≤ 30) (key dst query : ByteString) :
    mayMatch hash query (appendNewFilter hash numKeyBits key dst) = true ↔
      ProbesSet (((appendNewFilter hash numKeyBits key dst).length - 1) * 8) (getDelta (hash query))
        (appendNewFilter hash numKeyBits key dst) (probes numKeyBits) (hash query) := by
  have long : ¬ (appendNewFilter hash numKeyBits key dst).length < 2 := by
    rw [appendNewFilter_length]
    omega
  have count : (UInt8.ofNat (probes numKeyBits)).toNat = probes numKeyBits := by
    rw [UInt8.toNat_ofNat']
    exact Nat.mod_eq_of_lt (probes_lt numKeyBits)
  rw [mayMatch, if_neg long]
  simp only [appendNewFilter_last, count, if_neg (not_lt.mpr few), testProbes_iff]

/-- A filter of one key matches it. -/
theorem mayMatch_own (key : ByteString) :
    mayMatch hash key (appendNewFilter hash numKeyBits key []) = true := by
  by_cases many : 30 < probes numKeyBits
  · exact mayMatch_appendNewFilter hash many key [] key
  · rw [mayMatch_iff_probesSet (not_lt.mp many), appendNewFilter_length]
    simp only [List.length_nil, Nat.zero_add, Nat.add_sub_cancel]
    rw [appendNewFilter, List.nil_append]
    exact probesSet_setProbes (by omega) _ _ _ (by simp) _

/-- With a hash of 69 the first probe of two or more filters of 64 bits meets the bit 5 of the
first filter's number of probes, which is not set. -/
theorem not_mayMatch_of_two (few : probes numKeyBits ≤ 30) (query key' : ByteString)
    {key dst : ByteString} (two : appendNewFilter (fun _ => 69) numKeyBits key [] <+: dst) :
    mayMatch (fun _ => 69) query (appendNewFilter (fun _ => 69) numKeyBits key' dst) = false := by
  have few' : ¬ 45 ≤ numKeyBits := by
    rw [← thirty_lt_probes_iff]
    omega
  have size : (appendNewFilter (fun _ => 69) numKeyBits key []).length = _ :=
    appendNewFilter_length key []
  have last : (appendNewFilter (fun _ => 69) numKeyBits key []).getD _ 0 = _ :=
    appendNewFilter_last key []
  have length : (appendNewFilter (fun _ => 69) numKeyBits key' dst).length = _ :=
    appendNewFilter_length key' dst
  have grown := two.length_le
  have sized : max numKeyBits 64 = 64 := by omega
  rw [sized, List.length_nil] at size
  rw [sized] at length
  rw [size] at last grown
  obtain ⟨more, eq⟩ := two
  rw [Bool.eq_false_iff, ne_eq, mayMatch_iff_probesSet few]
  intro set
  obtain ⟨n, count⟩ := Nat.exists_eq_succ_of_ne_zero (probes_pos numKeyBits).ne'
  rw [count] at set
  have first := bitSet_iff.mp set.1
  have probe : (69 : UInt64).toNat % (((appendNewFilter (fun _ => 69) numKeyBits key' dst).length - 1) * 8) =
      69 := by
    rw [length]
    exact Nat.mod_eq_of_lt (by change 69 < _; omega)
  have byte : (appendNewFilter (fun _ => 69) numKeyBits key' dst).getD 8 0 =
      UInt8.ofNat (probes numKeyBits) := by
    rw [appendNewFilter, List.append_assoc, ← eq, List.append_assoc,
      List.getD_append _ _ _ _ (by omega)]
    exact last
  rw [probe] at first
  change ((appendNewFilter (fun _ => 69) numKeyBits key' dst).getD 8 0).toNat.testBit 5 = true at first
  rw [byte, UInt8.toNat_ofNat', Nat.mod_eq_of_lt (probes_lt numKeyBits),
    Nat.testBit_lt_two_pow (by omega)] at first
  cases first

end BloomFilter

namespace SstableBuilder

variable {opt : Options} {filter : FilterPolicy} {b b' : SstableBuilder} {e : KvEntry}
  {es : List KvEntry} {last : Option UserKey} {rep : ByteString}

/-- A key that is not the last one gets a filter of its own, behind the others. -/
def nextRep (filter : FilterPolicy) (last : Option UserKey) (rep : ByteString) (e : KvEntry) :
    ByteString :=
  if last = some e.userKey then rep else filter.appendNewFilter e.key.serializeUserKey rep

/-- The representation after some entries. -/
def filterAfter (filter : FilterPolicy) : Option UserKey → ByteString → List KvEntry → ByteString
  | _, rep, [] => rep
  | last, rep, e :: es => filterAfter filter (some e.userKey) (nextRep filter last rep e) es

/-- The filter decides nothing but the representation. -/
theorem add_with_filter (added : b.add opt filter e = some (true, b')) (other : FilterPolicy)
    (rep : ByteString) :
    b'.lastUk = some e.userKey ∧ { b with filterRep := rep }.add opt other e =
      some (true, { b' with filterRep := nextRep other b.lastUk rep e }) := by
  rw [add] at added ⊢
  by_cases full : b.reachTheSizeLimit = true
  · rw [if_pos full] at added
    cases (Prod.mk.inj (Option.some.inj added)).1
  · rw [if_neg full] at added
    rw [if_neg (by exact full)]
    obtain ⟨block, done, eq⟩ := Option.map_eq_some_iff.mp added
    rw [done, Option.map_some]
    dsimp only at eq ⊢
    by_cases flush : opt.blockSize ≤ block.storageSize
    · rw [if_pos flush] at eq ⊢
      obtain rfl := (Prod.mk.inj eq).2
      exact ⟨rfl, rfl⟩
    · rw [if_neg flush] at eq ⊢
      obtain rfl := (Prod.mk.inj eq).2
      exact ⟨rfl, rfl⟩

theorem addAll_with_filter (added : b.addAll opt filter es = some b') (other : FilterPolicy)
    (rep : ByteString) :
    { b with filterRep := rep }.addAll opt other es =
      some { b' with filterRep := filterAfter other b.lastUk rep es } := by
  induction es generalizing b rep with
  | nil =>
    obtain rfl := Option.some.inj added
    rfl
  | cons e es ih =>
    obtain ⟨⟨taken, next⟩, first, later⟩ := Option.bind_eq_some_iff.mp added
    cases taken with
    | false => cases later
    | true =>
      obtain ⟨last, again⟩ := add_with_filter first other rep
      rw [addAll, again, Option.bind_some, if_pos rfl, ih later, last, filterAfter]

theorem filterAfter_same (same : ∀ e ∈ es, last = some e.userKey) :
    filterAfter filter last rep es = rep := by
  induction es with
  | nil => rfl
  | cons e es ih =>
    have first := same e List.mem_cons_self
    rw [filterAfter, nextRep, if_pos first, ← first]
    exact ih fun x mem => same x (List.mem_cons_of_mem _ mem)

/-- Another key leaves its filter at the end, behind what was there. -/
theorem filterAfter_other (grows : ∀ key dst, dst <+: filter.appendNewFilter key dst)
    (other : ∃ e ∈ es, last ≠ some e.userKey) :
    ∃ key dst, rep <+: dst ∧ filterAfter filter last rep es = filter.appendNewFilter key dst := by
  induction es generalizing last rep with
  | nil =>
    obtain ⟨e, mem, _⟩ := other
    cases mem
  | cons e es ih =>
    rw [filterAfter, nextRep]
    by_cases same : last = some e.userKey
    · rw [if_pos same, ← same]
      apply ih
      obtain ⟨x, mem, differs⟩ := other
      cases List.mem_cons.mp mem with
      | inl eq => exact absurd (eq ▸ same) differs
      | inr mem => exact ⟨x, mem, differs⟩
    · rw [if_neg same]
      by_cases more : ∃ x ∈ es, some e.userKey ≠ some x.userKey
      · obtain ⟨key, dst, low, eq⟩ := ih more
        exact ⟨key, dst, (grows _ _).trans low, eq⟩
      · refine ⟨e.key.serializeUserKey, rep, List.prefix_rfl, filterAfter_same fun x mem => ?_⟩
        by_contra differs
        exact more ⟨x, mem, differs⟩

theorem filterAfter_cons (x : KvEntry) (rest : List KvEntry) :
    filterAfter filter none [] (x :: rest) =
      filterAfter filter (some x.userKey) (filter.appendNewFilter x.key.serializeUserKey []) rest := by
  rw [filterAfter, nextRep, if_neg (by simp)]

theorem filterAfter_isFilter (grows : ∀ key dst, dst <+: filter.appendNewFilter key dst)
    (x : KvEntry) (rest : List KvEntry) :
    ∃ key dst, filterAfter filter none [] (x :: rest) = filter.appendNewFilter key dst := by
  rw [filterAfter_cons]
  by_cases other : ∃ e ∈ rest, some x.userKey ≠ some e.userKey
  · obtain ⟨key, dst, _, last⟩ := filterAfter_other grows other
    exact ⟨key, dst, last⟩
  · refine ⟨_, [], filterAfter_same fun y mem => ?_⟩
    by_contra differs
    exact other ⟨y, mem, differs⟩

theorem eq_of_make {sizeLimit : Nat} (made : make sizeLimit = some b) :
    b = ⟨sizeLimit, 0, none, none, [], .fresh, []⟩ := by
  rw [make] at made
  split at made
  · cases made
  · exact (Option.some.inj made).symm

end SstableBuilder

namespace FilterGate

open SstableBuilder

variable {opt : Options} {b b' : SstableBuilder} {es : List KvEntry} {numKeyBits : Nat}

/-- The number of bits by which `append_new_filter` takes its remainders does not become zero in
64-bit arithmetic. -/
def HasBits (numKeyBits : Nat) : Prop := (max numKeyBits 64 + 7) % 2 ^ 64 / 8 ≠ 0

instance (numKeyBits : Nat) : Decidable (HasBits numKeyBits) := inferInstanceAs (Decidable (_ ≠ _))

theorem hasBits_iff (word : numKeyBits < 2 ^ 64) : HasBits numKeyBits ↔ numKeyBits + 7 < 2 ^ 64 := by
  rw [HasBits]
  omega

theorem makeBloomFilter_mayMatch (hash : ByteString → UInt64) (numKeyBits : Nat)
    (key rep : ByteString) :
    (makeBloomFilter hash numKeyBits).mayMatch key rep = BloomFilter.mayMatch hash key rep := rfl

theorem appendNewFilter_grows (hash : ByteString → UInt64) (numKeyBits : Nat)
    (key dst : ByteString) : dst <+: (makeBloomFilter hash numKeyBits).appendNewFilter key dst := by
  change dst <+: dst ++ _ ++ _
  rw [List.append_assoc]
  exact List.prefix_append _ _

/-- A second key hides every key from a filter that tests a constant hash. -/
theorem hidden_of_other (few : BloomFilter.probes numKeyBits ≤ 30) (query : ByteString)
    {x : KvEntry} {rest : List KvEntry} (other : ∃ e ∈ rest, some x.userKey ≠ some e.userKey) :
    BloomFilter.mayMatch (fun _ => 69) query
      (filterAfter (makeBloomFilter (fun _ => 69) numKeyBits) none [] (x :: rest)) = false := by
  have shape : ∃ key dst,
      BloomFilter.appendNewFilter (fun _ => 69) numKeyBits x.key.serializeUserKey [] <+: dst ∧
        filterAfter (makeBloomFilter (fun _ => 69) numKeyBits) none [] (x :: rest) =
          BloomFilter.appendNewFilter (fun _ => 69) numKeyBits key dst := by
    rw [filterAfter_cons]
    exact filterAfter_other (appendNewFilter_grows _ numKeyBits) other
  obtain ⟨key, dst, low, last⟩ := shape
  rw [last]
  exact BloomFilter.not_mayMatch_of_two few query key low

/-- What the filter of a whole table `x :: rest` lets through when the test is off, or the table
has one key. -/
theorem passes_of_few (hash : ByteString → UInt64) {x e : KvEntry} {rest : List KvEntry}
    (mem : e ∈ x :: rest)
    (few : 45 ≤ numKeyBits ∨ ∀ e ∈ x :: rest, ∀ e' ∈ x :: rest, e.userKey = e'.userKey) :
    (makeBloomFilter hash numKeyBits).mayMatch e.key.serializeUserKey
      (filterAfter (makeBloomFilter hash numKeyBits) none [] (x :: rest)) = true := by
  cases few with
  | inl many =>
    obtain ⟨key, dst, last⟩ := filterAfter_isFilter (appendNewFilter_grows hash numKeyBits) x rest
    rw [last, makeBloomFilter_mayMatch]
    exact BloomFilter.mayMatch_appendNewFilter hash
      (BloomFilter.thirty_lt_probes_iff.mpr many) key dst _
  | inr one =>
    have same : ∀ y ∈ rest, some x.userKey = some y.userKey := fun y mem =>
      congrArg some (one x List.mem_cons_self y (List.mem_cons_of_mem _ mem))
    have key : e.key.serializeUserKey = x.key.serializeUserKey := by
      rw [SequencedKey.serializeUserKey, SequencedKey.serializeUserKey]
      rw [show e.key.userKey = x.key.userKey from one e mem x List.mem_cons_self]
    rw [filterAfter_cons, filterAfter_same same, key, makeBloomFilter_mayMatch]
    exact BloomFilter.mayMatch_own x.key.serializeUserKey

theorem exists_other {x : KvEntry} {rest : List KvEntry}
    (differ : ¬ ∀ e ∈ x :: rest, ∀ e' ∈ x :: rest, e.userKey = e'.userKey) :
    ∃ e ∈ rest, some x.userKey ≠ some e.userKey := by
  by_contra same
  push Not at same
  apply differ
  intro e mem e' mem'
  have key : ∀ y ∈ x :: rest, y.userKey = x.userKey := by
    intro y mem
    cases List.mem_cons.mp mem with
    | inl eq => rw [eq]
    | inr mem => exact (Option.some.inj (same y mem)).symm
  rw [key e mem, key e' mem']

/-- Conversely, a filter that tests a constant hash lets the first key through in these cases
only. -/
theorem few_of_passes {x : KvEntry} {rest : List KvEntry}
    (first : (makeBloomFilter (fun _ => 69) numKeyBits).mayMatch x.key.serializeUserKey
      (filterAfter (makeBloomFilter (fun _ => 69) numKeyBits) none [] (x :: rest)) = true) :
    45 ≤ numKeyBits ∨ ∀ e ∈ x :: rest, ∀ e' ∈ x :: rest, e.userKey = e'.userKey := by
  by_contra split
  obtain ⟨small, differ⟩ := not_or.mp split
  have few : BloomFilter.probes numKeyBits ≤ 30 := by
    rw [← BloomFilter.thirty_lt_probes_iff] at small
    omega
  have fails := hidden_of_other few x.key.serializeUserKey (exists_other differ)
  rw [makeBloomFilter_mayMatch, fails] at first
  cases first

/-- The gate lets every added key through, whatever the hash function, exactly when the test is
switched off by more than 30 probes or the table has one key. -/
theorem added_keys_pass_iff {sizeLimit : Nat} {filter : FilterPolicy} (made : make sizeLimit = some b)
    (added : b.addAll opt filter es = some b') (word : numKeyBits < 2 ^ 64) :
    (∀ hash, ∃ built, b.addAll opt (makeBloomFilter hash numKeyBits) es = some built ∧
      ∀ e ∈ es, HasBits numKeyBits ∧ (makeBloomFilter hash numKeyBits).mayMatch
        e.key.serializeUserKey built.filterRep = true) ↔
      es = [] ∨ numKeyBits + 7 < 2 ^ 64 ∧
        (45 ≤ numKeyBits ∨ ∀ e ∈ es, ∀ e' ∈ es, e.userKey = e'.userKey) := by
  obtain rfl := eq_of_make made
  have built : ∀ filter : FilterPolicy,
      addAll opt filter ⟨sizeLimit, 0, none, none, [], .fresh, []⟩ es =
        some { b' with filterRep := filterAfter filter none [] es } :=
    fun filter => addAll_with_filter added filter []
  cases es with
  | nil => exact iff_of_true (fun hash => ⟨_, built _, fun e mem => by cases mem⟩) (.inl rfl)
  | cons x rest =>
    constructor
    · intro pass
      obtain ⟨found, eq, all⟩ := pass fun _ => 69
      obtain rfl := Option.some.inj ((built _).symm.trans eq)
      obtain ⟨bits, first⟩ := all x List.mem_cons_self
      exact .inr ⟨(hasBits_iff word).mp bits, few_of_passes first⟩
    · intro few hash
      cases few with
      | inl empty => cases empty
      | inr few =>
        exact ⟨_, built _, fun e mem =>
          ⟨(hasBits_iff word).mpr few.1, passes_of_few hash mem few.2⟩⟩

/-- Two entries with different keys. -/
def twoKeys : List KvEntry := [KvEntry.brief 1 7 2, KvEntry.brief 2 8 3]

theorem added_keys_pass_twoKeys :
    ∃ built, addAll Options.default (makeBloomFilter (fun _ => 69) 64)
        ⟨4096, 0, none, none, [], .fresh, []⟩ twoKeys = some built ∧
      ∀ e ∈ twoKeys, HasBits 64 ∧
        (makeBloomFilter (fun _ => 69) 64).mayMatch e.key.serializeUserKey built.filterRep = true := by
  have made : make 4096 = some ⟨4096, 0, none, none, [], .fresh, []⟩ := rfl
  have added : ∃ b', addAll Options.default ⟨fun _ dst => dst, fun _ _ => true⟩
      ⟨4096, 0, none, none, [], .fresh, []⟩ twoKeys = some b' := by
    exact Option.isSome_iff_exists.mp (by decide +kernel)
  obtain ⟨b', added⟩ := added
  exact (added_keys_pass_iff made added (by decide)).mpr (.inr ⟨by decide, .inl (by decide)⟩) fun _ => 69

/-- With 10 bits a key and a constant hash the filter denies both keys of the table. -/
theorem filter_hides_twoKeys :
    ((make 4096).bind fun b =>
      (b.addAll Options.default (makeBloomFilter (fun _ => 69) 10) twoKeys).map fun built =>
        twoKeys.map fun e => (makeBloomFilter (fun _ => 69) 10).mayMatch e.key.serializeUserKey
          built.filterRep) = some [false, false] := by
  decide +kernel

end FilterGate

end FrenzyKV
