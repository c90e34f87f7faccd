import FrenzyKV.Util.Comp
import Mathlib.Order.Monotone.Defs

/-! The four comparisons of keys (`db/kv_entry.h`, `db/kv_entry.cc`, `util/comp.cc`) order keys alike. -/

namespace FrenzyKV

open Bytes

/-- `serialized_sequenced_key_less`, on string views. -/
def serializedSequencedKeyLess (lhs rhs : ByteString) : Bool := decide (lhs < rhs)

/-- `user_key_less`. -/
def userKeyLess (lhs rhs : ByteString) : Bool :=
  if lhs.length ≠ rhs.length then decide (lhs.length < rhs.length)
  else memcmpComparator lhs rhs == .lt

theorem memcmpComparator_eq_lt {l r : ByteString} : memcmpComparator l r = .lt ↔ l < r := by
  constructor
  · intro before
    rcases lt_trichotomy l r with less | rfl | greater
    · exact less
    · rw [memcmpComparator_self] at before
      cases before
    · rw [memcmpComparator_of_gt greater] at before
      cases before
  · exact memcmpComparator_of_lt

namespace UserKey

/-- `user_key_less` is the order of user keys. -/
theorem userKeyLess_iff {k l : UserKey} : userKeyLess k.bytes l.bytes = true ↔ k < l := by
  rw [lt_iff, userKeyLess]
  change (if k.size ≠ l.size then _ else _) = true ↔ _
  by_cases same : k.size = l.size
  · rw [if_neg (not_not_intro same), beq_iff_eq, memcmpComparator_eq_lt]
    constructor
    · exact fun less => .inr ⟨same, less⟩
    · rintro (shorter | ⟨-, less⟩)
      · omega
      · exact less
  · rw [if_pos same, decide_eq_true_iff]
    constructor
    · exact fun shorter => .inl shorter
    · rintro (shorter | ⟨eq, -⟩)
      · exact shorter
      · exact absurd eq same

/-- Serialization keeps the order of the keys whose length its field holds. -/
theorem serialize_strictMonoOn : StrictMonoOn serialize {k | k.size < 2 ^ 16} :=
  fun _ _ _ short less => serialize_lt less short

end UserKey

namespace SequencedKey

/-- A key as the store takes it: the user key fits its length field, the number its type. -/
structure Storable (k : SequencedKey) : Prop where
  userKey_short : k.userKey.size ≤ 65535
  seq_fits : k.seq < sequenceNumberModulus

instance (k : SequencedKey) : Decidable k.Storable :=
  decidable_of_iff (k.userKey.size ≤ 65535 ∧ k.seq < sequenceNumberModulus)
    ⟨fun ⟨key, seq⟩ => ⟨key, seq⟩, fun ⟨key, seq⟩ => ⟨key, seq⟩⟩

/-- `sequenced_key::operator==`. -/
def operatorEq (lhs rhs : SequencedKey) : Bool :=
  lhs.seq == rhs.seq && lhs.userKey.bytes == rhs.userKey.bytes

/-- `sequenced_key::operator<`. -/
def operatorLess (lhs rhs : SequencedKey) : Bool := lhs.logicLexicographicSimulateLess rhs

theorem operatorEq_iff {a b : SequencedKey} : a.operatorEq b = true ↔ a = b := by
  rw [operatorEq, Bool.and_eq_true, beq_iff_eq, beq_iff_eq]
  constructor
  · intro ⟨seq, bytes⟩
    cases a with | mk n k =>
    cases b with | mk m l => exact congrArg₂ mk seq (UserKey.ext bytes)
  · rintro rfl
    exact ⟨rfl, rfl⟩

theorem operatorLess_iff {a b : SequencedKey} : a.operatorLess b = true ↔ a < b :=
  (lt_iff_simulate_less a b).symm

theorem serialize_strictMonoOn : StrictMonoOn serialize {k | k.Storable} := by
  intro a storableA b storableB less
  have short : b.userKey.size < 2 ^ 16 := Nat.lt_succ_of_le storableB.userKey_short
  rw [serialize, serialize, UserKey.serializeUserKey_eq, UserKey.serializeUserKey_eq]
  rcases lt_iff.mp less with key | ⟨same, seq⟩
  · rcases UserKey.lt_iff.mp key with shorter | ⟨size, -⟩
    · -- Keys of two lengths already differ in the length field in front.
      have fields : encodeBigEndian userKeyLengthBytesSize a.userKey.size <
          encodeBigEndian userKeyLengthBytesSize b.userKey.size := by
        apply encodeBigEndian_lt
        change a.userKey.size % 2 ^ 16 < b.userKey.size % 2 ^ 16
        omega
      rw [UserKey.serialize, UserKey.serialize, List.append_assoc, List.append_assoc]
      apply append_lt_append _ fields
      rw [encodeBigEndian_length, encodeBigEndian_length]
    · apply append_lt_append _ (UserKey.serialize_lt key short)
      rw [UserKey.serialize_length, UserKey.serialize_length, size]
  · rw [same]
    apply List.append_left_lt
    apply encodeBigEndian_lt
    change a.seq % sequenceNumberModulus < b.seq % sequenceNumberModulus
    rw [Nat.mod_eq_of_lt storableA.seq_fits, Nat.mod_eq_of_lt storableB.seq_fits]
    exact seq

theorem serializedLess_iff {a b : SequencedKey} (storableA : a.Storable) (storableB : b.Storable) :
    serializedSequencedKeyLess a.serialize b.serialize = true ↔ a < b := by
  rw [serializedSequencedKeyLess, decide_eq_true_iff]
  exact serialize_strictMonoOn.lt_iff_lt storableA storableB

theorem lt_iff_of_userKey_ne {a b : SequencedKey} (ne : a.userKey ≠ b.userKey) :
    a < b ↔ a.userKey < b.userKey := by
  rw [lt_iff]
  constructor
  · rintro (less | ⟨same, -⟩)
    · exact less
    · exact absurd same ne
  · exact fun less => .inl less

/-- The comparison in memory, the one of serialized keys and the two of user keys agree, and
they are a strict total order with `==` as its equality. -/
theorem comparisons_agree {a b c : SequencedKey} (storableA : a.Storable) (storableB : b.Storable) :
    (a.operatorLess b = true ↔ serializedSequencedKeyLess a.serialize b.serialize = true) ∧
      (a.userKey ≠ b.userKey →
        (a.operatorLess b = true ↔
          memcmpComparator a.serializeUserKey b.serializeUserKey = .lt) ∧
        (a.operatorLess b = true ↔ userKeyLess a.userKey.bytes b.userKey.bytes = true)) ∧
      a.operatorLess a = false ∧
      (a.operatorLess b = true → b.operatorLess c = true → a.operatorLess c = true) ∧
      (a.operatorLess b = true ∨ a.operatorEq b = true ∨ b.operatorLess a = true) ∧
      (a.operatorEq b = true → a.operatorLess b = false ∧ b.operatorLess a = false) := by
  have irreflexive : ∀ k : SequencedKey, k.operatorLess k = false := by
    intro k
    rw [← Bool.not_eq_true, operatorLess_iff]
    exact lt_irrefl k
  have shortA : a.userKey.size < 2 ^ 16 := Nat.lt_succ_of_le storableA.userKey_short
  have shortB : b.userKey.size < 2 ^ 16 := Nat.lt_succ_of_le storableB.userKey_short
  refine ⟨?_, ?_, irreflexive a, ?_, ?_, ?_⟩
  · rw [operatorLess_iff, serializedLess_iff storableA storableB]
  · intro ne
    rw [operatorLess_iff, lt_iff_of_userKey_ne ne, memcmpComparator_eq_lt,
      UserKey.userKeyLess_iff, UserKey.serializeUserKey_eq, UserKey.serializeUserKey_eq]
    exact ⟨(UserKey.serialize_strictMonoOn.lt_iff_lt shortA shortB).symm, Iff.rfl⟩
  · rw [operatorLess_iff, operatorLess_iff, operatorLess_iff]
    exact lt_trans
  · rw [operatorLess_iff, operatorLess_iff, operatorEq_iff]
    exact lt_trichotomy a b
  · intro same
    rw [operatorEq_iff.mp same]
    exact ⟨irreflexive b, irreflexive b⟩

/-- Two keys of different length whose bytes are ordered the other way. -/
theorem comparisons_agree_short :
    (⟨7, ⟨[98]⟩⟩ : SequencedKey).operatorLess ⟨3, ⟨[97, 97]⟩⟩ = true ∧
      memcmpComparator (SequencedKey.serializeUserKey ⟨7, ⟨[98]⟩⟩)
        (SequencedKey.serializeUserKey ⟨3, ⟨[97, 97]⟩⟩) = .lt := by
  have agree := comparisons_agree (a := ⟨7, ⟨[98]⟩⟩) (b := ⟨3, ⟨[97, 97]⟩⟩) (c := ⟨0, ⟨[]⟩⟩)
    (by decide) (by decide)
  have less : (⟨7, ⟨[98]⟩⟩ : SequencedKey).operatorLess ⟨3, ⟨[97, 97]⟩⟩ = true := by decide
  exact ⟨less, (agree.2.1 (by decide)).1.mp less⟩

end SequencedKey

end FrenzyKV
