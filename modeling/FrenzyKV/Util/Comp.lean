import FrenzyKV.Db.KvEntry
import Mathlib.Order.Compare

/-! The byte-wise comparison of serialized user keys (`util/comp.cc`). -/

namespace FrenzyKV

open Bytes

/-- `memcmp` over as many bytes as both have. -/
def memcmp : ByteString → ByteString → Ordering
  | a :: l, b :: r => if a < b then .lt else if b < a then .gt else memcmp l r
  | _, _ => .eq

/-- `memcmp_comparator`. -/
def memcmpComparator (lhs rhs : ByteString) : Ordering :=
  let minLen := min lhs.length rhs.length
  if minLen = 0 then compare lhs.length rhs.length
  else match memcmp (lhs.take minLen) (rhs.take minLen) with
    | .eq => if lhs.length = rhs.length then .eq
        else if rhs.length < lhs.length then .gt else .lt
    | indicator => indicator

theorem memcmpComparator_cons (a b : UInt8) (l r : ByteString) :
    memcmpComparator (a :: l) (b :: r) =
      if a < b then .lt else if b < a then .gt else memcmpComparator l r := by
  have positive : min (a :: l).length (b :: r).length = min l.length r.length + 1 := by
    rw [List.length_cons, List.length_cons, Nat.add_min_add_right]
  rw [memcmpComparator, positive]
  simp only [Nat.succ_ne_zero, if_false, List.take_succ_cons, memcmp, List.length_cons,
    Nat.add_right_cancel_iff, Nat.add_lt_add_iff_right]
  by_cases less : a < b
  · rw [if_pos less, if_pos less]
  · rw [if_neg less, if_neg less]
    by_cases greater : b < a
    · rw [if_pos greater, if_pos greater]
    · rw [if_neg greater, if_neg greater, memcmpComparator]
      by_cases empty : min l.length r.length = 0
      · simp only [empty, List.take_zero, memcmp, if_true]
        rcases lt_trichotomy l.length r.length with lt | eq | gt
        · rw [if_neg lt.ne, if_neg lt.asymm, Nat.compare_eq_lt.mpr lt]
        · rw [if_pos eq, Nat.compare_eq_eq.mpr eq]
        · rw [if_neg gt.ne', if_pos gt, Nat.compare_eq_gt.mpr gt]
      · simp only [empty, if_false]

@[simp] theorem memcmpComparator_self (l : ByteString) : memcmpComparator l l = .eq := by
  induction l with
  | nil => rfl
  | cons a l ih => rw [memcmpComparator_cons, if_neg (lt_irrefl a), if_neg (lt_irrefl a), ih]

theorem memcmpComparator_of_lt {l r : ByteString} (less : l < r) : memcmpComparator l r = .lt := by
  induction l generalizing r with
  | nil =>
    cases r with
    | nil => exact absurd less (lt_irrefl _)
    | cons b r => rfl
  | cons a l ih =>
    cases r with
    | nil => exact absurd less (List.not_lt_nil _)
    | cons b r =>
      rw [memcmpComparator_cons]
      cases List.cons_lt_cons_iff.mp less with
      | inl first => rw [if_pos first]
      | inr later =>
        obtain ⟨rfl, rest⟩ := later
        rw [if_neg (lt_irrefl a), if_neg (lt_irrefl a), ih rest]

theorem memcmpComparator_of_gt {l r : ByteString} (greater : r < l) :
    memcmpComparator l r = .gt := by
  induction l generalizing r with
  | nil => exact absurd greater (List.not_lt_nil _)
  | cons a l ih =>
    cases r with
    | nil => rfl
    | cons b r =>
      rw [memcmpComparator_cons]
      cases List.cons_lt_cons_iff.mp greater with
      | inl first => rw [if_neg first.asymm, if_pos first]
      | inr later =>
        obtain ⟨rfl, rest⟩ := later
        rw [if_neg (lt_irrefl b), if_neg (lt_irrefl b), ih rest]

namespace UserKey

/-- `serialize_user_key_as_string`. -/
def serialize (k : UserKey) : ByteString := encodeBigEndian userKeyLengthBytesSize k.size ++ k.bytes

@[simp] theorem serialize_length (k : UserKey) :
    k.serialize.length = userKeyLengthBytesSize + k.size := by
  simp [serialize, size]

theorem serializeUserKey_eq (k : SequencedKey) : k.serializeUserKey = k.userKey.serialize := rfl

/-- Serialized keys are ordered as the keys are. -/
theorem serialize_lt {k l : UserKey} (less : k < l) (short : l.size < 2 ^ 16) :
    k.serialize < l.serialize := by
  cases lt_iff.mp less with
  | inl shorter =>
    apply append_lt_append
    · rw [encodeBigEndian_length, encodeBigEndian_length]
    · apply encodeBigEndian_lt
      change k.size % 2 ^ 16 < l.size % 2 ^ 16
      omega
  | inr same =>
    rw [serialize, serialize, same.1]
    exact List.append_left_lt same.2

theorem memcmpComparator_serialize_of_lt {k l : UserKey} (less : k < l) (short : l.size < 2 ^ 16) :
    memcmpComparator k.serialize l.serialize = .lt :=
  memcmpComparator_of_lt (serialize_lt less short)

theorem memcmpComparator_serialize_of_gt {k l : UserKey} (greater : l < k) (short : k.size < 2 ^ 16) :
    memcmpComparator k.serialize l.serialize = .gt :=
  memcmpComparator_of_gt (serialize_lt greater short)

end UserKey

end FrenzyKV
