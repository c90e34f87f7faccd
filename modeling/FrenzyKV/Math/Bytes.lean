import Mathlib.Order.Lattice
import Mathlib.Data.List.Lex
import Mathlib.Tactic.Ring

namespace Bytes

abbrev ByteString := List UInt8

instance linearOrderUInt8 : LinearOrder UInt8 where
  le_refl := UInt8.le_refl
  le_trans _ _ _ := UInt8.le_trans
  le_antisymm _ _ := UInt8.le_antisymm
  le_total := UInt8.le_total
  lt_iff_le_not_ge a b := by
    rw [UInt8.lt_iff_le_and_ne]
    constructor
    · rintro ⟨le, ne⟩
      exact ⟨le, fun ge => ne (UInt8.le_antisymm le ge)⟩
    · rintro ⟨le, not_ge⟩
      exact ⟨le, fun eq => not_ge (eq ▸ UInt8.le_refl a)⟩
  toDecidableLE := inferInstance
  toDecidableEq := inferInstance
  toDecidableLT := inferInstance

/-- The low `width` bytes of `n`, most significant byte first. -/
def encodeBigEndian : Nat → Nat → ByteString
  | 0, _ => []
  | width + 1, n => UInt8.ofNat (n / 256 ^ width) :: encodeBigEndian width n

def decodeBigEndian (bytes : ByteString) : Nat :=
  bytes.foldl (fun acc b => acc * 256 + b.toNat) 0

@[simp] theorem encodeBigEndian_length (width n : Nat) :
    (encodeBigEndian width n).length = width := by
  induction width with
  | zero => rfl
  | succ width ih => simp [encodeBigEndian, ih]

theorem foldl_encodeBigEndian (width n acc : Nat) :
    (encodeBigEndian width n).foldl (fun acc b => acc * 256 + b.toNat) acc =
      acc * 256 ^ width + n % 256 ^ width := by
  induction width generalizing acc with
  | zero => simp [encodeBigEndian, Nat.mod_one]
  | succ width ih =>
    have digit : n % 256 ^ (width + 1) = n / 256 ^ width % 256 * 256 ^ width + n % 256 ^ width := by
      rw [pow_succ, Nat.mod_mul, Nat.mul_comm, Nat.add_comm]
    simp only [encodeBigEndian, List.foldl_cons, ih, UInt8.toNat_ofNat', digit, Nat.reducePow]
    ring

/-- Decoding returns the encoded number cut to the width of the field. -/
@[simp] theorem decode_encodeBigEndian (width n : Nat) :
    decodeBigEndian (encodeBigEndian width n) = n % 256 ^ width := by
  simp [decodeBigEndian, foldl_encodeBigEndian]

/-- A field keeps a number up to its width. -/
theorem encodeBigEndian_mod (width n : Nat) :
    encodeBigEndian width (n % 256 ^ width) = encodeBigEndian width n := by
  induction width generalizing n with
  | zero => rfl
  | succ width ih =>
    have low : n % 256 ^ (width + 1) % 256 ^ width = n % 256 ^ width :=
      Nat.mod_mod_of_dvd n (pow_dvd_pow 256 (Nat.le_succ width))
    have high : n % 256 ^ (width + 1) / 256 ^ width = n / 256 ^ width % 256 := by
      rw [pow_succ, Nat.mod_mul_right_div_self]
    rw [encodeBigEndian, encodeBigEndian, high, ← ih (n % 256 ^ (width + 1)), low, ih]
    congr 1
    rw [← UInt8.toNat_inj, UInt8.toNat_ofNat', UInt8.toNat_ofNat', Nat.mod_mod]

/-- What follows strings of one length does not matter when they differ. -/
theorem append_lt_append {a b : ByteString} (width : a.length = b.length) (less : a < b)
    (l r : ByteString) : a ++ l < b ++ r := by
  induction a generalizing b with
  | nil =>
    rw [List.length_nil] at width
    rw [List.length_eq_zero_iff.mp width.symm] at less
    exact absurd less (lt_irrefl _)
  | cons x a ih =>
    cases b with
    | nil => cases width
    | cons y b =>
      rw [List.cons_append, List.cons_append, List.cons_lt_cons_iff]
      cases List.cons_lt_cons_iff.mp less with
      | inl first => exact .inl first
      | inr later => exact .inr ⟨later.1, ih (Nat.succ.inj width) later.2⟩

/-- Big-endian fields are ordered as the numbers that they hold. -/
theorem encodeBigEndian_lt {width m n : Nat} (less : m % 256 ^ width < n % 256 ^ width) :
    encodeBigEndian width m < encodeBigEndian width n := by
  induction width with
  | zero =>
    rw [pow_zero, Nat.mod_one, Nat.mod_one] at less
    exact absurd less (lt_irrefl 0)
  | succ width ih =>
    have unit : 0 < 256 ^ width := Nat.pow_pos (by decide)
    have digits : ∀ k, k % 256 ^ (width + 1) = 256 ^ width * (k / 256 ^ width % 256) + k % 256 ^ width := by
      intro k
      rw [pow_succ, Nat.mod_mul, Nat.add_comm]
    have low : ∀ k, k % 256 ^ width < 256 ^ width := fun k => Nat.mod_lt k unit
    rw [digits m, digits n] at less
    rw [encodeBigEndian, encodeBigEndian, List.cons_lt_cons_iff, UInt8.lt_iff_toNat_lt,
      ← UInt8.toNat_inj, UInt8.toNat_ofNat', UInt8.toNat_ofNat']
    rcases lt_trichotomy (m / 256 ^ width % 256) (n / 256 ^ width % 256) with high | same | high
    · exact .inl high
    · rw [same] at less
      exact .inr ⟨same, ih (Nat.lt_of_add_lt_add_left less)⟩
    · have above : 256 ^ width * (n / 256 ^ width % 256 + 1) ≤ 256 ^ width * (m / 256 ^ width % 256) :=
        Nat.mul_le_mul_left _ high
      rw [Nat.mul_add, Nat.mul_one] at above
      have := low n
      omega

/-- The big-endian number at the front of a byte string that has enough bytes. -/
def readBigEndian (width : Nat) (bytes : ByteString) : Option Nat :=
  if width ≤ bytes.length then some (decodeBigEndian (bytes.take width)) else none

theorem decodeBigEndian_lt (bytes : ByteString) : decodeBigEndian bytes < 256 ^ bytes.length := by
  have grows : ∀ acc, bytes.foldl (fun acc b => acc * 256 + b.toNat) acc < (acc + 1) * 256 ^ bytes.length := by
    induction bytes with
    | nil =>
      intro acc
      rw [List.length_nil, pow_zero, Nat.mul_one]
      exact Nat.lt_succ_self acc
    | cons b bytes ih =>
      intro acc
      have digit : b.toNat < 256 := b.toNat_lt
      have more : (acc * 256 + b.toNat + 1) * 256 ^ bytes.length ≤ (acc + 1) * 256 * 256 ^ bytes.length :=
        Nat.mul_le_mul_right _ (by omega)
      rw [List.foldl_cons, List.length_cons, pow_succ']
      rw [Nat.mul_assoc] at more
      exact (ih _).trans_le more
  have whole := grows 0
  rw [Nat.zero_add, Nat.one_mul] at whole
  exact whole

theorem readBigEndian_lt {width n : Nat} {bytes : ByteString} (read : readBigEndian width bytes = some n) :
    n < 256 ^ width := by
  rw [readBigEndian] at read
  split at read
  · rename_i enough
    have bound := decodeBigEndian_lt (bytes.take width)
    rw [List.length_take_of_le enough] at bound
    rw [← Option.some.inj read]
    exact bound
  · cases read

theorem readBigEndian_encode {width n : Nat} (small : n < 256 ^ width) (rest : ByteString) :
    readBigEndian width (encodeBigEndian width n ++ rest) = some n := by
  have size := encodeBigEndian_length width n
  rw [readBigEndian, if_pos (by rw [List.length_append]; omega), List.take_left' size,
    decode_encodeBigEndian, Nat.mod_eq_of_lt small]

/-- The big-endian number at a position. -/
def readBigEndianAt (width pos : Nat) (bytes : ByteString) : Option Nat :=
  readBigEndian width (bytes.drop pos)

theorem readBigEndianAt_of_eq {bytes front back : ByteString} {width n pos : Nat}
    (eq : bytes = front ++ (encodeBigEndian width n ++ back)) (place : pos = front.length)
    (small : n < 256 ^ width) : readBigEndianAt width pos bytes = some n := by
  rw [readBigEndianAt, eq, List.drop_left' place.symm, readBigEndian_encode small]

/-- The bytes from one position up to another, when both are inside. -/
def slice (beg sentinel : Nat) (bytes : ByteString) : Option ByteString :=
  if beg ≤ sentinel ∧ sentinel ≤ bytes.length then
    some ((bytes.drop beg).take (sentinel - beg))
  else none

theorem slice_of_eq {bytes front middle back : ByteString} {beg sentinel : Nat}
    (eq : bytes = front ++ (middle ++ back)) (first : beg = front.length)
    (last : sentinel = front.length + middle.length) : slice beg sentinel bytes = some middle := by
  have inside : beg ≤ sentinel ∧ sentinel ≤ bytes.length := by
    rw [eq, List.length_append, List.length_append]
    omega
  rw [slice, if_pos inside, eq, List.drop_left' first.symm, List.take_left' (by omega)]

/-- A buffer after bytes are copied into it at a position. -/
def store (pos : Nat) (bytes buffer : ByteString) : ByteString :=
  buffer.take pos ++ (bytes ++ buffer.drop (pos + bytes.length))

theorem store_length {pos : Nat} {bytes buffer : ByteString} (inside : pos + bytes.length ≤ buffer.length) :
    (store pos bytes buffer).length = buffer.length := by
  rw [store, List.length_append, List.length_append, List.length_take_of_le (by omega), List.length_drop]
  omega

/-- A copy behind bytes that are in place. -/
theorem store_behind {pos : Nat} {front : ByteString} (place : pos = front.length) (bytes rest : ByteString) :
    store pos bytes (front ++ rest) = (front ++ bytes) ++ rest.drop bytes.length := by
  rw [store, List.take_left' place.symm, ← List.drop_drop, List.drop_left' place.symm, List.append_assoc]

theorem store_front (bytes buffer : ByteString) : store 0 bytes buffer = bytes ++ buffer.drop bytes.length :=
  @store_behind 0 [] rfl bytes buffer

/-- A copy to the front leaves what stands behind it. -/
theorem drop_store {n : Nat} {bytes : ByteString} (behind : bytes.length ≤ n) (buffer : ByteString) :
    (store 0 bytes buffer).drop n = buffer.drop n := by
  rw [store_front, List.drop_append, List.drop_of_length_le behind, List.drop_drop, Nat.add_sub_cancel' behind]
  rfl

/-- The low `width` bytes of `n`, least significant byte first. -/
def encodeLittleEndian (width n : Nat) : ByteString :=
  (encodeBigEndian width n).reverse

def decodeLittleEndian (bytes : ByteString) : Nat :=
  decodeBigEndian bytes.reverse

@[simp] theorem encodeLittleEndian_length (width n : Nat) :
    (encodeLittleEndian width n).length = width := by
  simp [encodeLittleEndian]

@[simp] theorem decode_encodeLittleEndian (width n : Nat) :
    decodeLittleEndian (encodeLittleEndian width n) = n % 256 ^ width := by
  simp [decodeLittleEndian, encodeLittleEndian]

end Bytes
