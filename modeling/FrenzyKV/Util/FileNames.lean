import FrenzyKV.Math.Bytes
import Mathlib.Data.List.TakeWhile
import Mathlib.Data.Nat.Digits.Defs

/-! The names of table files and of version descriptors (`util/file_center.cc`,
`db/version_descriptor.cc`). -/

namespace FrenzyKV

open Bytes

namespace FileNames

/-- The characters of names take one byte each. -/
def byteOf (c : Char) : UInt8 := c.toNat.toUInt8

def charOf (b : UInt8) : Char := Char.ofNat b.toNat

def text (cs : List Char) : ByteString := cs.map byteOf

def hash : UInt8 := byteOf '#'
def star : UInt8 := byteOf '*'

/-- The text of a `uuid`, and its constructor from a text, which may throw. -/
structure UuidText (Id : Type) where
  toText : Id → ByteString
  ofText : ByteString → Option Id
  length : ∀ id, (toText id).length = 36
  no_hash : ∀ id, hash ∉ toText id
  inverse : ∀ id, ofText (toText id) = some id

/-- An integer as `std::format` writes it. -/
def decimal (l : Int) : ByteString :=
  text (if l < 0 then '-' :: Nat.toDigits 10 l.natAbs else Nat.toDigits 10 l.natAbs)

/-- `{:*>5}`. -/
def padded (l : Int) : ByteString := List.replicate (5 - (decimal l).length) star ++ decimal l

def isSpace (b : UInt8) : Bool := b = 32 || (9 ≤ b && b ≤ 13)

/-- `std::stoi`, which throws without digits and beyond the range of `int`. -/
def stoi (s : ByteString) : Option Int :=
  let s := s.dropWhile isSpace
  let negative : Bool := s.head? = some (byteOf '-')
  let s := if negative || s.head? = some (byteOf '+') then s.tail else s
  let ds := (s.map charOf).takeWhile Char.isDigit
  if ds = [] then none
  else
    let n : Int := Nat.ofDigitChars 10 ds 0
    let value := if negative then -n else n
    if -2 ^ 31 ≤ value ∧ value < 2 ^ 31 then some value else none

def frzkv : ByteString := text ['f', 'r', 'z', 'k', 'v']
def frzkvsst : ByteString := text ['.', 'f', 'r', 'z', 'k', 'v', 's', 's', 't']
def frzkvver : ByteString := text ['.', 'f', 'r', 'z', 'k', 'v', 'v', 'e', 'r']

variable {Id : Type} (u : UuidText Id)

/-- `name_a_sst`. -/
def nameASst (l : Int) (id : Id) : ByteString :=
  frzkv ++ hash :: (padded l ++ hash :: (u.toText id ++ hash :: frzkvsst))

def sstNameLength : Nat := 58

def isSstName (name : ByteString) : Bool :=
  (frzkv ++ [hash]).isPrefixOf name && (hash :: frzkvsst).isSuffixOf name

/-- `retrive_level_and_id_from_sst_name`; an exception of the conversions is no result either. -/
def retriveLevelAndIdFromSstName (name : ByteString) : Option (Int × Id) :=
  if isSstName name then
    match ((name.splitOn hash).drop 1).take 2 with
    | [first, second] =>
      (stoi (first.dropWhile (· = star))).bind fun level =>
        (u.ofText second).map fun id => (level, id)
    | _ => none
  else none

/-- `get_version_descriptor_name`, for the uuid it draws. -/
def getVersionDescriptorName (id : Id) : ByteString :=
  frzkv ++ hash :: (u.toText id ++ hash :: frzkvver)

def vdNameLength : Nat := 52

def isVersionDescriptorName (name : ByteString) : Bool := (hash :: frzkvver).isSuffixOf name

section Decimal

variable {c : Char}

theorem digit_range (digit : c.isDigit = true) : 48 ≤ c.toNat ∧ c.toNat ≤ 57 := by
  rw [Char.isDigit, Bool.and_eq_true, decide_eq_true_iff, decide_eq_true_iff] at digit
  exact ⟨UInt32.le_iff_toNat_le.mp digit.1, UInt32.le_iff_toNat_le.mp digit.2⟩

theorem toNat_byteOf (small : c.toNat < 256) : (byteOf c).toNat = c.toNat := by
  rw [byteOf, Nat.toUInt8_eq, UInt8.toNat_ofNat_of_lt' small]

theorem charOf_byteOf (small : c.toNat < 256) : charOf (byteOf c) = c := by
  rw [charOf, toNat_byteOf small, Char.ofNat_toNat]

theorem byteOf_ne {d : Char} (small : c.toNat < 256) (small' : d.toNat < 256)
    (ne : c.toNat ≠ d.toNat) : byteOf c ≠ byteOf d := by
  intro same
  have := congrArg UInt8.toNat same
  rw [toNat_byteOf small, toNat_byteOf small'] at this
  exact ne this

theorem toDigits_isDigit (n : Nat) : ∀ c ∈ Nat.toDigits 10 n, c.isDigit = true :=
  fun _ mem => Nat.isDigit_of_mem_toDigits (by decide) (by decide) mem

/-- Digits read back from a text. -/
theorem digits_text (n : Nat) :
    ((text (Nat.toDigits 10 n)).map charOf).takeWhile Char.isDigit = Nat.toDigits 10 n := by
  have back : (text (Nat.toDigits 10 n)).map charOf = Nat.toDigits 10 n := by
    rw [text, List.map_map]
    conv_rhs => rw [← List.map_id (Nat.toDigits 10 n)]
    apply List.map_congr_left
    intro c mem
    have range := digit_range (toDigits_isDigit n c mem)
    exact charOf_byteOf (by omega)
  rw [back]
  exact List.takeWhile_eq_self_iff.mpr (toDigits_isDigit n)

/-- A number is written with a sign and digits. -/
theorem toNat_of_mem_decimal {l : Int} {b : UInt8} (mem : b ∈ decimal l) :
    b.toNat = 45 ∨ 48 ≤ b.toNat ∧ b.toNat ≤ 57 := by
  have digit : b ∈ text (Nat.toDigits 10 l.natAbs) → 48 ≤ b.toNat ∧ b.toNat ≤ 57 := by
    intro mem
    obtain ⟨c, inside, rfl⟩ := List.mem_map.mp mem
    have range := digit_range (toDigits_isDigit _ c inside)
    rw [toNat_byteOf (by omega)]
    exact range
  rw [decimal] at mem
  split at mem
  · cases List.mem_cons.mp mem with
    | inl sign => exact .inl (sign ▸ rfl)
    | inr later => exact .inr (digit later)
  · exact .inr (digit mem)

theorem isSpace_of_mem_decimal {l : Int} {b : UInt8} (mem : b ∈ decimal l) : isSpace b = false := by
  have range := toNat_of_mem_decimal mem
  rw [isSpace, Bool.or_eq_false_iff, decide_eq_false_iff_not, Bool.and_eq_false_iff,
    decide_eq_false_iff_not, decide_eq_false_iff_not, UInt8.le_iff_toNat_le, UInt8.le_iff_toNat_le,
    ← UInt8.toNat_inj]
  change ¬ b.toNat = 32 ∧ (¬ 9 ≤ b.toNat ∨ ¬ b.toNat ≤ 13)
  omega

theorem not_mem_decimal {d : UInt8} (low : d.toNat < 45) (l : Int) : d ∉ decimal l := by
  intro mem
  have range := toNat_of_mem_decimal mem
  omega

theorem decimal_ne_nil (l : Int) : decimal l ≠ [] := by
  rw [decimal]
  split
  · exact List.cons_ne_nil _ _
  · exact fun empty => Nat.toDigits_ne_nil (List.map_eq_nil_iff.mp empty)

theorem dropWhile_append_decimal {p : UInt8 → Bool} (front : ByteString) (l : Int)
    (all : ∀ b ∈ front, p b = true) (stop : ∀ b ∈ decimal l, p b = false) :
    (front ++ decimal l).dropWhile p = decimal l := by
  rw [List.dropWhile_append_of_pos all]
  obtain ⟨b, bs, eq⟩ := List.exists_cons_of_ne_nil (decimal_ne_nil l)
  rw [eq] at stop ⊢
  exact List.dropWhile_cons_of_neg (by rw [stop b List.mem_cons_self]; exact Bool.false_ne_true)

/-- Digits that stand alone are read as their number. -/
theorem ofDigitChars_text (n : Nat) :
    Nat.ofDigitChars 10 (((text (Nat.toDigits 10 n)).map charOf).takeWhile Char.isDigit) 0 = n := by
  rw [digits_text, Nat.ofDigitChars_ten_toDigits]

theorem stoi_decimal {l : Int} (low : -2 ^ 31 ≤ l) (high : l < 2 ^ 31) : stoi (decimal l) = some l := by
  have spaces : (decimal l).dropWhile isSpace = decimal l :=
    dropWhile_append_decimal [] l (List.forall_mem_nil _)
      fun b mem => isSpace_of_mem_decimal mem
  have some_digit : ((text (Nat.toDigits 10 l.natAbs)).map charOf).takeWhile Char.isDigit ≠ [] := by
    rw [digits_text]
    exact Nat.toDigits_ne_nil
  rw [stoi, spaces, decimal]
  by_cases negative : l < 0
  · have value : -(l.natAbs : Int) = l := by omega
    rw [if_pos negative]
    simp only [text, List.map_cons, List.head?_cons, decide_true, Bool.true_or, if_true, List.tail_cons]
    rw [← text, if_neg some_digit, ofDigitChars_text, value, if_pos ⟨low, high⟩]
  · have value : (l.natAbs : Int) = l := by omega
    rw [if_neg negative]
    have sign : ∀ d : Char, d.toNat < 48 → (text (Nat.toDigits 10 l.natAbs)).head? ≠ some (byteOf d) := by
      intro d small head
      obtain ⟨c, inside, same⟩ := List.mem_map.mp (List.mem_of_mem_head? head)
      have range := digit_range (toDigits_isDigit _ c inside)
      exact byteOf_ne (by omega) (by omega) (by omega) same
    simp only [sign '-' (by decide), sign '+' (by decide), decide_false, Bool.or_self,
      Bool.false_eq_true, if_false]
    rw [if_neg some_digit, ofDigitChars_text, value, if_pos ⟨low, high⟩]

end Decimal

section Names

variable {Id : Type} {u : UuidText Id} {l : Int} {id : Id}

theorem no_hash_padded (l : Int) : hash ∉ padded l := by
  intro mem
  cases List.mem_append.mp mem with
  | inl front => exact absurd (List.eq_of_mem_replicate front) (by decide)
  | inr number => exact not_mem_decimal (by decide) l number

theorem dropWhile_padded (l : Int) : (padded l).dropWhile (· = star) = decimal l := by
  apply dropWhile_append_decimal _ l
  · intro b mem
    exact decide_eq_true (List.eq_of_mem_replicate mem)
  · intro b mem
    apply decide_eq_false
    rintro rfl
    exact not_mem_decimal (by decide) l mem

theorem isSstName_nameASst (u : UuidText Id) (l : Int) (id : Id) :
    isSstName (nameASst u l id) = true := by
  rw [isSstName, Bool.and_eq_true, List.isPrefixOf_iff_prefix, List.isSuffixOf_iff_suffix]
  constructor
  · exact ⟨padded l ++ hash :: (u.toText id ++ hash :: frzkvsst), by
      rw [nameASst, List.append_assoc, List.singleton_append]⟩
  · exact ⟨frzkv ++ hash :: (padded l ++ hash :: u.toText id), by
      rw [nameASst]
      simp only [List.append_assoc, List.cons_append]⟩

/-- The fields of a name between its hash marks. -/
theorem splitOn_nameASst (u : UuidText Id) (l : Int) (id : Id) :
    (nameASst u l id).splitOn hash = [frzkv, padded l, u.toText id, frzkvsst] := by
  have field : ∀ {bs : ByteString}, hash ∉ bs → bs.splitOnP (· == hash) = [bs] := by
    intro bs absent
    apply List.splitOnP_eq_singleton
    intro b mem
    rw [beq_eq_false_iff_ne]
    rintro rfl
    exact absent mem
  have mark : ∀ front back : ByteString, (front ++ hash :: back).splitOnP (· == hash) =
      front.splitOnP (· == hash) ++ back.splitOnP (· == hash) :=
    fun front back => List.splitOnP_append_cons front back (beq_self_eq_true hash)
  rw [List.splitOn, nameASst, mark, mark, mark, field (by decide : hash ∉ frzkv), field (no_hash_padded l),
    field (u.no_hash id), field (by decide : hash ∉ frzkvsst)]
  rfl

/-- The level and the id come back from the name that was made of them. -/
theorem retrive_nameASst (u : UuidText Id) (id : Id) (low : -2 ^ 31 ≤ l) (high : l < 2 ^ 31) :
    retriveLevelAndIdFromSstName u (nameASst u l id) = some (l, id) := by
  rw [retriveLevelAndIdFromSstName, if_pos (isSstName_nameASst u l id), splitOn_nameASst]
  change (stoi ((padded l).dropWhile (· = star))).bind _ = _
  rw [dropWhile_padded, stoi_decimal low high, Option.bind_some, u.inverse]
  rfl

theorem padded_length (low : 0 ≤ l) (high : l ≤ 99999) : (padded l).length = 5 := by
  have digits : (decimal l).length ≤ 5 := by
    rw [decimal, if_neg (by omega), text, List.length_map]
    exact Nat.toDigits_length 10 _ 5 (by decide) (by omega)
  rw [padded, List.length_append, List.length_replicate]
  omega

theorem nameASst_length (low : 0 ≤ l) (high : l ≤ 99999) :
    (nameASst u l id).length = sstNameLength := by
  simp only [nameASst, List.length_append, List.length_cons, padded_length low high, u.length]
  rfl

theorem getVersionDescriptorName_length (u : UuidText Id) (id : Id) :
    (getVersionDescriptorName u id).length = vdNameLength := by
  simp only [getVersionDescriptorName, List.length_append, List.length_cons, u.length]
  rfl

end Names

end FileNames

end FrenzyKV
