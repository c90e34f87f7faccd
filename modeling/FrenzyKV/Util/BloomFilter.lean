import FrenzyKV.Math.Bytes

/-! The filter gate of a table (`util/bloom_filter.cc`), over an arbitrary hash function. -/

namespace FrenzyKV

open Bytes

/-- `filter_policy`: how a key enters a filter representation and how it is tested. -/
structure FilterPolicy where
  appendNewFilter : ByteString → ByteString → ByteString
  mayMatch : ByteString → ByteString → Bool

namespace BloomFilter

def getDelta (h : UInt64) : UInt64 := h >>> 33 ||| h <<< 31

/-- The number of probes for `num_key_bits` bits per key, `num_key_bits * ln 2` in `[1, 60]`. -/
def probes (numKeyBits : Nat) : Nat :=
  min 60 (max 1 (numKeyBits * 69314 / 100000))

def setBit (arr : ByteString) (bitpos : Nat) : ByteString :=
  arr.modify (bitpos / 8) (· ||| (1 <<< UInt8.ofNat (bitpos % 8)))

def setProbes (bits : Nat) (delta : UInt64) : Nat → UInt64 → ByteString → ByteString
  | 0, _, arr => arr
  | n + 1, h, arr => setProbes bits delta n (h + delta) (setBit arr (h.toNat % bits))

def testProbes (bits : Nat) (delta : UInt64) (rep : ByteString) : Nat → UInt64 → Bool
  | 0, _ => true
  | n + 1, h =>
    let bitpos := h.toNat % bits
    if rep.getD (bitpos / 8) 0 &&& (1 <<< UInt8.ofNat (bitpos % 8)) = 0 then false
    else testProbes bits delta rep n (h + delta)

/-- `bloom_filter::append_new_filter` for one key. -/
def appendNewFilter (hash : ByteString → UInt64) (numKeyBits : Nat)
    (key dst : ByteString) : ByteString :=
  let bits := max numKeyBits 64
  let bytes := (bits + 7) / 8
  let h := hash key
  dst ++ setProbes (bytes * 8) (getDelta h) (probes numKeyBits) h (List.replicate bytes 0) ++
    [UInt8.ofNat (probes numKeyBits)]

def mayMatch (hash : ByteString → UInt64) (key rep : ByteString) : Bool :=
  if rep.length < 2 then false
  else
    let bits := (rep.length - 1) * 8
    let repK := (rep.getD (rep.length - 1) 0).toNat
    if 30 < repK then true
    else testProbes bits (getDelta (hash key)) rep repK (hash key)

theorem setProbes_length (bits : Nat) (delta : UInt64) (n : Nat) (h : UInt64)
    (arr : ByteString) : (setProbes bits delta n h arr).length = arr.length := by
  induction n generalizing h arr with
  | zero => rfl
  | succ n ih => simp [setProbes, ih, setBit]

/-- More than 30 probes switch the test off: whatever was added passes. -/
theorem mayMatch_appendNewFilter (hash : ByteString → UInt64) {numKeyBits : Nat}
    (many : 30 < probes numKeyBits) (key dst query : ByteString) :
    mayMatch hash query (appendNewFilter hash numKeyBits key dst) = true := by
  have small : probes numKeyBits < 256 := by
    have : probes numKeyBits ≤ 60 := Nat.min_le_left _ _
    omega
  have long : ¬ (appendNewFilter hash numKeyBits key dst).length < 2 := by
    simp only [appendNewFilter, List.length_append, setProbes_length, List.length_replicate,
      List.length_singleton]
    omega
  have last : (appendNewFilter hash numKeyBits key dst).getD
      ((appendNewFilter hash numKeyBits key dst).length - 1) 0 =
        UInt8.ofNat (probes numKeyBits) := by
    simp [appendNewFilter, List.getD_eq_getElem?_getD]
  rw [mayMatch, if_neg long]
  dsimp only
  rw [last, if_pos]
  rw [UInt8.toNat_ofNat', Nat.mod_eq_of_lt small]
  exact many

end BloomFilter

def makeBloomFilter (hash : ByteString → UInt64) (numKeyBits : Nat) : FilterPolicy where
  appendNewFilter := BloomFilter.appendNewFilter hash numKeyBits
  mayMatch := BloomFilter.mayMatch hash

end FrenzyKV
