import Mathlib.Data.Rat.Floor

/-! The options that decide sizes and compactions (`options.h`, `util/options.cc`). -/

namespace FrenzyKV

/-- The options that `iouring_writable` uses. -/
structure WritableOptions where
  needBufferedWrite : Bool
  diskBlockBytes : Nat

/-- The fields of `struct options` that bound tables, memtables and levels, and those of the files
that are written. -/
structure Options extends WritableOptions where
  memoryPageBytes : Nat
  maxBlockSegmentsNumber : Nat
  blockSize : Nat
  maxLevel : Nat
  levelFileNumber : List Nat
  levelFileSize : List Nat

/-- A threshold ratio, as what the source makes of it: the products of a number of files with the
ratio and with one less the ratio, in doubles, without their fractions. -/
structure ThreshRatio where
  allowed : Nat → Nat
  dropped : Nat → Nat

namespace ThreshRatio

instance : One ThreshRatio := ⟨id, fun _ => 0⟩

/-- The ratio as an exact rational. -/
def ofRat (r : ℚ) : ThreshRatio where
  allowed n := (n * r).floor.toNat
  dropped n := (n * (1 - r)).floor.toNat

theorem dropped_ofRat (r : ℚ) (n : Nat) : (ofRat r).dropped n = (n * (1 - r)).floor.toNat := rfl

end ThreshRatio

namespace Options

def default : Options where
  needBufferedWrite := true
  diskBlockBytes := 4096
  memoryPageBytes := 4096
  maxBlockSegmentsNumber := 1000
  blockSize := 4096
  maxLevel := 6
  levelFileNumber := [8, 16, 16, 16, 16, 16]
  levelFileSize := [16 * 1024 * 1024, 128 * 1024 * 1024, 256 * 1024 * 1024,
    512 * 1024 * 1024, 1024 * 1024 * 1024]

/-- Two files a level and one entry a block, for concrete runs. -/
def twoFileLevels : Options where
  needBufferedWrite := true
  diskBlockBytes := 4096
  memoryPageBytes := 4096
  maxBlockSegmentsNumber := 1000
  blockSize := 1
  maxLevel := 6
  levelFileNumber := List.replicate 7 2
  levelFileSize := List.replicate 8 8

def allowedLevelFileNumber (opt : Options) (l : Nat) : Nat :=
  opt.levelFileNumber.getD l 0

def allowedLevelFileSize (opt : Options) (l : Nat) : Nat :=
  opt.levelFileSize.getD l 0

def isAppropriateLevelFileNumber (opt : Options) (l num : Nat) (threshRatio : ThreshRatio) : Bool :=
  let val := threshRatio.allowed (opt.allowedLevelFileNumber l)
  num ≤ val || val == 0

end Options

end FrenzyKV
