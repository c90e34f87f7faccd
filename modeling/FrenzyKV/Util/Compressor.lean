import FrenzyKV.Math.Bytes
import FrenzyKV.Util.Options

/-! The compressors of blocks (`util/compressor.cc`). -/

namespace FrenzyKV

open Bytes

/-- The part of `compressor_policy` that blocks use. Where there is no result the source has an
error code. -/
structure CompressorPolicy where
  compressAppendTo : ByteString → ByteString
  decompressAppendTo : ByteString → Option ByteString
  decompress : (room : Nat) → ByteString → Option ByteString
  decompressedMinimumSize : ByteString → Nat

/-- The functions of the zstd library, each called with enough room to compress into. -/
structure Zstd where
  compress : ByteString → ByteString
  decompress : (room : Nat) → ByteString → Option ByteString
  getFrameContentSize : ByteString → Nat

def zstdCompressor (zstd : Zstd) : CompressorPolicy where
  compressAppendTo := zstd.compress
  decompressAppendTo src := zstd.decompress (zstd.getFrameContentSize src) src
  decompress room src :=
    if room < zstd.getFrameContentSize src then none else zstd.decompress room src
  decompressedMinimumSize := zstd.getFrameContentSize

def emptyCompressor : CompressorPolicy where
  compressAppendTo src := src
  decompressAppendTo src := some src
  decompress room src := if room < src.length then none else some src
  decompressedMinimumSize src := src.length

/-- The options that decide how blocks are stored, beside those that bound them. -/
structure StorageOptions extends Options where
  needCompress : Bool
  compressorName : String

/-- `get_compressor`; an unknown name fails. -/
def getCompressor (zstd : Zstd) (opt : StorageOptions) (name : String) : Option CompressorPolicy :=
  let name := if name = "" then opt.compressorName else name
  if name = "zstd" then some (zstdCompressor zstd)
  else if name = "empty" then some emptyCompressor
  else none

namespace CompressorPolicy

/-- The reader's decompression undoes the writer's compression, and needs no more room than it
asks for. -/
structure Inverts (reader writer : CompressorPolicy) : Prop where
  append : ∀ src, reader.decompressAppendTo (writer.compressAppendTo src) = some src
  room : ∀ src room, reader.decompressedMinimumSize (writer.compressAppendTo src) ≤ room →
    reader.decompress room (writer.compressAppendTo src) = some src
  size : ∀ src, src.length ≤ reader.decompressedMinimumSize (writer.compressAppendTo src)

end CompressorPolicy

theorem emptyCompressor_inverts : emptyCompressor.Inverts emptyCompressor where
  append _ := rfl
  room _ _ enough := if_neg (not_lt.mpr enough)
  size _ := le_rfl

/-- A library that only puts a byte before its input, for concrete runs. -/
def Zstd.tagging : Zstd where
  compress src := 0 :: src
  decompress room src := if src.length ≤ room + 1 then src.tail? else none
  getFrameContentSize src := src.length - 1

theorem tagging_inverts : (zstdCompressor .tagging).Inverts (zstdCompressor .tagging) where
  append _ := if_pos le_rfl
  room src room enough := by
    have fits : (0 :: src).length ≤ room + 1 := Nat.succ_le_succ enough
    exact (if_neg (not_lt.mpr enough)).trans (if_pos fits)
  size _ := le_rfl

end FrenzyKV
