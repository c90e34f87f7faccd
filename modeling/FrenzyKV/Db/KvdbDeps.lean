import FrenzyKV.Db.Version

/-! What the database takes from outside (`kvdb_deps.h`): the options and the behaviour of
code that is not part of the repository. -/

namespace FrenzyKV

open Bytes

structure KvdbDeps where
  opt : Options
  /-- The hash function of the filter. -/
  hash : ByteString → UInt64
  /-- Whether `skip_list::insert` replaces the value of a key that is there. -/
  skipListReplaces : Bool
  /-- The n-th uuid drawn. -/
  uuid : Nat → Nat
  uuid_injective : Function.Injective uuid
  /-- The size of a table file, which depends on the compressor. -/
  fileSize : File → Nat
  /-- `std::ranges::sort` by file size; the order of equal sizes is not specified. -/
  sortByFileSize : List File → List File
  sortByFileSize_perm : ∀ files, (sortByFileSize files).Perm files
  sortByFileSize_sorted : ∀ files, (sortByFileSize files).Pairwise (fileSize · ≤ fileSize ·)

namespace KvdbDeps

/-- `make_bloom_filter(64)`, the filter of `db_local`. -/
def filterPolicy (deps : KvdbDeps) : FilterPolicy := makeBloomFilter deps.hash 64

theorem filterPolicy_open (deps : KvdbDeps) : deps.filterPolicy.Open :=
  makeBloomFilter_open deps.hash

/-- Dependencies for concrete runs: uuids that count up and files as long as their entries. -/
def plain (opt : Options) : KvdbDeps where
  opt
  hash := fun _ => 0
  skipListReplaces := true
  uuid := id
  uuid_injective := Function.injective_id
  fileSize := fun f => f.table.entries.length
  sortByFileSize := List.insertionSort (·.table.entries.length ≤ ·.table.entries.length)
  sortByFileSize_perm := List.perm_insertionSort _
  sortByFileSize_sorted := fun files => by
    have total : Std.Total fun f g : File => f.table.entries.length ≤ g.table.entries.length :=
      ⟨fun f g => le_total f.table.entries.length g.table.entries.length⟩
    have trans : IsTrans File fun f g => f.table.entries.length ≤ g.table.entries.length :=
      ⟨fun _ _ _ => le_trans⟩
    exact List.pairwise_insertionSort _ files

/-- Memtables of a few bytes, for concrete runs. -/
abbrev paged (bytes : Nat) : KvdbDeps :=
  plain { Options.twoFileLevels with memoryPageBytes := bytes }

end KvdbDeps

end FrenzyKV
