import FrenzyKV.Table.SstableLookup

/-! What `sstable_builder` counts against its size limit (`table/sstable_builder.cc`). -/

namespace FrenzyKV

open Bytes

/-- A stored block has its length, the compression mark and the checksum beside its content. -/
theorem storeContent_length (opt : StorageOptions) (compressor : Option CompressorPolicy)
    (crc32c : ByteString → UInt32) (content : ByteString) :
    btlSize + wcSize + crc32Size ≤ (storeContent opt compressor crc32c content).length := by
  have sealed : ∀ wc stored, btlSize + wcSize + crc32Size ≤ (sealBlock crc32c wc stored).length := by
    intro wc stored
    simp only [sealBlock, List.length_append, encodeBigEndian_length]
    omega
  unfold storeContent
  split
  · exact sealed _ _
  · exact sealed _ _

theorem RawBlockBuilder.publicPrefix_of_add {opt : Options} {b b' : RawBlockBuilder} {e : KvEntry}
    (added : b.add opt e = some b') : b'.publicPrefix ≠ none := by
  have opened : (b.opened e.key.serializeUserKey).1.publicPrefix ≠ none := by
    rw [RawBlockBuilder.opened]
    cases there : b.publicPrefix with
    | none => exact Option.some_ne_none _
    | some publicPrefix =>
      rw [there]
      exact Option.some_ne_none _
  rw [RawBlockBuilder.add] at added
  dsimp only at added
  split at added
  · obtain rfl := Option.some.inj added
    exact opened
  · split at added
    · obtain rfl := Option.some.inj added
      exact Option.some_ne_none _
    · cases added

theorem RawBlockBuilder.addAll_append {opt : Options} {b : RawBlockBuilder}
    {front es : List KvEntry} :
    b.addAll opt (front ++ es) = (b.addAll opt front).bind fun next => next.addAll opt es := by
  induction front generalizing b with
  | nil => rfl
  | cons x front ih =>
    rw [List.cons_append, RawBlockBuilder.addAll, RawBlockBuilder.addAll, Option.bind_assoc]
    exact congrArg _ (funext fun next => ih)

namespace RawSstableBuilder

variable {d : TableDeps} {r r' : RawSstableBuilder} {e : KvEntry} {es : List KvEntry}

/-- What writing a block out does. -/
theorem flushCurrentBlock_cases {compressor : Option CompressorPolicy}
    (flushed : r.flushCurrentBlock d compressor = some r') :
    (r.block.publicPrefix = none ∧ r' = r) ∨
      (r.block.publicPrefix ≠ none ∧ ∃ storage : ByteString,
        btlSize + wcSize + crc32Size ≤ storage.length ∧
        r' = { r with
          block := .fresh
          file := r.file ++ storage
          bytesAppendedToFile := r.bytesAppendedToFile + storage.length }) := by
  rw [flushCurrentBlock] at flushed
  by_cases empty : r.block.publicPrefix = none
  · rw [if_pos empty] at flushed
    exact .inl ⟨empty, (Option.some.inj flushed).symm⟩
  · rw [if_neg empty] at flushed
    obtain ⟨storage, finished, written⟩ := Option.bind_eq_some_iff.mp flushed
    obtain ⟨file, appended, rfl⟩ := Option.map_eq_some_iff.mp written
    rw [RawBlockBuilder.finish, if_neg empty] at finished
    dsimp only at finished
    rw [appendToFile] at appended
    split_ifs at finished appended
    obtain rfl := Option.some.inj finished
    obtain rfl := Option.some.inj appended
    exact .inr ⟨empty, _, storeContent_length _ _ _ _, rfl⟩

/-- What `add` does: it refuses, or puts the entry into the block, and a block that has become
large enough is written out, after which the size of a fresh block is counted. -/
theorem add_cases {taken : Bool} (added : r.add d e = some (taken, r')) :
    (r.sizeLimit ≤ r.sizeFlushed ∧ taken = false ∧ r' = r) ∨
      (r.sizeFlushed < r.sizeLimit ∧ taken = true ∧ r'.sizeLimit = r.sizeLimit ∧
        ∃ block, r.block.add d.opt.toOptions e = some block ∧
          if d.opt.blockSize ≤ block.storage.length then
            ∃ storage : ByteString, btlSize + wcSize + crc32Size ≤ storage.length ∧
              r'.block = .fresh ∧ r'.file = r.file ++ storage ∧
              r'.bytesAppendedToFile = r.bytesAppendedToFile + storage.length ∧
              r'.sizeFlushed = r.sizeFlushed + btlSize
          else r'.block = block ∧ r'.file = r.file ∧
            r'.bytesAppendedToFile = r.bytesAppendedToFile ∧ r'.sizeFlushed = r.sizeFlushed) := by
  rw [add, reachTheSizeLimit] at added
  by_cases full : r.sizeLimit ≤ r.sizeFlushed
  · rw [decide_eq_true full, if_pos rfl] at added
    obtain ⟨rfl, rfl⟩ := Prod.mk.inj (Option.some.inj added)
    exact .inl ⟨full, rfl, rfl⟩
  · rw [decide_eq_false full, if_neg Bool.false_ne_true] at added
    obtain ⟨block, blockAdded, later⟩ := Option.bind_eq_some_iff.mp added
    dsimp only at later
    refine .inr ⟨Nat.lt_of_not_le full, ?_⟩
    by_cases large : d.opt.blockSize ≤ block.storage.length
    · rw [if_pos large] at later
      obtain ⟨next, flushed, eq⟩ := Option.map_eq_some_iff.mp later
      obtain ⟨rfl, rfl⟩ := Prod.mk.inj eq
      rcases flushCurrentBlock_cases flushed with ⟨empty, -⟩ | ⟨-, storage, long, rfl⟩
      · exact absurd empty (RawBlockBuilder.publicPrefix_of_add blockAdded)
      · refine ⟨rfl, rfl, block, blockAdded, ?_⟩
        rw [if_pos large]
        exact ⟨storage, long, rfl, rfl, rfl, rfl⟩
    · rw [if_neg large] at later
      obtain ⟨rfl, rfl⟩ := Prod.mk.inj (Option.some.inj later)
      refine ⟨rfl, rfl, block, blockAdded, ?_⟩
      rw [if_neg large]
      exact ⟨rfl, rfl, rfl, rfl⟩

variable (d) in
/-- A sequence of `add` calls, those that refuse included. -/
def addEach : RawSstableBuilder → List KvEntry → Option RawSstableBuilder
  | r, [] => some r
  | r, e :: es => (r.add d e).bind fun added => addEach added.2 es

/-- The size of the block that a call has appended, if it has. -/
def grown (before after : RawSstableBuilder) : List Nat :=
  if after.file.length = before.file.length then []
  else [after.file.length - before.file.length]

variable (d) in
/-- The sizes of the data blocks that `add` calls append, and `finish` behind them. -/
def blockSizes : RawSstableBuilder → List KvEntry → List Nat
  | r, [] =>
    match r.flushCurrentBlock d (getCompressor d.zstd d.opt "zstd") with
    | some closed => r.grown closed
    | none => []
  | r, e :: es =>
    match r.add d e with
    | some (_, next) => r.grown next ++ blockSizes next es
    | none => []

/-- The size limit is applied to the data that was written: what a state that was reached from
`start` by `add` calls is expected to satisfy. -/
structure Accounted (d : TableDeps) (start : RawSstableBuilder) (es : List KvEntry)
    (r : RawSstableBuilder) : Prop where
  counted : r.sizeFlushed = r.bytesAppendedToFile
  written : r.file.length = r.bytesAppendedToFile
  refuses : ∀ e taken next, r.add d e = some (taken, next) →
    (taken = false ↔ r.sizeLimit ≤ r.bytesAppendedToFile)
  dataArea : ∀ closed, r.flushCurrentBlock d (getCompressor d.zstd d.opt "zstd") = some closed →
    closed.bytesAppendedToFile < r.sizeLimit + ((start.blockSizes d es).reverse.take 2).sum

/-- No call fills a block: the entries up to each of them, in one block, stay below the size at
which blocks are written out. -/
def StaysInOneBlock (opt : Options) (es : List KvEntry) : Prop :=
  ∀ front, front <+: es → front ≠ [] → ∀ block, RawBlockBuilder.fresh.addAll opt front = some block →
    block.storage.length < opt.blockSize

variable {front : List KvEntry} {start : RawSstableBuilder}

theorem staysInOneBlock_append {opt : Options} :
    StaysInOneBlock opt (front ++ [e]) ↔ StaysInOneBlock opt front ∧
      ∀ block, RawBlockBuilder.fresh.addAll opt (front ++ [e]) = some block →
        block.storage.length < opt.blockSize := by
  constructor
  · intro stays
    refine ⟨?_, stays _ (List.prefix_refl _) (List.append_ne_nil_of_right_ne_nil _ (List.cons_ne_nil _ _))⟩
    intro piece isPrefix
    exact stays piece (isPrefix.trans (List.prefix_append _ _))
  · intro ⟨before, last⟩ piece isPrefix
    cases List.prefix_concat_iff.mp isPrefix with
    | inl whole =>
      intro _ block
      rw [whole]
      exact last block
    | inr shorter => exact before piece shorter

/-- What holds behind the calls for `front`. Until a block fills, nothing is written or counted;
from then on the count is behind the file. -/
structure Progress (d : TableDeps) (sizeLimit : Nat) (front : List KvEntry) (r : RawSstableBuilder) :
    Prop where
  limit : r.sizeLimit = sizeLimit
  written : r.file.length = r.bytesAppendedToFile
  one : StaysInOneBlock d.opt.toOptions front → r.bytesAppendedToFile = 0 ∧ r.sizeFlushed = 0 ∧
    RawBlockBuilder.fresh.addAll d.opt.toOptions front = some r.block
  more : ¬ StaysInOneBlock d.opt.toOptions front → r.sizeFlushed < r.bytesAppendedToFile

variable {sizeLimit : Nat}

theorem Progress.make (made : make sizeLimit = some r) : Progress d sizeLimit [] r := by
  rw [RawSstableBuilder.make] at made
  split_ifs at made
  obtain rfl := Option.some.inj made
  refine ⟨rfl, rfl, fun _ => ⟨rfl, rfl, rfl⟩, fun fills => absurd ?_ fills⟩
  intro piece isPrefix some_entry
  exact absurd (List.prefix_nil.mp isPrefix) some_entry

/-- The bytes of the file stay counted. -/
theorem written_of_add {taken : Bool} (written : r.file.length = r.bytesAppendedToFile)
    (added : r.add d e = some (taken, r')) : r'.file.length = r'.bytesAppendedToFile := by
  rcases add_cases added with ⟨-, -, rfl⟩ | ⟨-, -, -, block, -, effect⟩
  · exact written
  · split at effect
    · obtain ⟨storage, -, -, file, bytes, -⟩ := effect
      rw [file, List.length_append, bytes, written]
    · rw [effect.2.1, effect.2.2.1, written]

/-- One call of `add`. -/
theorem Progress.add {taken : Bool} (positive : 0 < sizeLimit) (progress : Progress d sizeLimit front r)
    (added : r.add d e = some (taken, r')) : Progress d sizeLimit (front ++ [e]) r' := by
  have header : btlSize + wcSize + crc32Size = 9 := rfl
  have length : btlSize = 4 := rfl
  have limit := progress.limit
  have written := written_of_add progress.written added
  rcases add_cases added with ⟨full, -, rfl⟩ | ⟨-, -, sameLimit, block, blockAdded, effect⟩
  · -- Only what was written makes the builder refuse.
    have fills : ¬ StaysInOneBlock d.opt.toOptions front := by
      intro stays
      have := (progress.one stays).2.1
      omega
    refine ⟨limit, written, fun stays => ?_, fun _ => progress.more fills⟩
    exact absurd (staysInOneBlock_append.mp stays).1 fills
  · by_cases stays : StaysInOneBlock d.opt.toOptions front
    · obtain ⟨nothing, uncounted, sofar⟩ := progress.one stays
      have together : RawBlockBuilder.fresh.addAll d.opt.toOptions (front ++ [e]) = some block := by
        rw [RawBlockBuilder.addAll_append, sofar, Option.bind_some, RawBlockBuilder.addAll, blockAdded]
        rfl
      have fills_iff : StaysInOneBlock d.opt.toOptions (front ++ [e]) ↔
          block.storage.length < d.opt.blockSize := by
        rw [staysInOneBlock_append, together]
        simp [stays]
      by_cases large : d.opt.blockSize ≤ block.storage.length
      · rw [if_pos large] at effect
        obtain ⟨storage, long, -, file, bytes, flushed⟩ := effect
        refine ⟨sameLimit.trans limit, written, ?_, ?_⟩
        · intro stays'
          exact absurd (fills_iff.mp stays') (not_lt.mpr large)
        · intro _
          omega
      · rw [if_neg large] at effect
        obtain ⟨rfl, file, bytes, flushed⟩ := effect
        refine ⟨sameLimit.trans limit, written, ?_, ?_⟩
        · intro _
          exact ⟨bytes.trans nothing, flushed.trans uncounted, together⟩
        · intro fills
          exact absurd (fills_iff.mpr (Nat.lt_of_not_le large)) fills
    · have behind := progress.more stays
      have fills : ¬ StaysInOneBlock d.opt.toOptions (front ++ [e]) := fun all =>
        stays (staysInOneBlock_append.mp all).1
      by_cases large : d.opt.blockSize ≤ block.storage.length
      · rw [if_pos large] at effect
        obtain ⟨storage, long, -, file, bytes, flushed⟩ := effect
        refine ⟨sameLimit.trans limit, written, fun all => absurd all fills, fun _ => ?_⟩
        omega
      · rw [if_neg large] at effect
        obtain ⟨-, file, bytes, flushed⟩ := effect
        refine ⟨sameLimit.trans limit, written, fun all => absurd all fills, fun _ => ?_⟩
        omega

/-- A sequence of calls. -/
theorem Progress.addEach (positive : 0 < sizeLimit) (progress : Progress d sizeLimit front r)
    (ran : r.addEach d es = some r') : Progress d sizeLimit (front ++ es) r' := by
  induction es generalizing front r with
  | nil =>
    obtain rfl := Option.some.inj ran
    rw [List.append_nil]
    exact progress
  | cons e es ih =>
    obtain ⟨⟨taken, next⟩, added, later⟩ := Option.bind_eq_some_iff.mp ran
    have run := ih (progress.add positive added) later
    rwa [List.append_assoc, List.singleton_append] at run

theorem file_le_of_add {taken : Bool} (added : r.add d e = some (taken, r')) :
    r.file.length ≤ r'.file.length := by
  rcases add_cases added with ⟨-, -, rfl⟩ | ⟨-, -, -, block, -, effect⟩
  · exact le_rfl
  · split at effect
    · obtain ⟨storage, -, -, file, -⟩ := effect
      rw [file, List.length_append]
      exact Nat.le_add_right _ _
    · rw [effect.2.1]

theorem file_le_of_addEach (ran : r.addEach d es = some r') : r.file.length ≤ r'.file.length := by
  induction es generalizing r with
  | nil =>
    obtain rfl := Option.some.inj ran
    exact le_rfl
  | cons e es ih =>
    obtain ⟨⟨taken, next⟩, added, later⟩ := Option.bind_eq_some_iff.mp ran
    exact (file_le_of_add added).trans (ih later)

/-- Calls that leave the file alone have written no block. -/
theorem blockSizes_of_kept (ran : r.addEach d es = some r') (kept : r'.file.length = r.file.length) :
    r.blockSizes d es = r'.blockSizes d [] := by
  induction es generalizing r with
  | nil =>
    obtain rfl := Option.some.inj ran
    rfl
  | cons e es ih =>
    obtain ⟨⟨taken, next⟩, added, later⟩ := Option.bind_eq_some_iff.mp ran
    have first := file_le_of_add added
    have rest := file_le_of_addEach later
    dsimp only at later rest
    have same : next.file.length = r.file.length := by omega
    rw [blockSizes.eq_2, added, ← ih later (by omega)]
    dsimp only
    rw [grown, if_pos same, List.nil_append]

theorem Progress.accounted (positive : 0 < sizeLimit) (progress : Progress d sizeLimit es r)
    (unwritten : start.file = []) (ran : start.addEach d es = some r)
    (stays : StaysInOneBlock d.opt.toOptions es) : Accounted d start es r := by
  obtain ⟨nothing, uncounted, -⟩ := progress.one stays
  have limit := progress.limit
  have written := progress.written
  refine ⟨uncounted.trans nothing.symm, written, ?_, ?_⟩
  · intro e taken next added
    rcases add_cases added with ⟨full, -, -⟩ | ⟨-, rfl, -⟩
    · omega
    · constructor
      · intro refused
        cases refused
      · omega
  · intro closed flushed
    have kept : r.file.length = start.file.length := by
      rw [written, nothing, unwritten, List.length_nil]
    rw [blockSizes_of_kept ran kept, blockSizes, flushed]
    dsimp only
    rcases flushCurrentBlock_cases flushed with ⟨-, rfl⟩ | ⟨-, storage, long, rfl⟩
    · omega
    · have size : (r.file ++ storage).length = r.file.length + storage.length := List.length_append
      have some_bytes : btlSize + wcSize + crc32Size = 9 := rfl
      rw [grown, if_neg (by rw [size]; omega), size, nothing]
      simp only [List.reverse_cons, List.reverse_nil, List.nil_append, List.take_succ_cons,
        List.take_nil, List.sum_cons, List.sum_nil]
      omega

/-- In a run of `add` calls the limit is applied to the data that was written, in every state on
the way, if and only if no call fills a block. -/
theorem accounted_iff (made : make sizeLimit = some start) (ran : start.addEach d es = some r) :
    (∀ front s, front <+: es → start.addEach d front = some s → Accounted d start front s) ↔
      StaysInOneBlock d.opt.toOptions es := by
  have positive : 0 < sizeLimit ∧ start.file = [] := by
    rw [make] at made
    split_ifs at made with zero
    obtain rfl := Option.some.inj made
    exact ⟨Nat.pos_of_ne_zero zero, rfl⟩
  have begun : Progress d sizeLimit [] start := .make made
  constructor
  · intro all
    by_contra fills
    have behind := (begun.addEach positive.1 ran).more fills
    have counted := (all es r (List.prefix_refl _) ran).counted
    omega
  · intro stays front s isPrefix reached
    refine (begun.addEach positive.1 reached).accounted positive.1 positive.2 reached ?_
    intro piece isPiece
    exact stays piece (isPiece.trans isPrefix)

theorem wholeBlock_accounted : ∃ start r, make 4096 = some start ∧
    start.addEach RawSstable.wholeBlock RawBlock.threeEntries = some r ∧
    ((∀ front s, front <+: RawBlock.threeEntries → start.addEach RawSstable.wholeBlock front = some s →
        Accounted RawSstable.wholeBlock start front s) ↔
      StaysInOneBlock RawSstable.wholeBlock.opt.toOptions RawBlock.threeEntries) := by
  have runs : ((make 4096).bind fun start => start.addEach RawSstable.wholeBlock RawBlock.threeEntries).isSome := by
    decide +kernel
  obtain ⟨r, eq⟩ := Option.isSome_iff_exists.mp runs
  obtain ⟨start, made, ran⟩ := Option.bind_eq_some_iff.mp eq
  exact ⟨start, r, made, ran, accounted_iff made ran⟩

/-- With a limit of five bytes and a block per entry, four are counted for the first block. -/
theorem smallBlocks_not_accounted : ∃ start r, make 5 = some start ∧
    start.addEach RawSstable.smallBlocks [.brief 97 0 1] = some r ∧ r.sizeFlushed = 4 ∧
    5 ≤ r.bytesAppendedToFile ∧ ¬ Accounted RawSstable.smallBlocks start [.brief 97 0 1] r := by
  have runs : (((make 5).bind fun start => start.addEach RawSstable.smallBlocks [.brief 97 0 1]).any fun r =>
      r.sizeFlushed = 4 && 5 ≤ r.bytesAppendedToFile) = true := by decide +kernel
  obtain ⟨r, eq, sizes⟩ := (Option.any_eq_true _ _).mp runs
  obtain ⟨start, made, ran⟩ := Option.bind_eq_some_iff.mp eq
  rw [Bool.and_eq_true, decide_eq_true_iff, decide_eq_true_iff] at sizes
  refine ⟨start, r, made, ran, sizes.1, sizes.2, fun accounted => ?_⟩
  have counted := accounted.counted
  omega

end RawSstableBuilder

end FrenzyKV
