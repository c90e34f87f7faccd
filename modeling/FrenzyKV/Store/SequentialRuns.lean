import FrenzyKV.Db.LevelOrder
import FrenzyKV.Framework.Machine

namespace FrenzyKV.SequentialRuns

open Framework

inductive Action where
  | flush (m : Memtable)
  | mayCompact (from_ : Nat) (threshRatio : ThreshRatio)

/-- The numbers of a flushed memtable are larger than all stored ones. -/
def Fresh {φ : Type} (view : FileView φ) (v : Version φ) (m : Memtable) : Prop :=
  ∀ e ∈ m.storage, ∀ f ∈ v, ∀ x ∈ view.entries f, x.seq < e.seq

instance {φ : Type} (view : FileView φ) (v : Version φ) (m : Memtable) : Decidable (Fresh view v m) :=
  inferInstanceAs (Decidable (∀ e ∈ m.storage, ∀ f ∈ v, ∀ x ∈ view.entries f, x.seq < e.seq))

def step (deps : KvdbDeps) (s : Store File) : Action → Option (Store File)
  | .flush m => if Fresh .tables s.current m then flushToDisk deps s m else none
  | .mayCompact from_ r => mayCompact deps s from_ r

def machine (deps : KvdbDeps) : Machine (Store File) Action where
  init s := s = Store.empty
  step := step deps

/-- The inputs of the compaction, if the step makes one, are safe. -/
def PullOk (deps : KvdbDeps) (s : Store File) : Action → Prop
  | .flush _ => True
  | .mayCompact from_ r => ∀ l ∈ levelToCompact deps s.current from_ r,
      ∀ inputs ∈ compactionInputs deps s.current l r, PullSafe .tables s.current l inputs

instance (deps : KvdbDeps) (s : Store File) : (a : Action) → Decidable (PullOk deps s a)
  | .flush _ => isTrue trivial
  | .mayCompact from_ r =>
    inferInstanceAs (Decidable (∀ l ∈ levelToCompact deps s.current from_ r,
      ∀ inputs ∈ compactionInputs deps s.current l r, PullSafe .tables s.current l inputs))

abbrev plainDeps : KvdbDeps := KvdbDeps.plain Options.twoFileLevels

/-- Flush entries with the given keys, numbered from a first number on. -/
def flushKeys (first : Nat) (keys : List UInt8) : Action :=
  .flush (Memtable.ofEntries Options.twoFileLevels
    ((keys.zipIdx first).map fun (k, n) => KvEntry.brief k n 0))

/-- Key 4 moves down to level 3 twice, in two files. -/
def movingDown : List Action :=
  [flushKeys 1 [4, 9, 10], flushKeys 4 [2], .mayCompact 0 1, flushKeys 5 [3, 4], flushKeys 7 [5, 6],
    .mayCompact 0 1, .mayCompact 1 1, .mayCompact 2 1, flushKeys 9 [7], flushKeys 10 [7],
    .mayCompact 0 1, .mayCompact 1 1, .mayCompact 2 1]

end FrenzyKV.SequentialRuns
