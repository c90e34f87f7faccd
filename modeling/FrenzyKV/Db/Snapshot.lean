import FrenzyKV.Db.Version

/-! Sequence numbers and snapshots (`db/snapshot.h`, `db/snapshot.cc`). -/

namespace FrenzyKV

structure Snapshot (φ : Type) where
  seq : Nat
  version : Version φ
deriving DecidableEq

/-- `snapshot::valid`; the default snapshot has number 0. -/
def Snapshot.valid {φ : Type} (snap : Snapshot φ) : Bool := snap.seq != 0

structure SnapshotCenter where
  newestUnusedSeq : Nat
deriving DecidableEq, Repr

namespace SnapshotCenter

def empty : SnapshotCenter := ⟨1⟩

/-- The difference is taken in 32 bits. -/
def leatestUsedSequenceNumber (c : SnapshotCenter) : Nat :=
  (c.newestUnusedSeq + (sequenceNumberModulus - 1)) % sequenceNumberModulus

def getSnapshot {φ : Type} (c : SnapshotCenter) (version : Version φ) : Snapshot φ :=
  ⟨c.leatestUsedSequenceNumber, version⟩

/-- `get_next_unused_sequence_number`: the number it returns is the counter before the step. -/
def getNextUnusedSequenceNumber (c : SnapshotCenter) (count : Nat) : SnapshotCenter :=
  ⟨(c.newestUnusedSeq + count) % sequenceNumberModulus⟩

def setInitLeatestUsedSequenceNumber (c : SnapshotCenter) (seq : Nat) : SnapshotCenter :=
  let next := (seq + 1) % sequenceNumberModulus
  if next ≤ c.leatestUsedSequenceNumber then c else ⟨next⟩

variable {c : SnapshotCenter}

theorem leatestUsed_of_pos (positive : 0 < c.newestUnusedSeq)
    (small : c.newestUnusedSeq < sequenceNumberModulus) :
    c.leatestUsedSequenceNumber = c.newestUnusedSeq - 1 := by
  rw [leatestUsedSequenceNumber, show c.newestUnusedSeq + (sequenceNumberModulus - 1) =
    c.newestUnusedSeq - 1 + sequenceNumberModulus by omega, Nat.add_mod_right]
  exact Nat.mod_eq_of_lt (by omega)

theorem getNextUnused_of_lt {count : Nat}
    (small : c.newestUnusedSeq + count < sequenceNumberModulus) :
    (c.getNextUnusedSequenceNumber count).newestUnusedSeq = c.newestUnusedSeq + count :=
  Nat.mod_eq_of_lt small

/-- Without wrap-around the counter never goes back. -/
theorem setInit_of_lt {seq : Nat} (positive : 0 < c.newestUnusedSeq)
    (small : c.newestUnusedSeq < sequenceNumberModulus) (next : seq + 1 < sequenceNumberModulus) :
    (c.setInitLeatestUsedSequenceNumber seq).newestUnusedSeq = max c.newestUnusedSeq (seq + 1) := by
  simp only [setInitLeatestUsedSequenceNumber, leatestUsed_of_pos positive small,
    Nat.mod_eq_of_lt next]
  split
  · exact (max_eq_left (by omega)).symm
  · change seq + 1 = _
    exact (max_eq_right (by omega)).symm

end SnapshotCenter

end FrenzyKV
