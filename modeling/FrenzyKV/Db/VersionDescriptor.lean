import FrenzyKV.Db.Version
import FrenzyKV.Framework.CrashStates

/-! The files of a database that are not tables: the log, the version descriptors, the file
that names the current one, and the sequence number (`db/version_descriptor.cc`). -/

namespace FrenzyKV

open Bytes

/-- The contents of the database directory. A descriptor lists table files; its name stands
for a uuid. `current` is what the current-version file holds, `none` while it is empty. -/
structure Disk where
  log : ByteString
  sstables : List File
  descriptors : List (Nat × List File)
  current : Option Nat
  seqnum : ByteString
deriving DecidableEq

inductive DiskEffect where
  | truncateLog
  | writeTable (f : File)
  | writeDescriptor (name : Nat) (files : List File)
  | truncateCurrent
  | appendCurrent (name : Nat)
  | syncCurrent
  | unlinkDescriptor (name : Nat)
  | unlinkTable (f : File)

namespace Disk

def apply (d : Disk) : DiskEffect → Disk
  | .truncateLog => { d with log := [] }
  | .writeTable f => { d with sstables := d.sstables ++ [f] }
  | .writeDescriptor name files => { d with descriptors := d.descriptors ++ [(name, files)] }
  | .truncateCurrent => { d with current := none }
  | .appendCurrent name => { d with current := some name }
  -- the data is in the file already, a sync adds nothing that a crash of the process can take
  | .syncCurrent => d
  | .unlinkDescriptor name => { d with descriptors := d.descriptors.filter (·.1 ≠ name) }
  | .unlinkTable f => { d with sstables := d.sstables.filter (· ≠ f) }

def applyAll (d : Disk) (effects : List DiskEffect) : Disk := effects.foldl apply d

@[simp] theorem applyAll_singleton (d : Disk) (effect : DiskEffect) :
    d.applyAll [effect] = d.apply effect := rfl

/-- `get_version`: the files a descriptor lists. A missing descriptor is created empty. -/
def getVersion (d : Disk) (name : Nat) : Version File := (d.descriptors.lookup name).getD []

/-- `get_current_version`. -/
def getCurrentVersion (d : Disk) : Version File := (d.current.map d.getVersion).getD []

/-- A name that no descriptor file has and the current-version file does not hold. -/
def FreshName (d : Disk) (name : Nat) : Prop :=
  d.current ≠ some name ∧ ∀ p ∈ d.descriptors, p.1 ≠ name

instance (d : Disk) (name : Nat) : Decidable (d.FreshName name) :=
  inferInstanceAs (Decidable (_ ∧ _))

/-- File names are unique in a directory. -/
structure WellFormed (d : Disk) : Prop where
  sstables : d.sstables.Nodup
  descriptors : (d.descriptors.map (·.1)).Nodup

end Disk

/-- `set_current_version_file`, which opens the file with truncation. -/
def setCurrentVersionFile (name : Nat) : List DiskEffect :=
  [.truncateCurrent, .appendCurrent name, .syncCurrent]

/-- `write_leatest_sequence_number` as the bytes of its file. -/
def writeLeatestSequenceNumber (seq : Nat) : ByteString := encodeLittleEndian 4 seq

/-- `get_leatest_sequence_number`; a short file counts as number 0. -/
def getLeatestSequenceNumber (bytes : ByteString) : Nat :=
  if bytes.length < 4 then 0 else decodeLittleEndian (bytes.take 4)

theorem get_writeLeatestSequenceNumber {seq : Nat} (small : seq < sequenceNumberModulus) :
    getLeatestSequenceNumber (writeLeatestSequenceNumber seq) = seq := by
  have width : (encodeLittleEndian 4 seq).length = 4 := encodeLittleEndian_length _ _
  rw [getLeatestSequenceNumber, writeLeatestSequenceNumber, if_neg (by omega),
    List.take_of_length_le width.le, decode_encodeLittleEndian]
  exact Nat.mod_eq_of_lt small

theorem lookup_append_of_ne {d : List (Nat × List File)} {name other : Nat} {files : List File}
    (ne : other ≠ name) : (d ++ [(name, files)]).lookup other = d.lookup other := by
  have absent : (other == name) = false := by simpa using ne
  rw [List.lookup_append, List.lookup_cons, absent]
  exact Option.or_none

theorem lookup_append_self {d : List (Nat × List File)} {name : Nat} {files : List File}
    (fresh : ∀ p ∈ d, p.1 ≠ name) : (d ++ [(name, files)]).lookup name = some files := by
  have absent : d.lookup name = none := by
    rw [List.lookup_eq_none_iff]
    intro p hp
    simpa using (fresh p hp).symm
  rw [List.lookup_append, absent]
  simp

/-- Taking a key out of an association list. -/
theorem lookup_filter_ne {α β : Type*} [BEq α] [LawfulBEq α] [DecidableEq α] (l : List (α × β)) (key other : α) :
    (l.filter (·.1 ≠ key)).lookup other = if other = key then none else l.lookup other := by
  induction l with
  | nil => simp
  | cons p rest ih =>
    by_cases first : p.1 = key
    · rw [List.filter_cons_of_neg (by simpa using first), ih, List.lookup_cons]
      split
      · rfl
      · rename_i ne
        have : (other == p.1) = false := by simpa [first] using ne
        rw [this]
    · rw [List.filter_cons_of_pos (by simpa using first), List.lookup_cons, List.lookup_cons, ih]
      by_cases same : other = p.1
      · subst same
        simp [first]
      · have : (other == p.1) = false := by simpa using same
        rw [this]

namespace Disk

variable {d : Disk} {name : Nat} {files : List File}

/-- A new descriptor changes no other version. -/
theorem getCurrentVersion_writeDescriptor (fresh : d.FreshName name) :
    (d.apply (.writeDescriptor name files)).getCurrentVersion = d.getCurrentVersion := by
  cases pointer : d.current with
  | none => simp [getCurrentVersion, apply, pointer]
  | some other =>
    have ne : other ≠ name := fun eq => fresh.1 (by rw [pointer, eq])
    simp [getCurrentVersion, getVersion, apply, pointer, lookup_append_of_ne ne]

theorem getCurrentVersion_setCurrent (fresh : d.FreshName name) :
    ((d.apply (.writeDescriptor name files)).applyAll
      (setCurrentVersionFile name)).getCurrentVersion = files := by
  simp [getCurrentVersion, getVersion, applyAll, setCurrentVersionFile, apply,
    lookup_append_self fresh.2]

end Disk

end FrenzyKV
