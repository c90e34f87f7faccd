import FrenzyKV.Table.Memtable
import Mathlib.Data.List.Induction

/-! A memtable over a sequence of batches, some of which it refuses (`table/memtable.cc`). -/

namespace FrenzyKV

/-- A memtable, and the entries of the batches that it took. -/
structure MemtableFilling where
  table : Memtable
  inserted : List KvEntry

namespace MemtableFilling

variable {replace : Bool} {opt : Options}

def start (opt : Options) : MemtableFilling := ⟨Memtable.make opt, []⟩

/-- `memtable::insert`, with or without the out-of-range error. -/
def insert (replace : Bool) (f : MemtableFilling) (b : WriteBatch) : MemtableFilling :=
  match f.table.insert replace b with
  | some table => ⟨table, f.inserted ++ b.entries⟩
  | none => f

def insertAll (replace : Bool) (opt : Options) (bs : List WriteBatch) : MemtableFilling :=
  bs.foldl (insert replace) (start opt)

theorem insertAll_concat (bs : List WriteBatch) (b : WriteBatch) :
    insertAll replace opt (bs ++ [b]) = insert replace (insertAll replace opt bs) b := by
  rw [insertAll, List.foldl_append]
  rfl

/-- The memtable is what it becomes when the accepted entries go in one by one, within its bound. -/
structure Accounts (replace : Bool) (opt : Options) (f : MemtableFilling) : Prop where
  table : f.table = f.inserted.foldl (Memtable.insertEntry replace) (Memtable.make opt)
  bounded : f.table.sizeBytes ≤ f.table.boundSizeBytes
  bound : f.table.boundSizeBytes = opt.memoryPageBytes

theorem boundSizeBytes_foldl_insertEntry (m : Memtable) (es : List KvEntry) :
    (es.foldl (Memtable.insertEntry replace) m).boundSizeBytes = m.boundSizeBytes := by
  induction es generalizing m with
  | nil => rfl
  | cons e es ih => exact ih (m.insertEntry replace e)

theorem insert_of_fits {f : MemtableFilling} {b : WriteBatch}
    (fits : b.serializedSize + f.table.sizeBytes ≤ f.table.boundSizeBytes) :
    insert replace f b =
      ⟨b.entries.foldl (Memtable.insertEntry replace) f.table, f.inserted ++ b.entries⟩ := by
  have room : f.table.couldFitIn b = true := decide_eq_true fits
  rw [insert, Memtable.insert, if_pos room]

theorem insert_of_not_fits {f : MemtableFilling} {b : WriteBatch}
    (full : f.table.boundSizeBytes < b.serializedSize + f.table.sizeBytes) :
    insert replace f b = f := by
  have none_left : ¬ f.table.couldFitIn b = true := by
    rw [Memtable.couldFitIn, decide_eq_true_iff]
    omega
  rw [insert, Memtable.insert, if_neg none_left]

theorem Accounts.insert {f : MemtableFilling} (accounts : f.Accounts replace opt)
    (b : WriteBatch) : (f.insert replace b).Accounts replace opt := by
  by_cases fits : b.serializedSize + f.table.sizeBytes ≤ f.table.boundSizeBytes
  · rw [insert_of_fits fits]
    constructor
    · rw [List.foldl_append, ← accounts.table]
    · rw [Memtable.foldl_insertEntry_sizeBytes, boundSizeBytes_foldl_insertEntry]
      rw [WriteBatch.serializedSize] at fits
      omega
    · exact (boundSizeBytes_foldl_insertEntry _ _).trans accounts.bound
  · rw [insert_of_not_fits (not_le.mp fits)]
    exact accounts

theorem accounts_insertAll (replace : Bool) (opt : Options) (bs : List WriteBatch) :
    (insertAll replace opt bs).Accounts replace opt := by
  induction bs using List.reverseRecOn with
  | nil => exact ⟨rfl, Nat.zero_le _, rfl⟩
  | append_singleton bs b ih =>
    rw [insertAll_concat]
    exact ih.insert b

theorem Accounts.sizeBytes {f : MemtableFilling} (accounts : f.Accounts replace opt) :
    f.table.sizeBytes = (f.inserted.map KvEntry.serializedBytesSize).sum := by
  rw [accounts.table, Memtable.foldl_insertEntry_sizeBytes]
  exact Nat.zero_add _

theorem Accounts.mem_storage {f : MemtableFilling} (accounts : f.Accounts replace opt)
    (distinct : (f.inserted.map KvEntry.key).Nodup) {e : KvEntry} :
    e ∈ f.table.storage ↔ e ∈ f.inserted := by
  have unique : ∀ x y, x ∈ f.inserted ∨ x ∈ (Memtable.make opt).storage →
      y ∈ f.inserted ∨ y ∈ (Memtable.make opt).storage → x.key = y.key → x = y := by
    intro x y hx hy same
    rw [Memtable.storage_make, or_iff_left List.not_mem_nil] at hx hy
    exact List.inj_on_of_nodup_map distinct hx hy same
  rw [accounts.table, Memtable.mem_foldl_insertEntry_iff unique, Memtable.storage_make,
    or_iff_left List.not_mem_nil]

/-- One query for the last key that is not above `(uk, s)` answers for the key `uk` up to `s`. -/
theorem answers_get (m : Memtable) (uk : UserKey) (s : Nat) :
    Answers {e | e ∈ m.storage} uk s (m.get ⟨s, uk⟩) := by
  cases found : m.get ⟨s, uk⟩ with
  | none => exact Memtable.get_eq_none found
  | some e =>
    obtain ⟨mem, key, seq, top⟩ := Memtable.get_eq_some found
    refine ⟨⟨mem, seq⟩, key, ?_⟩
    intro x hx key_x
    exact top x hx.1 key_x hx.2

/-- A memtable is a bounded multi-version map of the entries in the batches it took. -/
theorem insertAll_spec (replace : Bool) (opt : Options) (bs : List WriteBatch)
    (distinct : ((insertAll replace opt bs).inserted.map KvEntry.key).Nodup) :
    let f := insertAll replace opt bs
    (∀ uk s, Answers {e | e ∈ f.inserted} uk s (f.table.get ⟨s, uk⟩)) ∧
      (∀ b, insertAll replace opt (bs ++ [b]) =
        if b.serializedSize + f.table.sizeBytes ≤ opt.memoryPageBytes then
          ⟨b.entries.foldl (Memtable.insertEntry replace) f.table, f.inserted ++ b.entries⟩
        else f) ∧
      f.table.sizeBytes = (f.inserted.map KvEntry.serializedBytesSize).sum ∧
      f.table.sizeBytes ≤ f.table.boundSizeBytes ∧ f.table.boundSizeBytes = opt.memoryPageBytes := by
  intro f
  have accounts : f.Accounts replace opt := accounts_insertAll replace opt bs
  refine ⟨?_, ?_, accounts.sizeBytes, accounts.bounded, accounts.bound⟩
  · intro uk s
    have contents : {e | e ∈ f.table.storage} = {e | e ∈ f.inserted} :=
      Set.ext fun e => accounts.mem_storage distinct
    rw [← contents]
    exact answers_get f.table uk s
  · intro b
    rw [insertAll_concat, ← accounts.bound]
    by_cases fits : b.serializedSize + f.table.sizeBytes ≤ f.table.boundSizeBytes
    · rw [if_pos fits]
      exact insert_of_fits fits
    · rw [if_neg fits]
      exact insert_of_not_fits (not_le.mp fits)

/-- Two versions of a key and one of a longer key, and a batch that does not fit any more. -/
theorem insertAll_spec_three_batches :
    let opt : Options := { Options.default with memoryPageBytes := 40 }
    let f := insertAll true opt [⟨1, [.brief 97 1 10, .brief 97 2 11]⟩, ⟨3, [.brief 98 3 12]⟩]
    f.inserted.length = 2 ∧ ∀ uk s, Answers {e | e ∈ f.inserted} uk s (f.table.get ⟨s, uk⟩) :=
  ⟨by decide, (insertAll_spec true _ _ (by decide)).1⟩

end MemtableFilling

end FrenzyKV
