import FrenzyKV.Db.KvEntry
import FrenzyKV.Math.RemoveIf

/-! Batches of entries and their numbering (`write_batch.h`, `util/write_batch.cc`). -/

namespace FrenzyKV

structure WriteBatch where
  firstSequenceNum : Nat
  entries : List KvEntry
deriving DecidableEq, Repr

namespace WriteBatch

def empty : WriteBatch := ⟨0, []⟩

def count (b : WriteBatch) : Nat := b.entries.length

def serializedSize (b : WriteBatch) : Nat := (b.entries.map KvEntry.serializedBytesSize).sum

/-- `repropogate_sequence_num`: the i-th entry gets the first number plus `i`, in 32 bits. -/
def numbered (num : Nat) : List KvEntry → List KvEntry
  | [] => []
  | e :: es =>
    e.setSequenceNumber (num % sequenceNumberModulus) :: numbered (num + 1) es

def setFirstSequenceNum (b : WriteBatch) (num : Nat) : WriteBatch :=
  ⟨num, numbered num b.entries⟩

@[simp] theorem numbered_length (num : Nat) (es : List KvEntry) :
    (numbered num es).length = es.length := by
  induction es generalizing num with
  | nil => rfl
  | cons e es ih => simp [numbered, ih]

/-- Without wrap-around the numbers of a batch fill an interval. -/
theorem seq_of_mem_numbered {num : Nat} {es : List KvEntry}
    (small : num + es.length ≤ sequenceNumberModulus) {e : KvEntry} (mem : e ∈ numbered num es) :
    num ≤ e.seq ∧ e.seq < num + es.length := by
  induction es generalizing num with
  | nil => simp [numbered] at mem
  | cons x es ih =>
    rw [List.length_cons] at small
    rcases List.mem_cons.mp mem with rfl | mem
    · have : num % sequenceNumberModulus = num := Nat.mod_eq_of_lt (by omega)
      simp [KvEntry.setSequenceNumber, KvEntry.seq, this]
    · obtain ⟨low, high⟩ := ih (by omega) mem
      rw [List.length_cons]
      omega

theorem numbered_seq_injective {num : Nat} {es : List KvEntry}
    (small : num + es.length ≤ sequenceNumberModulus) :
    (numbered num es).Pairwise (·.seq < ·.seq) := by
  induction es generalizing num with
  | nil => simp [numbered]
  | cons x es ih =>
    rw [List.length_cons] at small
    refine List.pairwise_cons.mpr ⟨fun e mem => ?_, ih (by omega)⟩
    have low := (seq_of_mem_numbered (by omega) mem).1
    have : num % sequenceNumberModulus = num := Nat.mod_eq_of_lt (by omega)
    change num % sequenceNumberModulus < e.seq
    omega

/-- Numbering touches nothing but the numbers. -/
theorem mem_numbered {num : Nat} {es : List KvEntry} {e : KvEntry} (mem : e ∈ numbered num es) :
    ∃ x ∈ es, ∃ n, n < sequenceNumberModulus ∧ e = x.setSequenceNumber n := by
  induction es generalizing num with
  | nil => simp [numbered] at mem
  | cons x es ih =>
    cases List.mem_cons.mp mem with
    | inl eq =>
      have small : num % sequenceNumberModulus < sequenceNumberModulus :=
        Nat.mod_lt _ (show 0 < 2 ^ 32 by decide)
      exact ⟨x, List.mem_cons_self, _, small, eq⟩
    | inr later =>
      obtain ⟨y, hy, rest⟩ := ih later
      exact ⟨y, List.mem_cons_of_mem _ hy, rest⟩

theorem stored_of_mem_numbered {num : Nat} {es : List KvEntry} (stored : ∀ e ∈ es, e.stored = e)
    {e : KvEntry} (mem : e ∈ numbered num es) : e.stored = e := by
  obtain ⟨x, hx, n, -, rfl⟩ := mem_numbered mem
  have value : x.value.stored = x.value := congrArg KvEntry.value (stored x hx)
  exact congrArg (KvEntry.mk _) value

/-- `stl_style_remove`. A moved-from entry keeps its number and has no value; `left` says which
user key stays in it. -/
def stlStyleRemove (left : KvEntry → UserKey) (b : WriteBatch) (key : UserKey) :
    List KvEntry × List KvEntry :=
  RemoveIf.removeIf (fun e => e.userKey == key) (fun e => ⟨⟨e.seq, left e⟩, none⟩) b.entries

/-- `remove_from_db`. -/
def removeFromDb (left : KvEntry → UserKey) (b : WriteBatch) (key : UserKey) : WriteBatch :=
  match b.stlStyleRemove left key with
  | (kept, iter :: _) => { b with entries := kept ++ [{ iter with value := none }] }
  | (kept, []) =>
    let seq := (b.firstSequenceNum + kept.length) % sequenceNumberModulus
    { b with entries := kept ++ [⟨⟨seq, key⟩, none⟩] }

/-- There is one entry for the key, a tombstone, and the entries for other keys are as before. -/
structure Removed (key : UserKey) (before after : List KvEntry) : Prop where
  one : ∃ e, after.filter (fun e => e.userKey == key) = [e] ∧ e.isTombStone = true
  others : after.filter (fun e => !(e.userKey == key)) = before.filter (fun e => !(e.userKey == key))

theorem removed_append_iff {key : UserKey} {before : List KvEntry} {e : KvEntry} :
    Removed key before (before.filter (fun e => !(e.userKey == key)) ++ [e]) ↔
      e.userKey = key ∧ e.isTombStone = true := by
  have none_left : (before.filter (fun e => !(e.userKey == key))).filter (fun e => e.userKey == key) = [] := by
    rw [List.filter_eq_nil_iff]
    intro x mem
    simpa using (List.mem_filter.mp mem).2
  constructor
  · intro ⟨⟨x, eq, tomb⟩, _⟩
    rw [List.filter_append, none_left, List.nil_append, List.filter_singleton] at eq
    by_cases same : e.userKey = key
    · rw [beq_iff_eq.mpr same, cond_true] at eq
      rw [(List.cons.inj eq).1]
      exact ⟨(List.cons.inj eq).1 ▸ same, tomb⟩
    · rw [beq_eq_false_iff_ne.mpr same, cond_false] at eq
      cases eq
  · intro ⟨same, tomb⟩
    constructor
    · refine ⟨e, ?_, tomb⟩
      rw [List.filter_append, none_left, List.nil_append, List.filter_singleton,
        beq_iff_eq.mpr same, cond_true]
    · rw [List.filter_append, List.filter_filter, List.filter_singleton, beq_iff_eq.mpr same]
      simp

/-- The entries for other keys, in their order. -/
def others (b : WriteBatch) (key : UserKey) : List KvEntry :=
  b.entries.filter (fun e => !(e.userKey == key))

theorem removeFromDb_of_none {b : WriteBatch} {key : UserKey}
    (absent : b.entries[(b.others key).length]? = none) (left : KvEntry → UserKey) :
    (b.removeFromDb left key).entries = b.others key ++
      [⟨⟨(b.firstSequenceNum + (b.others key).length) % sequenceNumberModulus, key⟩, none⟩] := by
  have behind := List.getElem?_eq_none_iff.mp absent
  rw [removeFromDb, stlStyleRemove, RemoveIf.removeIf_eq,
    List.drop_of_length_le (by rwa [List.length_map])]
  rfl

theorem removeFromDb_of_some {b : WriteBatch} {key : UserKey} {e : KvEntry}
    (found : b.entries[(b.others key).length]? = some e) (left : KvEntry → UserKey) :
    (b.removeFromDb left key).entries = b.others key ++
      [⟨⟨e.seq, if e.userKey = key then key else left e⟩, none⟩] := by
  obtain ⟨inside, here⟩ := List.getElem?_eq_some_iff.mp found
  have rest := List.drop_eq_getElem_cons (by rwa [List.length_map] :
    (b.others key).length < (b.entries.map (RemoveIf.leave (fun e => e.userKey == key)
      (fun e => ⟨⟨e.seq, left e⟩, none⟩))).length)
  rw [List.getElem_map, here] at rest
  rw [removeFromDb, stlStyleRemove, RemoveIf.removeIf_eq]
  rw [others] at rest ⊢
  rw [rest]
  by_cases same : e.userKey = key
  · subst same
    simp [RemoveIf.leave]
    rfl
  · simp [RemoveIf.leave, same]

/-- `remove_from_db` works for every content of moved-from entries if and only if the key does not
occur or the entry in the place behind the entries of other keys is one for the key. -/
theorem removeFromDb_iff (b : WriteBatch) (key : UserKey) :
    (∀ left, Removed key b.entries (b.removeFromDb left key).entries) ↔
      (∀ e ∈ b.entries, e.userKey ≠ key) ∨
        ∃ e, b.entries[(b.others key).length]? = some e ∧ e.userKey = key := by
  have absent_iff : b.entries[(b.others key).length]? = none ↔ ∀ e ∈ b.entries, e.userKey ≠ key := by
    rw [List.getElem?_eq_none_iff]
    constructor
    · intro whole e mem
      have kept := List.length_filter_eq_length_iff.mp (Nat.le_antisymm (List.length_filter_le _ _) whole)
      simpa using kept e mem
    · intro other
      rw [others, List.filter_eq_self.mpr fun e mem => by simpa using other e mem]
  cases place : b.entries[(b.others key).length]? with
  | none =>
    constructor
    · exact fun _ => .inl (absent_iff.mp place)
    · intro _ left
      rw [removeFromDb_of_none place]
      exact removed_append_iff.mpr ⟨rfl, rfl⟩
  | some x =>
    have occurs : ¬ ∀ e ∈ b.entries, e.userKey ≠ key := by
      intro other
      rw [absent_iff.mpr other] at place
      cases place
    constructor
    · intro removed
      have now := removed fun _ => ⟨0 :: key.bytes⟩
      rw [removeFromDb_of_some place] at now
      have same := (removed_append_iff.mp now).1
      by_cases eq : x.userKey = key
      · exact .inr ⟨x, rfl, eq⟩
      · have grown : (⟨0 :: key.bytes⟩ : UserKey) = key := (if_neg eq).symm.trans same
        have length := congrArg UserKey.size grown
        rw [UserKey.size, UserKey.size, List.length_cons] at length
        omega
    · rintro (other | ⟨e, found, eq⟩) left
      · exact absurd other occurs
      · cases found
        rw [removeFromDb_of_some place, if_pos eq]
        exact removed_append_iff.mpr ⟨rfl, rfl⟩

/-- A key written before another one: the tombstone gets the key that was left in the other
entry, here the empty one. -/
theorem removeFromDb_of_later_entry :
    let b : WriteBatch := ⟨0, [.brief 97 0 1, .brief 98 1 2]⟩
    ¬ Removed ⟨[97]⟩ b.entries (b.removeFromDb (fun _ => ⟨[]⟩) ⟨[97]⟩).entries := by
  intro b removed
  obtain ⟨e, eq, -⟩ := removed.one
  have gone : (b.removeFromDb (fun _ => ⟨[]⟩) ⟨[97]⟩).entries.filter (fun e => e.userKey == ⟨[97]⟩) = [] := by
    decide
  rw [gone] at eq
  cases eq

end WriteBatch

end FrenzyKV
