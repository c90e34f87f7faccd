import Mathlib.Data.List.Sort

variable {κ ν : Type*} [LinearOrder κ]

/-- A map whose items ascend by key. -/
structure SkipList (κ ν : Type*) [LinearOrder κ] where
  items : List (κ × ν)
  ascending : items.Pairwise (fun p q => p.1 < q.1)

namespace SkipList

def empty : SkipList κ ν := ⟨[], List.Pairwise.nil⟩

def isEmpty (m : SkipList κ ν) : Bool := m.items.isEmpty

/-- Insert into an ascending list; `replace` says which value stays when the key is there. -/
def insertItem (replace : Bool) (k : κ) (v : ν) : List (κ × ν) → List (κ × ν)
  | [] => [(k, v)]
  | (l, w) :: rest =>
    if k < l then (k, v) :: (l, w) :: rest
    else if k = l then (l, cond replace v w) :: rest
    else (l, w) :: insertItem replace k v rest

theorem mem_insertItem {replace : Bool} {k : κ} {v : ν} {items : List (κ × ν)} {p : κ × ν}
    (mem : p ∈ insertItem replace k v items) : p = (k, v) ∨ p ∈ items := by
  induction items with
  | nil => simpa [insertItem] using mem
  | cons q rest ih =>
    obtain ⟨l, w⟩ := q
    rw [insertItem] at mem
    split_ifs at mem with before same <;> simp only [List.mem_cons] at mem ⊢
    · tauto
    · rcases mem with rfl | mem
      · subst same
        cases replace <;> simp
      · tauto
    · rcases mem with rfl | mem
      · tauto
      · have := ih mem
        tauto

/-- An item of another key stays. -/
theorem mem_insertItem_of_ne {replace : Bool} {k : κ} {v : ν} {items : List (κ × ν)}
    {p : κ × ν} (mem : p ∈ items) (other : p.1 ≠ k) : p ∈ insertItem replace k v items := by
  induction items with
  | nil => simp at mem
  | cons q rest ih =>
    obtain ⟨l, w⟩ := q
    rw [insertItem]
    split_ifs with before same
    · exact List.mem_cons_of_mem _ mem
    · rcases List.mem_cons.mp mem with rfl | mem
      · exact absurd same.symm other
      · exact List.mem_cons_of_mem _ mem
    · rcases List.mem_cons.mp mem with rfl | mem
      · exact List.mem_cons_self
      · exact List.mem_cons_of_mem _ (ih mem)

theorem key_mem_insertItem (replace : Bool) (k : κ) (v : ν) (items : List (κ × ν)) :
    ∃ w, (k, w) ∈ insertItem replace k v items := by
  induction items with
  | nil => exact ⟨v, by simp [insertItem]⟩
  | cons q rest ih =>
    obtain ⟨l, w⟩ := q
    rw [insertItem]
    split_ifs with before same
    · exact ⟨v, List.mem_cons_self⟩
    · subst same
      exact ⟨_, List.mem_cons_self⟩
    · obtain ⟨x, hx⟩ := ih
      exact ⟨x, List.mem_cons_of_mem _ hx⟩

theorem ascending_insertItem (replace : Bool) (k : κ) (v : ν) {items : List (κ × ν)}
    (h : items.Pairwise (fun p q => p.1 < q.1)) :
    (insertItem replace k v items).Pairwise (fun p q => p.1 < q.1) := by
  induction items with
  | nil => simp [insertItem]
  | cons q rest ih =>
    obtain ⟨l, w⟩ := q
    obtain ⟨above, tail⟩ := List.pairwise_cons.mp h
    rw [insertItem]
    split_ifs with before same
    · refine List.pairwise_cons.mpr ⟨fun p hp => ?_, h⟩
      rcases List.mem_cons.mp hp with rfl | hp
      · exact before
      · exact before.trans (above p hp)
    · exact List.pairwise_cons.mpr ⟨above, tail⟩
    · refine List.pairwise_cons.mpr ⟨fun p hp => ?_, ih tail⟩
      rcases mem_insertItem hp with rfl | hp
      · exact lt_of_le_of_ne (not_lt.mp before) (Ne.symm same)
      · exact above p hp

def insert (replace : Bool) (k : κ) (v : ν) (m : SkipList κ ν) : SkipList κ ν :=
  ⟨insertItem replace k v m.items, ascending_insertItem replace k v m.ascending⟩

def insertRange (replace : Bool) (items : List (κ × ν)) (m : SkipList κ ν) : SkipList κ ν :=
  items.foldl (fun m p => m.insert replace p.1 p.2) m

theorem mem_insertRange {replace : Bool} {items : List (κ × ν)} {m : SkipList κ ν} {p : κ × ν}
    (mem : p ∈ (insertRange replace items m).items) : p ∈ items ∨ p ∈ m.items := by
  induction items generalizing m with
  | nil => exact Or.inr mem
  | cons q items ih =>
    rcases ih (m := m.insert replace q.1 q.2) mem with later | earlier
    · exact Or.inl (List.mem_cons_of_mem _ later)
    · rcases mem_insertItem earlier with rfl | old
      · exact Or.inl List.mem_cons_self
      · exact Or.inr old

theorem key_mem_insertItem_of_mem (replace : Bool) (k : κ) (v : ν) {items : List (κ × ν)}
    {p : κ × ν} (mem : p ∈ items) : ∃ w, (p.1, w) ∈ insertItem replace k v items := by
  by_cases same : p.1 = k
  · rw [same]
    exact key_mem_insertItem replace k v items
  · exact ⟨p.2, mem_insertItem_of_ne mem same⟩

theorem key_mem_insertRange (replace : Bool) {items : List (κ × ν)} {m : SkipList κ ν}
    {p : κ × ν} (mem : p ∈ items ∨ p ∈ m.items) :
    ∃ w, (p.1, w) ∈ (insertRange replace items m).items := by
  induction items generalizing m p with
  | nil =>
    rcases mem with mem | mem
    · simp at mem
    · exact ⟨p.2, mem⟩
  | cons q items ih =>
    have keep : ∀ {w}, (p.1, w) ∈ (m.insert replace q.1 q.2).items →
        ∃ w, (p.1, w) ∈ (insertRange replace (q :: items) m).items :=
      fun {w} inside => ih (m := m.insert replace q.1 q.2) (p := (p.1, w)) (Or.inr inside)
    rcases mem with mem | mem
    · rcases List.mem_cons.mp mem with rfl | mem
      · obtain ⟨w, hw⟩ := key_mem_insertItem replace p.1 p.2 m.items
        exact keep hw
      · exact ih (Or.inl mem)
    · obtain ⟨w, hw⟩ := key_mem_insertItem_of_mem replace q.1 q.2 mem
      exact keep hw

theorem key_unique_of_ascending {items : List (κ × ν)}
    (h : items.Pairwise (fun p q => p.1 < q.1)) {p q : κ × ν} (hp : p ∈ items) (hq : q ∈ items)
    (same : p.1 = q.1) : p = q := by
  induction items with
  | nil => simp at hp
  | cons x rest ih =>
    obtain ⟨above, tail⟩ := List.pairwise_cons.mp h
    rcases List.mem_cons.mp hp with first | hp'
    · rcases List.mem_cons.mp hq with second | hq'
      · rw [first, second]
      · exact absurd same (first ▸ above q hq').ne
    · rcases List.mem_cons.mp hq with second | hq'
      · exact absurd same (second ▸ above p hp').ne'
      · exact ih tail hp' hq'

theorem items_key_unique (m : SkipList κ ν) {p q : κ × ν} (hp : p ∈ m.items) (hq : q ∈ m.items)
    (same : p.1 = q.1) : p = q :=
  key_unique_of_ascending m.ascending hp hq same

/-- `find_last_less_equal`: the item with the largest key not above `k`. -/
def findLastLessEqual (k : κ) (m : SkipList κ ν) : Option (κ × ν) :=
  (m.items.filter (·.1 ≤ k)).getLast?

theorem findLastLessEqual_eq_some {k : κ} {m : SkipList κ ν} {p : κ × ν} :
    m.findLastLessEqual k = some p ↔
      p ∈ m.items ∧ p.1 ≤ k ∧ ∀ q ∈ m.items, q.1 ≤ k → q.1 ≤ p.1 := by
  have sorted := m.ascending.filter (·.1 ≤ k)
  have mem_iff : ∀ q, q ∈ m.items.filter (·.1 ≤ k) ↔ q ∈ m.items ∧ q.1 ≤ k := by simp
  have last_top : ∀ last, (m.items.filter (·.1 ≤ k)).getLast? = some last →
      ∀ q ∈ m.items, q.1 ≤ k → q.1 ≤ last.1 := by
    intro last eq q hq le
    obtain ⟨front, split⟩ := List.getLast?_eq_some_iff.mp eq
    rw [split] at sorted mem_iff
    have mem := (mem_iff q).mpr ⟨hq, le⟩
    rcases List.mem_append.mp mem with front_mem | last_mem
    · exact ((List.pairwise_append.mp sorted).2.2 q front_mem last (by simp)).le
    · rw [List.mem_singleton.mp last_mem]
  constructor
  · intro eq
    have found := (mem_iff p).mp (List.mem_of_getLast? eq)
    exact ⟨found.1, found.2, last_top p eq⟩
  · rintro ⟨mem, le, top⟩
    cases eq : (m.items.filter (·.1 ≤ k)).getLast? with
    | none =>
      rw [List.getLast?_eq_none_iff] at eq
      exact absurd ((mem_iff p).mpr ⟨mem, le⟩) (by simp [eq])
    | some last =>
      have found := (mem_iff last).mp (List.mem_of_getLast? eq)
      have same : last.1 = p.1 := le_antisymm (top last found.1 found.2) (last_top last eq p mem le)
      rw [findLastLessEqual, eq, m.items_key_unique found.1 mem same]

theorem findLastLessEqual_eq_none {k : κ} {m : SkipList κ ν} :
    m.findLastLessEqual k = none ↔ ∀ q ∈ m.items, ¬ q.1 ≤ k := by
  simp [findLastLessEqual]

end SkipList
