import Mathlib.Data.List.MinMax
import Mathlib.Data.Set.Lattice
import Mathlib.Logic.Function.Basic
import Mathlib.Order.MinMax

namespace Versioned

variable {ε κ ν : Type*} [LinearOrder ν] (key : ε → κ) (seq : ε → ν)

/-- `e` is the newest entry of key `k` in `A`. -/
def IsNewest (A : Set ε) (k : κ) (e : ε) : Prop :=
  e ∈ A ∧ key e = k ∧ ∀ x ∈ A, key x = k → seq x ≤ seq e

/-- Every entry of `B` has an entry in `A` of its key that is at least as new. -/
def Covers (A B : Set ε) : Prop :=
  ∀ b ∈ B, ∃ a ∈ A, key a = key b ∧ seq b ≤ seq a

/-- Wherever `A` and `B` share a key, all entries of `A` are newer. -/
def Newer (A B : Set ε) : Prop :=
  ∀ a ∈ A, ∀ b ∈ B, key a = key b → seq b < seq a

/-- What a search for `k` up to version `s` may answer: a newest entry among those of `A` that are
not above `s`, or nothing when there is none. -/
def Answers (A : Set ε) (k : κ) (s : ν) : Option ε → Prop
  | some e => IsNewest key seq {x | x ∈ A ∧ seq x ≤ s} k e
  | none => ∀ x ∈ A, key x = k → s < seq x

/-- `m` maps each key to what its newest entry in `A` carries, and to nothing when `A` has none. -/
def Represents {β : Type*} (value : ε → Option β) (A : Set ε) (m : κ → Option β) : Prop :=
  ∀ k, (∀ e, IsNewest key seq A k e → m k = value e) ∧ ((∀ x ∈ A, key x ≠ k) → m k = none)

variable {key seq} {A A' B B' C I O : Set ε} {k : κ} {e : ε} {s : ν}

theorem Covers.refl (A : Set ε) : Covers key seq A A :=
  fun a ha => ⟨a, ha, rfl, le_rfl⟩

theorem Covers.of_subset (sub : B ⊆ A) : Covers key seq A B :=
  fun b hb => ⟨b, sub hb, rfl, le_rfl⟩

theorem Covers.trans (first : Covers key seq A B) (second : Covers key seq B C) :
    Covers key seq A C := by
  intro c hc
  obtain ⟨b, hb, key_b, seq_b⟩ := second c hc
  obtain ⟨a, ha, key_a, seq_a⟩ := first b hb
  exact ⟨a, ha, key_a.trans key_b, seq_b.trans seq_a⟩

theorem Covers.mono (cover : Covers key seq A B) (sub : A ⊆ A') : Covers key seq A' B :=
  Covers.trans (Covers.of_subset sub) cover

/-- Replacing `I` by a set that covers it keeps everything covered, also when part of `I`
was gone before. -/
theorem Covers.replace (cover : Covers key seq A B) (output : Covers key seq O I)
    (rest : A \ I ⊆ C) : Covers key seq (O ∪ C) B := by
  intro b hb
  obtain ⟨a, ha, key_a, seq_a⟩ := cover b hb
  by_cases inside : a ∈ I
  · obtain ⟨o, ho, key_o, seq_o⟩ := output a inside
    exact ⟨o, Or.inl ho, key_o.trans key_a, seq_a.trans seq_o⟩
  · exact ⟨a, Or.inr (rest ⟨ha, inside⟩), key_a, seq_a⟩

theorem Newer.mono (newer : Newer key seq A B) (subA : A' ⊆ A) (subB : B' ⊆ B) :
    Newer key seq A' B' :=
  fun a ha b hb => newer a (subA ha) b (subB hb)

theorem IsNewest.seq_eq {e' : ε} (first : IsNewest key seq A k e)
    (second : IsNewest key seq A k e') : seq e = seq e' :=
  le_antisymm (second.2.2 e first.1 first.2.1) (first.2.2 e' second.1 second.2.1)

/-- A part that covers the whole has its newest entries. -/
theorem isNewest_iff_of_covers (sub : A ⊆ B) (cover : Covers key seq A B)
    (unique : ∀ x ∈ B, ∀ y ∈ B, key x = key y → seq x = seq y → x = y) :
    IsNewest key seq A k e ↔ IsNewest key seq B k e := by
  constructor
  · rintro ⟨mem, key_e, top⟩
    refine ⟨sub mem, key_e, fun b hb key_b => ?_⟩
    obtain ⟨a, ha, key_a, le⟩ := cover b hb
    exact le.trans (top a ha (key_a.trans key_b))
  · rintro ⟨mem, key_e, top⟩
    obtain ⟨a, ha, key_a, le⟩ := cover e mem
    have same := unique a (sub ha) e mem key_a (le_antisymm (top a (sub ha) (key_a.trans key_e)) le)
    exact ⟨same ▸ ha, key_e, fun x hx => top x (sub hx)⟩

/-- When no two entries of a list share key and version, its newest entry of a key is the one with the
largest version. -/
theorem argmax_filter_eq_some_iff [DecidableEq ε] [DecidableEq κ] {l : List ε}
    (unique : ∀ x ∈ l, ∀ y ∈ l, key x = key y → seq x = seq y → x = y) :
    (l.filter (key · = k)).argmax seq = some e ↔ IsNewest key seq {x | x ∈ l} k e := by
  constructor
  · intro found
    have spec := List.mem_argmax_iff.mp (Option.mem_def.mpr found)
    obtain ⟨mem, top, -⟩ := spec
    simp only [List.mem_filter, decide_eq_true_eq] at mem top
    exact ⟨mem.1, mem.2, fun x hx key_x => top x ⟨hx, key_x⟩⟩
  · rintro ⟨mem, key_e, top⟩
    have inside : e ∈ l.filter (key · = k) := List.mem_filter.mpr ⟨mem, by simpa using key_e⟩
    cases found : (l.filter (key · = k)).argmax seq with
    | none => exact absurd inside (List.argmax_eq_none.mp found ▸ List.not_mem_nil)
    | some e' =>
      have spec := List.mem_argmax_iff.mp (Option.mem_def.mpr found)
      obtain ⟨mem', top', -⟩ := spec
      have above := top' e inside
      simp only [List.mem_filter, decide_eq_true_eq] at mem'
      exact congrArg some (unique e' mem'.1 e mem (mem'.2.trans key_e.symm)
        (le_antisymm (top e' mem'.1 mem'.2) above))

/-- An answer stays one when only entries of other keys or of versions at hand are added. -/
theorem Answers.extend {answer : Option ε} (answers : Answers key seq A k s answer) (sub : A ⊆ B)
    (at_hand : ∀ x ∈ B, key x = k → ∃ a ∈ A, key a = k ∧ seq a = seq x) :
    Answers key seq B k s answer := by
  cases answer with
  | none =>
    intro x mem key_x
    obtain ⟨a, ha, key_a, same⟩ := at_hand x mem key_x
    rw [← same]
    exact answers a ha key_a
  | some e =>
    obtain ⟨mem, key_e, top⟩ := answers
    refine ⟨⟨sub mem.1, mem.2⟩, key_e, ?_⟩
    intro x hx key_x
    obtain ⟨a, ha, key_a, same⟩ := at_hand x hx.1 key_x
    rw [← same]
    exact top a ⟨ha, same.le.trans hx.2⟩ key_a

/-- The versions of one key are searched from the last one on. -/
theorem answers_find {l : List ε} (keys : ∀ x ∈ l, key x = k)
    (sorted : l.Pairwise fun a b => seq b ≤ seq a) (s : ν) :
    Answers key seq {x | x ∈ l} k s (l.find? (seq · ≤ s)) := by
  induction l with
  | nil =>
    intro x mem
    exact (List.not_mem_nil mem).elim
  | cons a l ih =>
    have later := ih (fun x mem => keys x (List.mem_cons_of_mem _ mem)) sorted.of_cons
    by_cases old : seq a ≤ s
    · rw [List.find?_cons_of_pos (by simpa using old)]
      refine ⟨⟨List.mem_cons_self, old⟩, keys a List.mem_cons_self, ?_⟩
      intro x hx _
      cases List.mem_cons.mp hx.1 with
      | inl same => exact (congrArg seq same).le
      | inr mem => exact List.rel_of_pairwise_cons sorted mem
    · rw [List.find?_cons_of_neg (by simpa using old)]
      have too_new : ∀ x ∈ a :: l, seq x ≤ s → x ∈ l := by
        intro x mem le
        cases List.mem_cons.mp mem with
        | inl same => exact absurd (same ▸ le) old
        | inr mem => exact mem
      cases found : l.find? (seq · ≤ s) with
      | none =>
        rw [found] at later
        intro x mem key_x
        by_contra le
        exact le (later x (too_new x mem (not_lt.mp le)) key_x)
      | some e =>
        rw [found] at later
        obtain ⟨mem, key_e, top⟩ := later
        refine ⟨⟨List.mem_cons_of_mem a mem.1, mem.2⟩, key_e, ?_⟩
        intro x hx key_x
        exact top x ⟨too_new x hx.1 hx.2, hx.2⟩ key_x

section Represents

variable {β : Type*} {value : ε → Option β} {m : κ → Option β}

/-- A part that covers the whole stands for the same map. -/
theorem represents_iff_of_covers (sub : A ⊆ B) (cover : Covers key seq A B)
    (unique : ∀ x ∈ B, ∀ y ∈ B, key x = key y → seq x = seq y → x = y) :
    Represents key seq value A m ↔ Represents key seq value B m := by
  refine forall_congr' fun k => and_congr (forall_congr' fun e => ?_) (imp_congr ?_ Iff.rfl)
  · rw [isNewest_iff_of_covers sub cover unique]
  · constructor
    · intro absent b hb key_b
      obtain ⟨a, ha, key_a, -⟩ := cover b hb
      exact absent a ha (key_a.trans key_b)
    · exact fun absent a ha => absent a (sub ha)

/-- An answer of a search that reaches all versions of a key is what the map holds. -/
theorem Represents.eq_bind {answer : Option ε} (represents : Represents key seq value A m)
    (found : ∀ e, answer = some e → IsNewest key seq A k e)
    (missed : answer = none → ∀ x ∈ A, key x ≠ k) : answer.bind value = m k := by
  cases answer with
  | none => exact ((represents k).2 (missed rfl)).symm
  | some e => exact ((represents k).1 e (found e rfl)).symm

variable [DecidableEq κ]

/-- A newer entry of its key updates the map there. -/
theorem Represents.update (represents : Represents key seq value A m)
    (newer : ∀ x ∈ A, key x = key e → seq x < seq e) :
    Represents key seq value (A ∪ {e}) (Function.update m (key e) (value e)) := by
  intro k
  by_cases same : k = key e
  · subst same
    rw [Function.update_self]
    constructor
    · rintro x ⟨mem, key_x, top⟩
      cases mem with
      | inl old =>
        have below := top e (Or.inr rfl) rfl
        exact absurd (newer x old key_x) (not_lt.mpr below)
      | inr this => exact congrArg value (Set.mem_singleton_iff.mp this).symm
    · exact fun absent => absurd rfl (absent e (Or.inr rfl))
  · rw [Function.update_of_ne same]
    have other : ∀ x ∈ A ∪ {e}, key x = k → x ∈ A := by
      intro x mem key_x
      exact mem.resolve_right fun this => same (key_x ▸ congrArg key (Set.mem_singleton_iff.mp this))
    constructor
    · rintro x ⟨mem, key_x, top⟩
      exact (represents k).1 x ⟨other x mem key_x, key_x, fun y hy => top y (Or.inl hy)⟩
    · exact fun absent => (represents k).2 fun x hx => absent x (Or.inl hx)

/-- Entries with ascending numbers update the map one after another. -/
theorem Represents.foldl_update {es : List ε} (represents : Represents key seq value A m)
    (newer : ∀ e ∈ es, ∀ x ∈ A, key x = key e → seq x < seq e) (ascending : es.Pairwise (seq · < seq ·)) :
    Represents key seq value (A ∪ {x | x ∈ es})
      (es.foldl (fun m e => Function.update m (key e) (value e)) m) := by
  induction es generalizing A m with
  | nil =>
    have none_added : A ∪ {x | x ∈ ([] : List ε)} = A := by simp
    rw [none_added]
    exact represents
  | cons e es ih =>
    obtain ⟨first, rest⟩ := List.pairwise_cons.mp ascending
    have one_by_one : A ∪ {x | x ∈ e :: es} = A ∪ {e} ∪ {x | x ∈ es} := by
      ext x
      simp only [Set.mem_union, Set.mem_singleton_iff, Set.mem_ofPred_eq, List.mem_cons, or_assoc]
    rw [one_by_one]
    refine ih (represents.update (newer e List.mem_cons_self)) ?_ rest
    intro x hx y hy same
    cases hy with
    | inl old => exact newer x (List.mem_cons_of_mem e hx) y old same
    | inr this => exact Set.mem_singleton_iff.mp this ▸ first x hx

end Represents

end Versioned
