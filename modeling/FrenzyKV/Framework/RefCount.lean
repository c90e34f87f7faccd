import Mathlib.Data.List.Perm.Basic
import Mathlib.Data.List.Pairwise

namespace Framework

/-- A cell at its address, with the count that the guards keep. -/
structure Cell (β : Type*) where
  address : Nat
  refs : Nat
  val : β

/-- The address of a cell, or null. -/
abbrev Guard := Option Nat

/-- A cell without its count. -/
def Cell.identity {β : Type*} (c : Cell β) : Nat × β := (c.address, c.val)

namespace RefCount

variable {β : Type*}

/-- Count a guard in; a null guard counts nowhere. -/
def ref (cells : List (Cell β)) (g : Guard) : List (Cell β) :=
  cells.map fun c => if g = some c.address then { c with refs := c.refs + 1 } else c

def deref (cells : List (Cell β)) (g : Guard) : List (Cell β) :=
  cells.map fun c => if g = some c.address then { c with refs := c.refs - 1 } else c

def refAll (cells : List (Cell β)) (gs : List Guard) : List (Cell β) := gs.foldl ref cells

def derefAll (cells : List (Cell β)) (gs : List Guard) : List (Cell β) := gs.foldl deref cells

def find? (cells : List (Cell β)) (g : Guard) : Option (Cell β) :=
  cells.find? fun c => g = some c.address

/-- The cells that the guards of a list refer to are there, and each count is the number of
guards on the cell. -/
structure Exact (cells : List (Cell β)) (guards : List Guard) : Prop where
  distinct : cells.Pairwise (·.address ≠ ·.address)
  counts : ∀ c ∈ cells, c.refs = guards.count (some c.address)
  held : ∀ a, some a ∈ guards → ∃ c ∈ cells, c.address = a

/-- What guards do to a heap: the counts stay exact, no cell comes or goes, and no cell
gets a guard that had none. -/
structure Evolves (cells : List (Cell β)) (guards : List Guard) (cells' : List (Cell β))
    (guards' : List Guard) : Prop where
  exact : Exact cells guards → Exact cells' guards'
  same : cells'.map Cell.identity = cells.map Cell.identity
  sub : ∀ a, some a ∈ guards' → some a ∈ guards

/-- A function that tells the places of a list apart is injective on its elements. -/
theorem eq_of_pairwise_ne {α γ : Type*} {l : List α} {f : α → γ} (distinct : l.Pairwise (f · ≠ f ·))
    {x y : α} (hx : x ∈ l) (hy : y ∈ l) (same : f x = f y) : x = y := by
  by_contra ne
  have symm : Std.Symm fun x y : α => f x ≠ f y := ⟨fun _ _ h => h.symm⟩
  exact List.Pairwise.forall distinct hx hy ne same

section Cells

variable {cells cells' : List (Cell β)} {gs gs' : List Guard} {g : Guard} {c : Cell β}

theorem mem_of_identity (same : cells'.map Cell.identity = cells.map Cell.identity)
    (mem : c ∈ cells') : ∃ d ∈ cells, d.address = c.address ∧ d.val = c.val := by
  have : c.identity ∈ cells.map Cell.identity := same ▸ List.mem_map_of_mem mem
  obtain ⟨d, hd, eq⟩ := List.mem_map.mp this
  obtain ⟨address, val⟩ := Prod.mk.inj eq
  exact ⟨d, hd, address, val⟩

theorem map_of_identity {γ : Type*} (f : Nat → β → γ)
    (same : cells'.map Cell.identity = cells.map Cell.identity) :
    cells'.map (fun c => f c.address c.val) = cells.map fun c => f c.address c.val := by
  have := congrArg (List.map fun p : Nat × β => f p.1 p.2) same
  rwa [List.map_map, List.map_map] at this

@[simp] theorem ref_identity : (ref cells g).map Cell.identity = cells.map Cell.identity := by
  rw [ref, List.map_map]
  refine List.map_congr_left fun c _ => ?_
  simp only [Function.comp_apply]
  split <;> rfl

@[simp] theorem deref_identity : (deref cells g).map Cell.identity = cells.map Cell.identity := by
  rw [deref, List.map_map]
  refine List.map_congr_left fun c _ => ?_
  simp only [Function.comp_apply]
  split <;> rfl

@[simp] theorem refAll_identity :
    (refAll cells gs).map Cell.identity = cells.map Cell.identity := by
  induction gs generalizing cells with
  | nil => rfl
  | cons g gs ih => exact ih.trans ref_identity

@[simp] theorem derefAll_identity :
    (derefAll cells gs).map Cell.identity = cells.map Cell.identity := by
  induction gs generalizing cells with
  | nil => rfl
  | cons g gs ih => exact ih.trans deref_identity

theorem distinct_of_identity (same : cells'.map Cell.identity = cells.map Cell.identity)
    (distinct : cells.Pairwise (·.address ≠ ·.address)) :
    cells'.Pairwise (·.address ≠ ·.address) := by
  have addresses := map_of_identity (fun a _ => a) same
  have nodup : (cells.map fun c => c.address).Pairwise (· ≠ ·) := List.pairwise_map.mpr distinct
  rw [← addresses] at nodup
  exact List.pairwise_map.mp nodup

theorem held_of_identity (same : cells'.map Cell.identity = cells.map Cell.identity) {a : Nat}
    (held : ∃ c ∈ cells, c.address = a) : ∃ c ∈ cells', c.address = a := by
  obtain ⟨c, hc, rfl⟩ := held
  obtain ⟨d, hd, eq, -⟩ := mem_of_identity same.symm hc
  exact ⟨d, hd, eq⟩

theorem eq_of_address (distinct : cells.Pairwise (·.address ≠ ·.address)) {c d : Cell β}
    (hc : c ∈ cells) (hd : d ∈ cells) (same : c.address = d.address) : c = d :=
  eq_of_pairwise_ne distinct hc hd same

theorem find?_address (distinct : cells.Pairwise (·.address ≠ ·.address)) (hc : c ∈ cells) :
    find? cells (some c.address) = some c := by
  rw [find?]
  cases found : cells.find? fun d => some c.address = some d.address with
  | none =>
    have := List.find?_eq_none.mp found c hc
    simp at this
  | some d =>
    have address : c.address = d.address := by
      simpa using List.find?_some found
    exact congrArg some (eq_of_address distinct (List.mem_of_find?_eq_some found) hc address.symm)

end Cells

namespace Exact

variable {cells : List (Cell β)} {gs gs' : List Guard} {g : Guard}

/-- Only the number of guards on each cell matters. -/
theorem of_count (exact : Exact cells gs)
    (same : ∀ a, gs'.count (some a) = gs.count (some a)) : Exact cells gs' where
  distinct := exact.distinct
  counts c hc := (exact.counts c hc).trans (same _).symm
  held a mem := by
    apply exact.held
    rw [← List.count_pos_iff] at mem ⊢
    exact same a ▸ mem

theorem ref (exact : Exact cells gs) (known : ∀ a, g = some a → ∃ c ∈ cells, c.address = a) :
    Exact (ref cells g) (g :: gs) where
  distinct := distinct_of_identity ref_identity exact.distinct
  counts c hc := by
    obtain ⟨d, hd, rfl⟩ := List.mem_map.mp hc
    have := exact.counts d hd
    rw [List.count_cons]
    split
    · rename_i same
      simp [same, this]
    · rename_i other
      simp [other, this]
  held a mem := by
    apply held_of_identity ref_identity
    cases List.mem_cons.mp mem with
    | inl eq => exact known a eq.symm
    | inr old => exact exact.held a old

theorem deref (exact : Exact cells (g :: gs)) : Exact (deref cells g) gs where
  distinct := distinct_of_identity deref_identity exact.distinct
  counts c hc := by
    obtain ⟨d, hd, rfl⟩ := List.mem_map.mp hc
    have := exact.counts d hd
    rw [List.count_cons] at this
    split
    · rename_i same
      simp [same] at this
      simp [this]
    · rename_i other
      simp [other] at this
      exact this
  held a mem := held_of_identity deref_identity (exact.held a (List.mem_cons_of_mem _ mem))

/-- A new cell has no guards. -/
theorem alloc (exact : Exact cells gs) {address : Nat} (val : β)
    (fresh : ∀ c ∈ cells, c.address ≠ address) :
    Exact (cells ++ [⟨address, 0, val⟩]) gs where
  distinct := by
    rw [List.pairwise_append]
    refine ⟨exact.distinct, List.pairwise_singleton _ _, fun c hc d hd => ?_⟩
    obtain rfl := List.mem_singleton.mp hd
    exact fresh c hc
  counts c hc := by
    cases List.mem_append.mp hc with
    | inl old => exact exact.counts c old
    | inr new =>
      obtain rfl := List.mem_singleton.mp new
      refine (List.count_eq_zero.mpr fun mem => ?_).symm
      obtain ⟨d, hd, eq⟩ := exact.held address mem
      exact fresh d hd eq
  held a mem := by
    obtain ⟨c, hc, eq⟩ := exact.held a mem
    exact ⟨c, List.mem_append_left _ hc, eq⟩

theorem perm {cells' : List (Cell β)} (exact : Exact cells gs) (perm : cells.Perm cells') :
    Exact cells' gs where
  distinct := perm.pairwise exact.distinct fun ne => ne.symm
  counts c hc := exact.counts c (perm.mem_iff.mpr hc)
  held a mem := by
    obtain ⟨c, hc, eq⟩ := exact.held a mem
    exact ⟨c, perm.mem_iff.mp hc, eq⟩

/-- Cells that no guard refers to can go. -/
theorem collect (exact : Exact cells gs) {keep : Cell β → Bool}
    (unused : ∀ c ∈ cells, keep c = false → some c.address ∉ gs) :
    Exact (cells.filter keep) gs where
  distinct := exact.distinct.sublist List.filter_sublist
  counts c hc := exact.counts c (List.mem_filter.mp hc).1
  held a mem := by
    obtain ⟨c, hc, rfl⟩ := exact.held a mem
    refine ⟨c, List.mem_filter.mpr ⟨hc, ?_⟩, rfl⟩
    cases kept : keep c with
    | true => rfl
    | false => exact absurd mem (unused c hc kept)

/-- What a cell stands for can change. -/
theorem modify (exact : Exact cells gs) {f : Cell β → Cell β}
    (address : ∀ c, (f c).address = c.address) (refs : ∀ c, (f c).refs = c.refs) :
    Exact (cells.map f) gs where
  distinct := List.pairwise_map.mpr (exact.distinct.imp fun ne => by rwa [address, address])
  counts c hc := by
    obtain ⟨d, hd, rfl⟩ := List.mem_map.mp hc
    rw [address, refs]
    exact exact.counts d hd
  held a mem := by
    obtain ⟨c, hc, eq⟩ := exact.held a mem
    exact ⟨f c, List.mem_map_of_mem hc, (address c).trans eq⟩

/-- A cell has a guard exactly if its count is not zero. -/
theorem refs_ne_zero_iff (exact : Exact cells gs) {c : Cell β} (hc : c ∈ cells) :
    c.refs ≠ 0 ↔ some c.address ∈ gs := by
  rw [exact.counts c hc, ← Nat.pos_iff_ne_zero, List.count_pos_iff]

end Exact

namespace Evolves

variable {cells cells' cells'' : List (Cell β)} {gs gs' gs'' hs : List Guard} {g : Guard}

theorem of_count (same : ∀ a, gs'.count (some a) = gs.count (some a)) :
    Evolves cells gs cells gs' where
  exact exact := exact.of_count same
  same := rfl
  sub a mem := by
    rw [← List.count_pos_iff] at mem ⊢
    exact same a ▸ mem

theorem refl : Evolves cells gs cells gs := of_count fun _ => rfl

theorem trans (first : Evolves cells gs cells' gs') (second : Evolves cells' gs' cells'' gs'') :
    Evolves cells gs cells'' gs'' where
  exact exact := second.exact (first.exact exact)
  same := second.same.trans first.same
  sub a mem := first.sub a (second.sub a mem)

/-- Copying a guard that is there, `file_guard(const file_guard&)`. -/
theorem copy (known : ∀ a, g = some a → some a ∈ gs) : Evolves cells gs (ref cells g) (g :: gs) where
  exact exact := exact.ref fun a eq => exact.held a (known a eq)
  same := ref_identity
  sub a mem := by
    cases List.mem_cons.mp mem with
    | inl eq => exact known a eq.symm
    | inr old => exact old

theorem release : Evolves cells (g :: gs) (deref cells g) gs where
  exact exact := exact.deref
  same := deref_identity
  sub _ mem := List.mem_cons_of_mem _ mem

theorem copyAll (known : ∀ a, some a ∈ hs → some a ∈ gs) :
    Evolves cells gs (refAll cells hs) (hs ++ gs) := by
  induction hs generalizing cells gs with
  | nil => exact refl
  | cons h hs ih =>
    have head : Evolves cells gs (ref cells h) (h :: gs) :=
      copy fun a eq => known a (eq ▸ List.mem_cons_self)
    have tail : Evolves (ref cells h) (h :: gs) (refAll (ref cells h) hs) (hs ++ h :: gs) :=
      ih fun a mem => List.mem_cons_of_mem _ (known a (List.mem_cons_of_mem _ mem))
    refine (head.trans tail).trans (of_count fun a => ?_)
    simp only [List.cons_append, List.count_cons, List.count_append]
    omega

theorem releaseAll : Evolves cells (hs ++ gs) (derefAll cells hs) gs := by
  induction hs generalizing cells with
  | nil => exact refl
  | cons h hs ih =>
    have head : Evolves cells (h :: (hs ++ gs)) (deref cells h) (hs ++ gs) := release
    exact head.trans ih

end Evolves

/-- What a program does with a table of guards: the constructors, the assignments and the
destructor of a guard class. -/
inductive GuardOp where
  | copy (i : Nat)
  | move (i : Nat)
  | copyAssign (i j : Nat)
  | moveAssign (i j : Nat)
  | release (i : Nat)

/-- An assignment releases its target first, also when it is its own source. -/
def GuardOp.run (cells : List (Cell β)) (table : List Guard) :
    GuardOp → Option (List (Cell β) × List Guard)
  | .copy i => table[i]?.map fun g => (ref cells g, table ++ [g])
  | .move i => table[i]?.map fun g => (cells, table.set i none ++ [g])
  | .copyAssign i j =>
    table[j]?.bind fun old => (table.set j none)[i]?.map fun g =>
      (ref (deref cells old) g, (table.set j none).set j g)
  | .moveAssign i j =>
    table[j]?.bind fun old => (table.set j none)[i]?.map fun g =>
      (deref cells old, ((table.set j none).set i none).set j g)
  | .release i => table[i]?.map fun g => (deref cells g, table.eraseIdx i)

section Slots

variable {α : Type*} {l : List α} {i : Nat} {x : α}

/-- A list around one of its places. -/
theorem exists_slot (at_ : l[i]? = some x) :
    ∃ before after, l = before ++ x :: after ∧ (∀ y, l.set i y = before ++ y :: after) ∧
      l.eraseIdx i = before ++ after := by
  obtain ⟨lt, rfl⟩ := List.getElem?_eq_some_iff.mp at_
  refine ⟨l.take i, l.drop (i + 1), ?_, fun y => ?_, ?_⟩
  · exact (List.take_append_drop i l).symm.trans (by rw [List.drop_eq_getElem_cons lt])
  · rw [List.set_eq_take_append_cons_drop, if_pos lt]
  · rw [List.eraseIdx_eq_take_drop_succ]

theorem count_set_slot [BEq α] (at_ : l[i]? = some x) (y a : α) :
    (l.set i y).count a + [x].count a = l.count a + [y].count a := by
  obtain ⟨before, after, rfl, set, -⟩ := exists_slot at_
  rw [set]
  simp only [List.count_append, List.count_cons, List.count_nil]
  omega

theorem count_eraseIdx_slot [BEq α] (at_ : l[i]? = some x) (a : α) :
    (l.eraseIdx i).count a + [x].count a = l.count a := by
  obtain ⟨before, after, rfl, -, erase⟩ := exists_slot at_
  rw [erase]
  simp only [List.count_append, List.count_cons, List.count_nil]
  omega

theorem count_flatMap_set_slot {γ : Type*} [BEq γ] (f : α → List γ) (at_ : l[i]? = some x) (y : α)
    (a : γ) : ((l.set i y).flatMap f).count a + (f x).count a =
      (l.flatMap f).count a + (f y).count a := by
  obtain ⟨before, after, rfl, set, -⟩ := exists_slot at_
  rw [set]
  simp only [List.flatMap_append, List.flatMap_cons, List.count_append]
  omega

theorem count_flatMap_eraseIdx_slot {γ : Type*} [BEq γ] (f : α → List γ) (at_ : l[i]? = some x)
    (a : γ) : ((l.eraseIdx i).flatMap f).count a + (f x).count a = (l.flatMap f).count a := by
  obtain ⟨before, after, rfl, -, erase⟩ := exists_slot at_
  rw [erase]
  simp only [List.flatMap_append, List.flatMap_cons, List.count_append]
  omega

theorem count_map_eraseIdx_slot {γ : Type*} [BEq γ] (f : α → γ) (at_ : l[i]? = some x) (a : γ) :
    ((l.eraseIdx i).map f).count a + [f x].count a = (l.map f).count a := by
  have := count_flatMap_eraseIdx_slot (fun x => [f x]) at_ a
  rwa [← List.map_eq_flatMap, ← List.map_eq_flatMap] at this

theorem map_set_slot {γ : Type*} (f : α → γ) (at_ : l[i]? = some x) {y : α} (same : f y = f x) :
    (l.set i y).map f = l.map f := by
  obtain ⟨before, after, rfl, set, -⟩ := exists_slot at_
  rw [set, List.map_append, List.map_append, List.map_cons, List.map_cons, same]

section Distinct

variable {γ : Type*} {f : α → γ} (distinct : l.Pairwise (f · ≠ f ·)) (at_ : l[i]? = some x)
include distinct at_

/-- Where `f` tells the elements apart, the other places keep theirs. -/
theorem mem_set_slot {y z : α} : z ∈ l.set i y ↔ z = y ∨ z ∈ l ∧ f z ≠ f x := by
  obtain ⟨before, after, rfl, set, -⟩ := exists_slot at_
  obtain ⟨-, rest, cross⟩ := List.pairwise_append.mp distinct
  have left := fun z hz => cross z hz x List.mem_cons_self
  have right := fun z hz => ((List.pairwise_cons.mp rest).1 z hz).symm
  rw [set]
  simp only [List.mem_append, List.mem_cons]
  constructor
  · rintro (first | rfl | last)
    · exact Or.inr ⟨Or.inl first, left z first⟩
    · exact Or.inl rfl
    · exact Or.inr ⟨Or.inr (Or.inr last), right z last⟩
  · rintro (rfl | ⟨first | rfl | last, other⟩)
    · exact Or.inr (Or.inl rfl)
    · exact Or.inl first
    · exact absurd rfl other
    · exact Or.inr (Or.inr last)

theorem mem_eraseIdx_slot {z : α} : z ∈ l.eraseIdx i ↔ z ∈ l ∧ f z ≠ f x := by
  obtain ⟨before, after, rfl, -, erase⟩ := exists_slot at_
  obtain ⟨-, rest, cross⟩ := List.pairwise_append.mp distinct
  have left := fun z hz => cross z hz x List.mem_cons_self
  have right := fun z hz => ((List.pairwise_cons.mp rest).1 z hz).symm
  rw [erase]
  simp only [List.mem_append, List.mem_cons]
  constructor
  · rintro (first | last)
    · exact ⟨Or.inl first, left z first⟩
    · exact ⟨Or.inr (Or.inr last), right z last⟩
  · rintro ⟨first | rfl | last, other⟩
    · exact Or.inl first
    · exact absurd rfl other
    · exact Or.inr last

theorem pairwise_set_slot {y : α} (same : f y = f x) : (l.set i y).Pairwise (f · ≠ f ·) := by
  have mapped : (l.map f).Pairwise (· ≠ ·) := List.pairwise_map.mpr distinct
  rw [← map_set_slot f at_ same] at mapped
  exact List.pairwise_map.mp mapped

end Distinct

/-- A place that was overwritten. -/
theorem getElem?_set_slot (at_ : l[i]? = some x) (y : α) : (l.set i y)[i]? = some y := by
  obtain ⟨lt, -⟩ := List.getElem?_eq_some_iff.mp at_
  exact List.getElem?_set_self lt

end Slots

namespace Evolves

variable {cells : List (Cell β)} {table others : List Guard} {i j : Nat} {g : Guard}

/-- `release()` on one guard of a table leaves it null. -/
theorem reset (at_ : table[i]? = some g) :
    Evolves cells (table ++ others) (deref cells g) (table.set i none ++ others) := by
  have taken : Evolves cells (table ++ others) cells (g :: (table.set i none ++ others)) := by
    refine .of_count fun a => ?_
    have := count_set_slot at_ none (some a)
    simp only [List.count_append, List.count_cons, List.count_nil] at this ⊢
    simp only [reduceCtorEq, beq_iff_eq, if_false] at this ⊢
    omega
  exact taken.trans release

/-- Moving a guard to a null place of its table, or away from it. -/
theorem shift {table' : List Guard} (at_ : table[i]? = some g)
    (target : (table.set i none)[j]? = some none) (eq : table' = (table.set i none).set j g) :
    Evolves cells (table ++ others) cells (table' ++ others) := by
  refine .of_count fun a => ?_
  have away := count_set_slot at_ none (some a)
  have arrive := count_set_slot target g (some a)
  rw [eq, List.count_append, List.count_append]
  omega

end Evolves

/-- The guard classes keep the counts exact, whatever other guards there are. -/
theorem GuardOp.run_evolves {cells cells' : List (Cell β)} {table table' others : List Guard}
    {op : GuardOp} (ran : op.run cells table = some (cells', table')) :
    Evolves cells (table ++ others) cells' (table' ++ others) := by
  cases op with
  | copy i =>
    obtain ⟨g, at_, eq⟩ := Option.map_eq_some_iff.mp ran
    obtain ⟨rfl, rfl⟩ := Prod.mk.inj eq
    have known : ∀ a, g = some a → some a ∈ table ++ others := by
      rintro a rfl
      exact List.mem_append_left _ (List.mem_of_getElem? at_)
    refine (Evolves.copy known).trans (.of_count fun a => ?_)
    simp only [List.count_append, List.count_cons, List.count_nil]
    omega
  | move i =>
    obtain ⟨g, at_, eq⟩ := Option.map_eq_some_iff.mp ran
    obtain ⟨rfl, rfl⟩ := Prod.mk.inj eq
    refine .of_count fun a => ?_
    have away := count_set_slot at_ none (some a)
    have null : [(none : Guard)].count (some a) = 0 := by simp
    simp only [List.count_append]
    omega
  | copyAssign i j =>
    obtain ⟨old, at_, rest⟩ := Option.bind_eq_some_iff.mp ran
    obtain ⟨g, source, eq⟩ := Option.map_eq_some_iff.mp rest
    obtain ⟨rfl, rfl⟩ := Prod.mk.inj eq
    have known : ∀ a, g = some a → some a ∈ table.set j none ++ others := by
      rintro a rfl
      exact List.mem_append_left _ (List.mem_of_getElem? source)
    refine ((Evolves.reset at_).trans (Evolves.copy known)).trans (.of_count fun a => ?_)
    have arrive := count_set_slot (getElem?_set_slot at_ none) g (some a)
    have null : [(none : Guard)].count (some a) = 0 := by simp
    rw [← List.singleton_append, List.count_append, List.count_append, List.count_append]
    omega
  | moveAssign i j =>
    obtain ⟨old, at_, rest⟩ := Option.bind_eq_some_iff.mp ran
    obtain ⟨g, source, eq⟩ := Option.map_eq_some_iff.mp rest
    obtain ⟨rfl, rfl⟩ := Prod.mk.inj eq
    have target : ((table.set j none).set i none)[j]? = some none := by
      by_cases same : i = j
      · subst same
        exact getElem?_set_slot source none
      · rw [List.getElem?_set_ne same]
        exact getElem?_set_slot at_ none
    exact (Evolves.reset at_).trans (Evolves.shift source target rfl)
  | release i =>
    obtain ⟨g, at_, eq⟩ := Option.map_eq_some_iff.mp ran
    obtain ⟨rfl, rfl⟩ := Prod.mk.inj eq
    refine (Evolves.of_count fun a => ?_).trans Evolves.release
    have gone := count_eraseIdx_slot at_ (some a)
    rw [← List.singleton_append, List.count_append, List.count_append, List.count_append]
    omega

/-- The same for a table that stands between other guards. -/
theorem GuardOp.run_evolves_within {cells cells' : List (Cell β)} {table table' : List Guard}
    {op : GuardOp} (front back : List Guard) (ran : op.run cells table = some (cells', table')) :
    Evolves cells (front ++ (table ++ back)) cells' (front ++ (table' ++ back)) := by
  have first : ∀ t : List Guard, ∀ a, (front ++ (t ++ back)).count (some a) =
      (t ++ (front ++ back)).count (some a) := by
    intro t a
    simp only [List.count_append]
    omega
  have moved : Evolves cells (table ++ (front ++ back)) cells' (table' ++ (front ++ back)) :=
    GuardOp.run_evolves ran
  exact ((Evolves.of_count fun a => (first table a).symm).trans moved).trans (.of_count (first table'))

theorem GuardOp.run_identity {cells cells' : List (Cell β)} {table table' : List Guard}
    {op : GuardOp} (ran : op.run cells table = some (cells', table')) :
    cells'.map Cell.identity = cells.map Cell.identity := by
  have evolves : Evolves cells (table ++ []) cells' (table' ++ []) := GuardOp.run_evolves ran
  exact evolves.same

end RefCount

end Framework
