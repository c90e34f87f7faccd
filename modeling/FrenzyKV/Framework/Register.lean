import Mathlib.Data.List.Perm.Subperm
import Mathlib.Order.Nat

namespace Framework.Register

inductive Access where
  | write
  | read
deriving DecidableEq

/-- A call with the times at which it starts and returns. `value` is what it writes or has read. -/
structure Call (α : Type*) where
  access : Access
  value : α
  called : Nat
  returned : Option Nat
deriving DecidableEq

variable {α : Type*}

/-- One call has returned when the other one starts. -/
def Call.Before (c d : Call α) : Prop := ∃ t ∈ c.returned, t < d.called

/-- Calls one after another on a register that holds `v`. -/
def Legal (v : α) : List (Call α) → Prop
  | [] => True
  | c :: rest => match c.access with
    | .write => Legal c.value rest
    | .read => c.value = v ∧ Legal v rest

/-- All calls that have returned, and some of the others, in an order that agrees with real time and
in which each read gets what was written last. -/
def Linearizable (v : α) (history : List (Call α)) : Prop :=
  ∃ order : List (Call α), order.Subperm history ∧
    (history.filter (·.returned.isSome)).Subperm order ∧
    order.Pairwise (fun c d => ¬ d.Before c) ∧ Legal v order

/-- A call with its version of the register. It counts once it has had its effect. -/
structure Tagged (α : Type*) extends Call α where
  version : Nat
  counts : Bool

/-- The order by versions: a write, then the reads of what it wrote in the order of their calls. -/
def Tagged.le (x y : Tagged α) : Bool :=
  x.version < y.version ||
    x.version == y.version && (x.access == .write || y.access == .read && x.called ≤ y.called)

/-- What the versions of a history have to obey. Calls that are not live will never count. -/
structure Consistent (v : α) (live : Tagged α → Prop) (ts : List (Tagged α)) : Prop where
  counted : ∀ x ∈ ts, x.returned.isSome = true → x.counts = true
  alive : ∀ x ∈ ts, x.counts = true → live x
  forward : ∀ x ∈ ts, ∀ t ∈ x.returned, x.called ≤ t
  positive : ∀ x ∈ ts, x.access = .write → 0 < x.version
  apart : ts.Pairwise fun x y =>
    live x → live y → x.access = .write → y.access = .write → x.version ≠ y.version
  order : ∀ x ∈ ts, ∀ y ∈ ts, live y → x.Before y.toCall →
    x.version ≤ y.version ∧ (y.access = .write → x.version < y.version)
  source : ∀ x ∈ ts, x.access = .read → (x.version = 0 ∧ x.value = v) ∨
    ∃ y ∈ ts, y.counts = true ∧ y.access = .write ∧ y.version = x.version ∧ y.value = x.value

variable {v : α} {live : Tagged α → Prop} {ts : List (Tagged α)} {x y z : Tagged α}

theorem le_iff : x.le y = true ↔ x.version < y.version ∨
    x.version = y.version ∧ (x.access = .write ∨ y.access = .read ∧ x.called ≤ y.called) := by
  simp [Tagged.le]

theorem le_trans (first : x.le y = true) (second : y.le z = true) : x.le z = true := by
  rw [le_iff] at first second ⊢
  grind

theorem le_total (x y : Tagged α) : (x.le y || y.le x) = true := by
  rw [Bool.or_eq_true, le_iff, le_iff]
  cases hx : x.access <;> cases hy : y.access <;> grind

/-- Reads of an order by versions get what was written last. -/
theorem legal_of_pairwise_le {n : Nat} {ts : List (Tagged α)}
    (sorted : ts.Pairwise (fun x y => x.le y = true))
    (apart : ts.Pairwise fun x y => x.access = .write → y.access = .write → x.version ≠ y.version)
    (later : ∀ x ∈ ts, x.access = .write → n < x.version)
    (source : ∀ x ∈ ts, x.access = .read → (x.version = n ∧ x.value = v) ∨
      ∃ y ∈ ts, y.access = .write ∧ y.version = x.version ∧ y.value = x.value) :
    Legal v (ts.map Tagged.toCall) := by
  induction ts generalizing n v with
  | nil => trivial
  | cons x rest ih =>
    obtain ⟨first, sorted⟩ := List.pairwise_cons.mp sorted
    obtain ⟨others, apart⟩ := List.pairwise_cons.mp apart
    cases access : x.access with
    | write =>
      have next : ∀ y ∈ rest, y.access = .write → x.version < y.version := by
        intro y mem write
        rcases le_iff.mp (first y mem) with less | ⟨same, -⟩
        · exact less
        · exact absurd same (others y mem access write)
      simp only [List.map_cons, Legal, access]
      refine ih sorted apart next fun y mem read => ?_
      have above := later x List.mem_cons_self access
      have low : x.version ≤ y.version := by
        rcases le_iff.mp (first y mem) with less | ⟨same, -⟩
        · exact less.le
        · exact same.le
      rcases source y (List.mem_cons_of_mem _ mem) read with ⟨old, -⟩ | ⟨w, written, write, same, value⟩
      · omega
      · rcases List.mem_cons.mp written with rfl | inRest
        · exact Or.inl ⟨same.symm, value.symm⟩
        · exact Or.inr ⟨w, inRest, write, same, value⟩
    | read =>
      have kept : ∀ y ∈ x :: rest, y.access = .write → y ∈ rest := by
        intro y mem write
        rcases List.mem_cons.mp mem with rfl | inRest
        · rw [access] at write
          cases write
        · exact inRest
      simp only [List.map_cons, Legal, access]
      constructor
      · rcases source x List.mem_cons_self access with ⟨-, value⟩ | ⟨w, written, write, same, -⟩
        · exact value
        · have after := le_iff.mp (first w (kept w written write))
          rw [access, write] at after
          rcases after with less | ⟨-, none | ⟨none, -⟩⟩
          · omega
          · cases none
          · cases none
      · refine ih sorted apart (fun y mem => later y (List.mem_cons_of_mem _ mem)) fun y mem read => ?_
        refine (source y (List.mem_cons_of_mem _ mem) read).imp_right ?_
        rintro ⟨w, written, write, rest⟩
        exact ⟨w, kept w written write, write, rest⟩

theorem linearizable_of_consistent (consistent : Consistent v live ts) :
    Linearizable v (ts.map Tagged.toCall) := by
  let counted := ts.filter (·.counts)
  let order := counted.mergeSort Tagged.le
  have perm : order.Perm counted := List.mergeSort_perm counted Tagged.le
  have sorted : order.Pairwise (fun x y => x.le y = true) :=
    @List.pairwise_mergeSort _ Tagged.le (fun _ _ _ => le_trans) le_total counted
  have inside : ∀ x ∈ order, x ∈ ts ∧ x.counts = true := fun x mem =>
    List.mem_filter.mp (perm.mem_iff.mp mem)
  have lives : ∀ x ∈ order, live x := fun x mem =>
    consistent.alive x (inside x mem).1 (inside x mem).2
  have apart : order.Pairwise fun x y =>
      x.access = .write → y.access = .write → x.version ≠ y.version := by
    have kept : order.Pairwise fun x y =>
        live x → live y → x.access = .write → y.access = .write → x.version ≠ y.version := by
      refine (consistent.apart.filter _).perm perm.symm ?_
      exact fun different hy hx second first => (different hx hy first second).symm
    exact kept.imp_of_mem fun hx hy different => different (lives _ hx) (lives _ hy)
  have returned : ts.filter (·.returned.isSome) = counted.filter (·.returned.isSome) := by
    rw [List.filter_filter]
    refine List.filter_congr fun x mem => ?_
    cases done : x.returned.isSome with
    | false => rfl
    | true => exact (consistent.counted x mem done).symm
  refine ⟨order.map Tagged.toCall, ?_, ?_, ?_, ?_⟩
  · exact (perm.map _).subperm.trans ((List.filter_sublist).map _).subperm
  · have kept : (ts.filter (·.returned.isSome)).Sublist counted := by
      rw [returned]
      exact List.filter_sublist
    rw [List.filter_map]
    exact (kept.map Tagged.toCall).subperm.trans (perm.symm.map Tagged.toCall).subperm
  · refine List.pairwise_map.mpr (sorted.imp_of_mem fun {x y} hx hy le before => ?_)
    obtain ⟨follows, strictly⟩ := consistent.order y (inside y hy).1 x (inside x hx).1 (lives x hx) before
    obtain ⟨t, returned, early⟩ := before
    have forward := consistent.forward y (inside y hy).1 t returned
    rcases le_iff.mp le with less | ⟨same, write | ⟨-, called⟩⟩
    · omega
    · have := strictly write
      omega
    · omega
  · refine legal_of_pairwise_le sorted apart (fun x mem => consistent.positive x (inside x mem).1) ?_
    intro x mem read
    refine (consistent.source x (inside x mem).1 read).imp_right ?_
    rintro ⟨y, hy, counts, rest⟩
    exact ⟨y, perm.mem_iff.mpr (List.mem_filter.mpr ⟨hy, counts⟩), rest⟩

section Changes

variable {live' : Tagged α → Prop} {new : List (Tagged α)}

/-- Calls that have not returned may stop being live before they count. -/
theorem Consistent.weaken (consistent : Consistent v live ts)
    (dies : ∀ x ∈ ts, live' x → live x) (alive : ∀ x ∈ ts, x.counts = true → live' x) :
    Consistent v live' ts :=
  { consistent with
    alive
    apart := consistent.apart.imp_of_mem fun hx hy apart lx ly => apart (dies _ hx lx) (dies _ hy ly)
    order := fun x hx y hy ly => consistent.order x hx y hy (dies y hy ly) }

/-- Calls take effect, or return after all calls of the history have started. -/
theorem Consistent.map {f : Tagged α → Tagged α} (consistent : Consistent v live ts)
    (same : ∀ x, (f x).access = x.access ∧ (f x).value = x.value ∧ (f x).called = x.called ∧
      (f x).version = x.version)
    (times : ∀ x ∈ ts, ∀ t ∈ (f x).returned, t ∈ x.returned ∨ ∀ y ∈ ts, y.called ≤ t)
    (counted : ∀ x ∈ ts, (f x).returned.isSome = true → (f x).counts = true)
    (kept : ∀ x ∈ ts, x.counts = true → (f x).counts = true)
    (alive : ∀ x ∈ ts, (f x).counts = true → live' (f x)) (dies : ∀ x ∈ ts, live' (f x) → live x) :
    Consistent v live' (ts.map f) := by
  constructor
  case counted => exact List.forall_mem_map.mpr counted
  case alive => exact List.forall_mem_map.mpr alive
  case forward =>
    refine List.forall_mem_map.mpr fun x hx t returned => ?_
    rw [(same x).2.2.1]
    rcases times x hx t returned with before | last
    · exact consistent.forward x hx t before
    · exact last x hx
  case positive =>
    refine List.forall_mem_map.mpr fun x hx write => ?_
    rw [(same x).2.2.2]
    exact consistent.positive x hx ((same x).1 ▸ write)
  case apart =>
    refine List.pairwise_map.mpr (consistent.apart.imp_of_mem fun {x y} hx hy apart lx ly wx wy => ?_)
    rw [(same x).2.2.2, (same y).2.2.2]
    exact apart (dies x hx lx) (dies y hy ly) ((same x).1 ▸ wx) ((same y).1 ▸ wy)
  case order =>
    refine List.forall_mem_map.mpr fun x hx => List.forall_mem_map.mpr fun y hy ly before => ?_
    obtain ⟨t, returned, early⟩ := before
    rw [(same y).2.2.1] at early
    rw [(same x).2.2.2, (same y).2.2.2, (same y).1]
    rcases times x hx t returned with own | last
    · exact consistent.order x hx y hy (dies y hy ly) ⟨t, own, early⟩
    · exact absurd early (last y hy).not_gt
  case source =>
    refine List.forall_mem_map.mpr fun x hx read => ?_
    rw [(same x).2.2.2, (same x).2.1]
    refine (consistent.source x hx ((same x).1 ▸ read)).imp_right ?_
    rintro ⟨y, hy, counts, write, version, value⟩
    exact ⟨f y, List.mem_map_of_mem hy, kept y hy counts, (same y).1.trans write,
      (same y).2.2.2.trans version, (same y).2.1.trans value⟩

/-- Writes start, with versions above those in use. -/
theorem Consistent.append_writes (consistent : Consistent v live ts)
    (dies : ∀ x ∈ ts, live' x → live x) (alive : ∀ x ∈ ts, x.counts = true → live' x)
    (fresh : ∀ y ∈ new, y.access = .write ∧ y.counts = false ∧ y.returned = none)
    (above : ∀ x ∈ ts, live x → ∀ y ∈ new, x.version < y.version) (positive : ∀ y ∈ new, 0 < y.version)
    (apart : new.Pairwise (·.version ≠ ·.version)) : Consistent v live' (ts ++ new) := by
  have old := consistent.weaken dies alive
  constructor
  case counted =>
    refine List.forall_mem_append.mpr ⟨old.counted, fun y hy returned => ?_⟩
    rw [(fresh y hy).2.2] at returned
    cases returned
  case alive =>
    refine List.forall_mem_append.mpr ⟨old.alive, fun y hy counts => ?_⟩
    rw [(fresh y hy).2.1] at counts
    cases counts
  case forward =>
    refine List.forall_mem_append.mpr ⟨old.forward, fun y hy t returned => ?_⟩
    rw [(fresh y hy).2.2] at returned
    cases returned
  case positive =>
    exact List.forall_mem_append.mpr ⟨old.positive, fun y hy _ => positive y hy⟩
  case apart =>
    refine List.pairwise_append.mpr ⟨old.apart, apart.imp fun different _ _ _ _ => different, ?_⟩
    exact fun x hx y hy lx _ _ _ => (above x hx (dies x hx lx) y hy).ne
  case order =>
    intro x hx y hy ly before
    rcases List.mem_append.mp hx with inOld | inNew
    · rcases List.mem_append.mp hy with hy | hy
      · exact old.order x inOld y hy ly before
      · obtain ⟨t, returned, -⟩ := before
        have counts := consistent.counted x inOld (Option.isSome_of_mem returned)
        have less := above x inOld (consistent.alive x inOld counts) y hy
        exact ⟨less.le, fun _ => less⟩
    · obtain ⟨t, returned, -⟩ := before
      rw [(fresh x inNew).2.2] at returned
      cases returned
  case source =>
    refine List.forall_mem_append.mpr ⟨fun x hx read => ?_, fun y hy read => ?_⟩
    · refine (old.source x hx read).imp_right ?_
      exact fun ⟨y, hy, rest⟩ => ⟨y, List.mem_append_left _ hy, rest⟩
    · rw [(fresh y hy).1] at read
      cases read

/-- A read returns something that has been written and is at least as new as what any call had that
returned before the read started. -/
theorem Consistent.append_read {r : Tagged α} {now : Nat} (consistent : Consistent v live ts)
    (read : r.access = .read) (counts : r.counts = true) (alive : live r) (returned : r.returned = some now)
    (called : r.called ≤ now) (last : ∀ y ∈ ts, y.called ≤ now)
    (newer : ∀ x ∈ ts, x.Before r.toCall → x.version ≤ r.version)
    (source : (r.version = 0 ∧ r.value = v) ∨ ∃ y ∈ ts, y.counts = true ∧ y.access = .write ∧
      y.version = r.version ∧ y.value = r.value) : Consistent v live (ts ++ [r]) := by
  have same : ∀ y ∈ [r], y = r := fun y hy => List.mem_singleton.mp hy
  have notWrite : r.access ≠ .write := by
    rw [read]
    decide
  constructor
  case counted =>
    refine List.forall_mem_append.mpr ⟨consistent.counted, fun y hy _ => ?_⟩
    rw [same y hy, counts]
  case alive =>
    refine List.forall_mem_append.mpr ⟨consistent.alive, fun y hy _ => ?_⟩
    rw [same y hy]
    exact alive
  case forward =>
    refine List.forall_mem_append.mpr ⟨consistent.forward, fun y hy t ht => ?_⟩
    rw [same y hy, returned] at ht
    rw [same y hy, ← Option.some.inj ht]
    exact called
  case positive =>
    refine List.forall_mem_append.mpr ⟨consistent.positive, fun y hy write => ?_⟩
    rw [same y hy] at write
    exact absurd write notWrite
  case apart =>
    refine List.pairwise_append.mpr ⟨consistent.apart, List.pairwise_singleton _ _, ?_⟩
    intro x _ y hy _ _ _ write
    rw [same y hy] at write
    exact absurd write notWrite
  case order =>
    intro x hx y hy ly before
    rcases List.mem_append.mp hx with inOld | new
    · rcases List.mem_append.mp hy with hy | hy
      · exact consistent.order x inOld y hy ly before
      · rw [same y hy] at before ⊢
        exact ⟨newer x inOld before, fun write => absurd write notWrite⟩
    · obtain ⟨t, ht, early⟩ := before
      rw [same x new, returned] at ht
      obtain rfl := Option.some.inj ht
      have started : y.called ≤ now := by
        rcases List.mem_append.mp hy with hy | hy
        · exact last y hy
        · rw [same y hy]
          exact called
      exact absurd early started.not_gt
  case source =>
    refine List.forall_mem_append.mpr ⟨fun x hx read => ?_, fun y hy _ => ?_⟩
    · refine (consistent.source x hx read).imp_right ?_
      exact fun ⟨y, hy, rest⟩ => ⟨y, List.mem_append_left _ hy, rest⟩
    · rw [same y hy]
      exact source.imp_right fun ⟨w, hw, rest⟩ => ⟨w, List.mem_append_left _ hw, rest⟩

end Changes

end Framework.Register
