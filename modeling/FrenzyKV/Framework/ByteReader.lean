import FrenzyKV.Math.Bytes

namespace Framework

open Bytes

/-- A reader returns its value and the bytes it left, or a fault. -/
abbrev ByteReader (ε α : Type) := StateT ByteString (Except ε) α

namespace ByteReader

variable {ε α β : Type} {r : ByteReader ε α} {f : α → ByteReader ε β}

/-- The next `n` bytes; `fault` when there are fewer. -/
def take (fault : ε) (n : Nat) : ByteReader ε ByteString := fun bytes =>
  if n ≤ bytes.length then .ok (bytes.take n, bytes.drop n) else .error fault

/-- The next `width` bytes as a number. -/
def number (fault : ε) (width : Nat) : ByteReader ε Nat := do
  let field ← take fault width
  return decodeBigEndian field

/-- What a reader reads does not depend on the bytes that it leaves, and more bytes change
nothing about a fault other than `short`. -/
structure Framed (short : ε) (r : ByteReader ε α) : Prop where
  ok : ∀ bytes a rest, r.run bytes = .ok (a, rest) →
    ∃ used, bytes = used ++ rest ∧ ∀ tail, r.run (used ++ tail) = .ok (a, tail)
  error : ∀ bytes fault, r.run bytes = .error fault → fault ≠ short →
    ∀ tail, r.run (bytes ++ tail) = .error fault

theorem bind_ok {bytes rest : ByteString} {a : α} (reads : r.run bytes = .ok (a, rest)) :
    (r >>= f).run bytes = (f a).run rest := by
  rw [StateT.run_bind, reads]
  rfl

theorem bind_error {bytes : ByteString} {fault : ε} (fails : r.run bytes = .error fault) :
    (r >>= f).run bytes = .error fault := by
  rw [StateT.run_bind, fails]
  rfl

theorem take_append {fault : ε} {n : Nat} {field : ByteString} (width : field.length = n)
    (tail : ByteString) : (take fault n).run (field ++ tail) = .ok (field, tail) := by
  have enough : n ≤ (field ++ tail).length := by
    rw [List.length_append]
    omega
  change (if _ then _ else _) = _
  rw [if_pos enough, List.take_left' width, List.drop_left' width]

theorem number_append {fault : ε} {width : Nat} {field : ByteString} (size : field.length = width)
    (tail : ByteString) :
    (number fault width).run (field ++ tail) = .ok (decodeBigEndian field, tail) := by
  rw [number, bind_ok (take_append size tail)]
  rfl

theorem take_short {fault : ε} {n : Nat} {bytes : ByteString} (short : bytes.length < n) :
    (take fault n).run bytes = .error fault :=
  if_neg (by omega)

theorem number_short {fault : ε} {width : Nat} {bytes : ByteString} (short : bytes.length < width) :
    (number fault width).run bytes = .error fault :=
  bind_error (take_short short)

theorem bind_eq_ok {bytes rest : ByteString} {b : β} (run : (r >>= f).run bytes = .ok (b, rest)) :
    ∃ a left, r.run bytes = .ok (a, left) ∧ (f a).run left = .ok (b, rest) := by
  cases first : r.run bytes with
  | error fault =>
    rw [bind_error first] at run
    cases run
  | ok result =>
    rw [bind_ok first] at run
    exact ⟨result.1, result.2, rfl, run⟩

theorem take_eq_ok {short : ε} {n : Nat} {bytes field rest : ByteString}
    (run : (take short n).run bytes = .ok (field, rest)) :
    field = bytes.take n ∧ rest = bytes.drop n := by
  by_cases enough : n ≤ bytes.length
  · have taken : (take short n).run bytes = .ok (bytes.take n, bytes.drop n) := if_pos enough
    rw [taken] at run
    obtain ⟨rfl, rfl⟩ := Prod.mk.inj (Except.ok.inj run)
    exact ⟨rfl, rfl⟩
  · rw [take_short (by omega)] at run
    cases run

theorem length_of_take {short : ε} {n : Nat} {bytes field rest : ByteString}
    (run : (take short n).run bytes = .ok (field, rest)) : field.length = n := by
  by_cases enough : n ≤ bytes.length
  · obtain ⟨rfl, _⟩ := take_eq_ok run
    exact List.length_take_of_le enough
  · rw [take_short (by omega)] at run
    cases run

theorem number_eq_ok {short : ε} {width n : Nat} {bytes rest : ByteString}
    (run : (number short width).run bytes = .ok (n, rest)) :
    n = decodeBigEndian (bytes.take width) ∧ rest = bytes.drop width := by
  obtain ⟨field, left, taken, value⟩ := bind_eq_ok run
  obtain ⟨rfl, rfl⟩ := take_eq_ok taken
  obtain ⟨rfl, rfl⟩ := Prod.mk.inj (Except.ok.inj value)
  exact ⟨rfl, rfl⟩

theorem number_lt {short : ε} {width n : Nat} {bytes rest : ByteString}
    (run : (number short width).run bytes = .ok (n, rest)) : n < 256 ^ width := by
  obtain ⟨field, left, taken, value⟩ := bind_eq_ok run
  obtain ⟨rfl, rfl⟩ := Prod.mk.inj (Except.ok.inj value)
  rw [← length_of_take taken]
  exact decodeBigEndian_lt field

theorem framed_pure (short : ε) (a : α) : Framed short (pure a : ByteReader ε α) where
  ok := by
    intro bytes b rest run
    have same : (a, bytes) = (b, rest) := Except.ok.inj run
    obtain ⟨rfl, rfl⟩ := Prod.mk.inj same
    exact ⟨[], rfl, fun tail => rfl⟩
  error := by
    intro bytes fault run
    cases run

theorem framed_throw (short fault : ε) : Framed short (throw fault : ByteReader ε α) where
  ok := by
    intro bytes a rest run
    cases run
  error := by
    intro bytes other run _ tail
    cases run
    rfl

theorem framed_take (short : ε) (n : Nat) : Framed short (take short n) where
  ok := by
    intro bytes field rest run
    by_cases enough : n ≤ bytes.length
    · have taken : (take short n).run bytes = .ok (bytes.take n, bytes.drop n) := if_pos enough
      rw [taken] at run
      obtain ⟨rfl, rfl⟩ := Prod.mk.inj (Except.ok.inj run)
      exact ⟨bytes.take n, (List.take_append_drop n bytes).symm,
        take_append (List.length_take_of_le enough)⟩
    · rw [take_short (by omega)] at run
      cases run
  error := by
    intro bytes fault run other
    by_cases enough : n ≤ bytes.length
    · have taken : (take short n).run bytes = .ok (bytes.take n, bytes.drop n) := if_pos enough
      rw [taken] at run
      cases run
    · rw [take_short (by omega)] at run
      exact absurd (Except.error.inj run).symm other

theorem Framed.bind {short : ε} (first : Framed short r) (second : ∀ a, Framed short (f a)) :
    Framed short (r >>= f) where
  ok := by
    intro bytes b rest run
    cases middle : r.run bytes with
    | error fault =>
      rw [bind_error middle] at run
      cases run
    | ok result =>
      obtain ⟨a, left⟩ := result
      rw [bind_ok middle] at run
      obtain ⟨used, eq, any⟩ := first.ok bytes a left middle
      obtain ⟨more, eq', any'⟩ := (second a).ok left b rest run
      refine ⟨used ++ more, by rw [eq, eq', List.append_assoc], fun tail => ?_⟩
      rw [List.append_assoc, bind_ok (any _)]
      exact any' tail
  error := by
    intro bytes fault run other tail
    cases middle : r.run bytes with
    | error first_fault =>
      rw [bind_error middle] at run
      cases run
      exact bind_error (first.error bytes fault middle other tail)
    | ok result =>
      obtain ⟨a, left⟩ := result
      rw [bind_ok middle] at run
      obtain ⟨used, eq, any⟩ := first.ok bytes a left middle
      rw [eq, List.append_assoc, bind_ok (any _)]
      exact (second a).error left fault run other tail

theorem framed_number (short : ε) (width : Nat) : Framed short (number short width) :=
  (framed_take short width).bind fun _ => framed_pure short _

theorem Framed.ite {short : ε} {c : Prop} [Decidable c] {s : ByteReader ε α} (yes : Framed short r)
    (no : Framed short s) : Framed short (if c then r else s) := by
  split
  · exact yes
  · exact no

/-- A framed reader that consumes exactly `whole` finds every proper prefix of it too short. -/
theorem Framed.short_of_torn {short : ε} (framed : Framed short r) {whole : ByteString} {a : α}
    (reads : r.run whole = .ok (a, [])) {n : Nat} (torn : n < whole.length) :
    r.run (whole.take n) = .error short := by
  cases run : r.run (whole.take n) with
  | error fault =>
    by_contra other
    have again := framed.error _ _ run (fun eq => other (congrArg Except.error eq)) (whole.drop n)
    rw [List.take_append_drop, reads] at again
    cases again
  | ok result =>
    obtain ⟨b, rest⟩ := result
    obtain ⟨used, eq, any⟩ := framed.ok _ _ _ run
    have again := any (rest ++ whole.drop n)
    rw [← List.append_assoc, ← eq, List.take_append_drop, reads] at again
    have left : [] = rest ++ whole.drop n := (Prod.mk.inj (Except.ok.inj again)).2
    have := congrArg List.length left
    simp only [List.length_nil, List.length_append, List.length_drop] at this
    omega

end ByteReader

end Framework
