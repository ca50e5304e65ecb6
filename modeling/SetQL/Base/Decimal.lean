import SetQL.Base.Bytes

/-!
# Decimal integers

`strtol` with base 10: white space, a sign and digits are read, and the value is clamped to the
signed 64-bit integers. The text of an integer within that range is read as its value.

## Main definitions

* `digitsValue ds`: the value of a list of digits
* `strtol s`: the integer at the start of a string
* `Decimal s z`: the text of an integer

## Main results

* `strtol_of_decimal`: the text of an integer in range is read as the integer
-/

namespace SetQL

/-- `isspace`. -/
def isspace (b : UInt8) : Bool := b == 32 || (9 ≤ b && b ≤ 13)

/-- `isdigit`. -/
def isdigit (b : UInt8) : Bool := 48 ≤ b && b ≤ 57

/-- The value of a list of digits. -/
def digitsValue (ds : Bytes) : ℕ := ds.foldl (fun n b => 10 * n + (b.toNat - 48)) 0

/-- A value out of range becomes `LONG_MIN` or `LONG_MAX`. -/
def clampLong (z : ℤ) : ℤ := max (-2 ^ 63) (min z (2 ^ 63 - 1))

/-- The digits at the start of a string. -/
def leadingDigits (s : Bytes) : Bytes := s.takeWhile isdigit

/-- `strtol` with base 10. -/
def strtol (s : Bytes) : ℤ :=
  match s.dropWhile isspace with
  | [] => 0
  | c :: s =>
    if c = 45 then clampLong (-(digitsValue (leadingDigits s)))
    else if c = 43 then clampLong (digitsValue (leadingDigits s))
    else clampLong (digitsValue (leadingDigits (c :: s)))

/-- The text of an integer: digits, after a minus sign for a negative one. -/
def Decimal (s : Bytes) (z : ℤ) : Prop :=
  ∃ ds, ds ≠ [] ∧ (∀ b ∈ ds, isdigit b = true) ∧
    (s = ds ∧ z = digitsValue ds ∨ s = 45 :: ds ∧ z = -digitsValue ds)

section Decimal

variable {s : Bytes} {z : ℤ} {b : UInt8}

theorem not_isspace_of_isdigit : isdigit b = true → isspace b = false ∧ b ≠ 45 ∧ b ≠ 43 :=
  forall_byte (p := fun b => isdigit b = true → isspace b = false ∧ b ≠ 45 ∧ b ≠ 43)
    (by decide +kernel) b

theorem leadingDigits_of_all (h : ∀ b ∈ s, isdigit b = true) : leadingDigits s = s :=
  List.takeWhile_eq_self_iff.mpr h

theorem clampLong_of_mem (h : -2 ^ 63 ≤ z) (h' : z < 2 ^ 63) : clampLong z = z := by
  unfold clampLong
  omega

/-- The text of an integer has one value. -/
theorem Decimal.unique {z' : ℤ} (h : Decimal s z) (h' : Decimal s z') : z = z' := by
  obtain ⟨ds, -, hds, ⟨rfl, rfl⟩ | ⟨rfl, rfl⟩⟩ := h
  · obtain ⟨ds', -, hds', ⟨rfl, rfl⟩ | ⟨rfl, rfl⟩⟩ := h'
    · rfl
    · exact absurd (hds 45 List.mem_cons_self) (by decide)
  · obtain ⟨ds', -, hds', ⟨rfl, rfl⟩ | ⟨heq, rfl⟩⟩ := h'
    · exact absurd (hds' 45 List.mem_cons_self) (by decide)
    · rw [(List.cons.inj heq).2]

/-- **The text of an integer in range is read as the integer.** -/
theorem strtol_of_decimal (h : Decimal s z) (hlo : -2 ^ 63 ≤ z) (hhi : z < 2 ^ 63) :
    strtol s = z := by
  obtain ⟨ds, hne, hds, ⟨rfl, rfl⟩ | ⟨rfl, rfl⟩⟩ := h
  · obtain ⟨c, s, rfl⟩ := List.exists_cons_of_ne_nil hne
    obtain ⟨hspace, hminus, hplus⟩ := not_isspace_of_isdigit (hds c List.mem_cons_self)
    simp only [strtol, List.dropWhile_cons, hspace, Bool.false_eq_true, if_false, hminus, hplus,
      leadingDigits_of_all hds, clampLong_of_mem hlo hhi]
  · have hspace : isspace 45 = false := by decide
    simp only [strtol, List.dropWhile_cons, hspace, Bool.false_eq_true, if_false, if_true,
      leadingDigits_of_all hds, clampLong_of_mem hlo hhi]

end Decimal

example : strtol (lit " -31000000") = -31000000 := by decide +kernel

end SetQL
