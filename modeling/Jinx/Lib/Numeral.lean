import Mathlib.Data.List.TakeWhile

/-! Decimal numerals in a text of bytes: an optional sign and digits.

    A reader may take the numeral that a text begins with and leave the rest, or ask that the whole text
    is one. -/

namespace Numeral

/-- '0' to '9'. -/
def isDigit (c : UInt8) : Bool := 48 ≤ c && c ≤ 57

/-- The value of digits. -/
def value (digits : List UInt8) : Nat := digits.foldl (fun n c => 10 * n + (c.toNat - 48)) 0

/-- A sign, if there is one, and what stands behind it; `true` is '-'. -/
def sign : List UInt8 → Bool × List UInt8
  | 43 :: s => (false, s)
  | 45 :: s => (true, s)
  | s => (false, s)

def signed (negative : Bool) (n : Nat) : Int := if negative then -n else n

/-- The numeral that the text begins with. -/
def initial (s : List UInt8) : Option Int :=
  let digits := (sign s).2.takeWhile isDigit
  if digits = [] then none else some (signed (sign s).1 (value digits))

/-- The text is a numeral. -/
def whole (s : List UInt8) : Option Int :=
  if (sign s).2 ≠ [] ∧ (sign s).2.all isDigit then some (signed (sign s).1 (value (sign s).2)) else none

variable {s : List UInt8} {z : Int}

@[simp] theorem natAbs_signed (negative : Bool) (n : Nat) : (signed negative n).natAbs = n := by
  cases negative <;> simp [signed]

/-- What stands before the digits is nothing or a sign. -/
theorem sign_eq (s : List UInt8) :
    s = (sign s).2 ∨ ∃ c, (c = 43 ∨ c = 45) ∧ s = c :: (sign s).2 := by
  rw [sign.eq_def]
  split
  · exact .inr ⟨43, .inl rfl, rfl⟩
  · exact .inr ⟨45, .inr rfl, rfl⟩
  · exact .inl rfl

theorem whole_eq_some : whole s = some z ↔
    (sign s).2 ≠ [] ∧ (∀ c ∈ (sign s).2, isDigit c) ∧ signed (sign s).1 (value (sign s).2) = z := by
  rw [whole, Option.ite_none_right_eq_some, List.all_eq_true, and_assoc, Option.some.injEq]

/-- Where the whole text is a numeral, it is the one that the text begins with. -/
theorem initial_of_whole (h : whole s = some z) : initial s = some z := by
  obtain ⟨hne, hdigits, hz⟩ := whole_eq_some.mp h
  have htake : (sign s).2.takeWhile isDigit = (sign s).2 := List.takeWhile_eq_self_iff.mpr hdigits
  simp only [initial, htake, if_neg hne, hz]

theorem ne_nil_of_whole (h : whole s = some z) : s ≠ [] := by
  rintro rfl
  cases h

/-- No byte of a numeral comes before '+'. -/
theorem le_of_whole (h : whole s = some z) {c : UInt8} (hc : c ∈ s) : 43 ≤ c := by
  obtain ⟨-, hdigits, -⟩ := whole_eq_some.mp h
  have hdigit (hd : c ∈ (sign s).2) : 43 ≤ c := by
    have h48 := hdigits c hd
    rw [isDigit, Bool.and_eq_true, decide_eq_true_eq] at h48
    exact UInt8.le_trans (by decide) h48.1
  obtain heq | ⟨d, hd, heq⟩ := sign_eq s
  · exact hdigit (heq ▸ hc)
  · rw [heq, List.mem_cons] at hc
    obtain rfl | hc := hc
    · obtain rfl | rfl := hd <;> decide
    · exact hdigit hc

/-- A numeral does not begin with what a reader skips, when that comes before '+'. -/
theorem dropWhile_of_whole {blank : UInt8 → Bool} (hblank : ∀ c, 43 ≤ c → blank c = false)
    (h : whole s = some z) : s.dropWhile blank = s := by
  cases s with
  | nil => rfl
  | cons c s => rw [List.dropWhile_cons_of_neg (by simp [hblank c (le_of_whole h List.mem_cons_self)])]

end Numeral
