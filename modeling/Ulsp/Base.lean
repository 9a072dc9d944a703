import Mathlib.Algebra.Order.Ring.Int
import Mathlib.Logic.Function.Basic

/-!
# Objects and machine integers

The C and C++ of this repository name objects by address. An address is a natural number, a pointer
that may be null is an `Option Ptr`, and the objects of one class live in a `Store`, where an address
that holds no live object (never allocated, or freed) reads as `none`. A function that follows a
pointer is partial: it returns `none` where the code would follow a null or dangling one.
-/

namespace Ulsp

/-- An address. -/
abbrev Ptr := ℕ

/-- The live objects of one class, by address. -/
abbrev Store (Obj : Type) := Ptr → Option Obj

/-- The value a 64-bit integer takes when it is converted to `int`. -/
def toInt32 (x : ℤ) : ℤ := x.bmod (2 ^ 32)

/-- The value an integer takes when it is converted to `unsigned int`. -/
def toUInt32 (x : ℤ) : ℕ := (x % 2 ^ 32).toNat

/-- The value an integer takes when it is converted to `size_t`. -/
def toUInt64 (x : ℤ) : ℕ := (x % 2 ^ 64).toNat

/-- The value an integer takes when it is converted to `off_t`. -/
def toInt64 (x : ℤ) : ℤ := x.bmod (2 ^ 64)

/-- A value in the range of `off_t` converts to itself. -/
theorem toInt64_of_range {x : ℤ} (h₁ : -2 ^ 63 ≤ x) (h₂ : x < 2 ^ 63) : toInt64 x = x := by
  unfold toInt64
  exact Int.bmod_eq_of_le (by omega) (by omega)

/-- A value in the range of `size_t` converts to itself. -/
theorem toUInt64_of_range {n : ℕ} (h : n < 2 ^ 64) : toUInt64 n = n := by
  unfold toUInt64
  omega

/-- What conversion to `int` does: it adds a multiple of `2 ^ 32`. -/
theorem toInt32_cases (x : ℤ) :
    -2 ^ 31 ≤ toInt32 x ∧ toInt32 x < 2 ^ 31 ∧ ∃ k, x = toInt32 x + k * 2 ^ 32 :=
  ⟨Int.le_bmod (by omega), Int.bmod_lt (by omega), x.bdiv (2 ^ 32), (Int.bmod_add_bdiv' x _).symm⟩

/-- A value in the range of `int` converts to itself. -/
theorem toInt32_of_range {x : ℤ} (h₁ : -2 ^ 31 ≤ x) (h₂ : x < 2 ^ 31) : toInt32 x = x := by
  unfold toInt32
  exact Int.bmod_eq_of_le (by omega) (by omega)

/-- The addition of `int`s, undefined where it overflows. -/
def addInt (a b : ℤ) : Option ℤ := if -2 ^ 31 ≤ a + b ∧ a + b < 2 ^ 31 then some (a + b) else none

theorem addInt_of_range {a b : ℤ} (h : -2 ^ 31 ≤ a + b) (h' : a + b < 2 ^ 31) :
    addInt a b = some (a + b) := if_pos ⟨h, h'⟩

/-- A subtraction of `int`s that are not negative, with a result that is not. -/
theorem addInt_sub {a b : ℕ} (hle : b ≤ a) (ha : a < 2 ^ 31) :
    addInt a (-b) = some ((a - b : ℕ) : ℤ) := by
  rw [addInt_of_range (by omega) (by omega), Int.natCast_sub hle, Int.sub_eq_add_neg]

theorem addInt_eq_some {a b c : ℤ} (h : addInt a b = some c) : c = a + b ∧ c < 2 ^ 31 := by
  unfold addInt at h
  split at h
  · rename_i hr
    obtain rfl := Option.some.inj h
    exact ⟨rfl, hr.2⟩
  · cases h

end Ulsp
