import Ulsp.Base

/-!
# What the programs use of the C library

A C string is the list of its characters, without the null character that ends it.
-/

namespace Ulsp

/-- `isspace`. -/
def isSpace (c : Char) : Bool := c = ' ' || ('\t' ≤ c && c ≤ '\r')

/-- The value of the digits that `s` starts with, read after digits of value `n`. -/
def digitsFrom : ℕ → List Char → ℕ
  | n, [] => n
  | n, c :: s => if c.isDigit then digitsFrom (n * 10 + (c.toNat - '0'.toNat)) s else n

/-- `strtol` in base 10: blanks, a sign and digits, clamped to the range of `long`. -/
def strtol (s : List Char) : ℤ :=
  match s.dropWhile isSpace with
  | '-' :: s => max (-(digitsFrom 0 s)) (-2 ^ 63)
  | '+' :: s => min (digitsFrom 0 s) (2 ^ 63 - 1)
  | s => min (digitsFrom 0 s) (2 ^ 63 - 1)

/-- What `printf` prints for `%d`. -/
def decimal (x : ℤ) : List Char := (if x < 0 then ['-'] else []) ++ Nat.toDigits 10 x.natAbs

/-- `atoi`: the value of `strtol`, converted to `int`. -/
def atoi (s : List Char) : ℤ := toInt32 (strtol s)

/-- A value past the range of `int` is brought back into it. -/
theorem toInt32_of_ge {x : ℤ} (h₁ : 2 ^ 31 ≤ x) (h₂ : x < 2 ^ 31 + 2 ^ 32) :
    toInt32 x = x - 2 ^ 32 := by
  unfold toInt32
  rw [← Int.sub_bmod_right, Int.bmod_eq_of_le (by omega) (by omega)]
  rfl

example : atoi " -12a".toList = -12 := by decide

end Ulsp
