import Ulsp.Cat.Bounds
import Ulsp.Cat.Stdout

/-!
# The options of `cat` one by one

`cat` does in one pass what its options say. On the lines of a text (`reference_textOf`) this comes to
four things done one after the other: empty lines go, tabs are expanded, lines are numbered and their
ends are marked. So `cat` with several options writes what a pipeline of `cat`s with one each writes
(`pipeline`).
-/

namespace Ulsp

open Lib

namespace Cat

/-! ## Texts -/

/-- The text of lines, each with a newline, and of a last one without. -/
def textOf (lines : List (List UInt8)) (rest : List UInt8) : List UInt8 :=
  lines.flatMap (· ++ [10]) ++ rest

/-- There is no newline in the lines. -/
def Lined (lines : List (List UInt8)) (rest : List UInt8) : Prop :=
  (∀ l ∈ lines, 10 ∉ l) ∧ 10 ∉ rest

variable {f f' : Flags} {n : LineNum} {c : UInt8} {l rest input : List UInt8}
  {lines : List (List UInt8)}

/-- `line_buf` holds no control characters but its tab and its terminator. -/
structure LineNum.Clean (n : LineNum) : Prop where
  fits : n.Fits
  print_le : n.print ≤ LineNum.last
  printable : ∀ j ≤ LineNum.last, 32 ≤ n.buf j
  tab : n.buf (LineNum.last + 1) = 9

/-- A byte that is set and no control character. -/
theorem printable_update {buf : Buffer} (h : ∀ j ≤ LineNum.last, 32 ≤ buf j) (k : ℕ) {c : UInt8}
    (hc : 32 ≤ c) : ∀ j ≤ LineNum.last, 32 ≤ Function.update buf k c j := by
  intro j hj
  rw [Function.update_apply]
  split
  · exact hc
  · exact h j hj

/-- Counting up brings in no control characters. -/
theorem LineNum.carry_printable {start endp : ℕ} {buf : Buffer} (hend : endp ≤ LineNum.last)
    (h : ∀ j ≤ LineNum.last, 32 ≤ buf j) :
    ∀ j ≤ LineNum.last, 32 ≤ (LineNum.carry start endp buf).1 j := by
  induction endp using Nat.strongRecOn generalizing buf with
  | ind endp ih =>
    have hdigit : buf endp < 57 → 32 ≤ buf endp + 1 := by
      intro hlt
      have hge := h endp hend
      rw [UInt8.le_iff_toNat_le] at hge ⊢
      rw [UInt8.lt_iff_toNat_lt] at hlt
      rw [UInt8.toNat_add]
      simp only [UInt8.reduceToNat] at hge hlt ⊢
      omega
    rw [LineNum.carry_eq]
    split
    case isTrue hlt => exact printable_update h endp (hdigit hlt)
    case isFalse =>
      have hzero := printable_update h endp (show (32 : UInt8) ≤ 48 by decide)
      split
      case isTrue hlt => exact ih (endp - 1) (by omega) (by omega) hzero
      case isFalse => exact hzero

/-- The next line number has no newline in its text either. -/
theorem LineNum.Clean.next (h : n.Clean) : n.next.Clean := by
  have hlast : LineNum.last = 17 := rfl
  have hstart := h.fits.start_le
  have hprint := h.print_le
  have hprintable : ∀ j ≤ LineNum.last, 32 ≤ (LineNum.carry n.start LineNum.last n.buf).1 j :=
    LineNum.carry_printable le_rfl h.printable
  have htab : (LineNum.carry n.start LineNum.last n.buf).1 (LineNum.last + 1) = 9 :=
    (LineNum.carry_of_lt (Nat.lt_succ_self _) n.buf).trans h.tab
  refine ⟨h.fits.next, ?_, ?_, ?_⟩
  · rw [LineNum.next]
    split
    · exact hprint
    · have hle : ∀ k, (if k < n.print then n.print - 1 else n.print) ≤ LineNum.last := by
        intro k
        split <;> omega
      exact hle _
  · rw [LineNum.next]
    split
    case h_1 heq =>
      rw [heq] at hprintable
      exact hprintable
    case h_2 heq =>
      rw [heq] at hprintable
      dsimp only
      split
      · exact printable_update hprintable _ (by decide)
      · exact printable_update hprintable _ (by decide)
  · rw [LineNum.next]
    split
    case h_1 heq =>
      rw [heq] at htab
      exact htab
    case h_2 buf heq =>
      rw [heq] at htab
      have hset : ∀ k ≤ LineNum.last, ∀ c, Function.update buf k c (LineNum.last + 1) = 9 :=
        fun k hk c => (Function.update_of_ne (by omega) _ _).trans htab
      dsimp only
      split
      · exact hset _ (by omega) 49
      · exact hset _ (Nat.zero_le _) 62

/-- The text of a number is one tab, behind no other and no newline. -/
theorem LineNum.Clean.text (h : n.Clean) : ∃ pad, n.text = pad ++ [9] ∧ 9 ∉ pad ∧ 10 ∉ pad := by
  have hlast : LineNum.last = 17 := rfl
  have hprint := h.print_le
  have hnul : n.buf (LineNum.last + 2) = 0 := h.fits.terminated
  have hpad : ∀ c ∈ n.buf.slice n.print (LineNum.last + 1 - n.print), 32 ≤ c := by
    intro c hc
    obtain ⟨j, hj, rfl⟩ := List.mem_map.mp hc
    rw [List.mem_range] at hj
    exact h.printable _ (by omega)
  have hbytes : (n.buf.take LineNum.bufLen).drop n.print =
      n.buf.slice n.print (LineNum.last + 1 - n.print) ++ [9, 0] := by
    have hlen : LineNum.bufLen - n.print = LineNum.last + 1 - n.print + 2 := by
      rw [show LineNum.bufLen = 20 from rfl]
      omega
    have hat : n.print + (LineNum.last + 1 - n.print) = LineNum.last + 1 := by omega
    have hend : n.buf.slice (LineNum.last + 1) 2 = [9, 0] := by
      rw [Buffer.slice_succ, Buffer.slice_succ, Buffer.slice_zero, h.tab, hnul]
    have hle : n.print ≤ LineNum.bufLen := hprint.trans (by decide)
    rw [Buffer.drop_take hle, hlen, Buffer.slice_add, hat, hend]
  refine ⟨n.buf.slice n.print (LineNum.last + 1 - n.print), ?_, ?_, ?_⟩
  · have hshape : (n.buf.take LineNum.bufLen).drop n.print =
        n.buf.slice n.print (LineNum.last + 1 - n.print) ++ [9] ++ [0] := by
      rw [hbytes, List.append_assoc]
      rfl
    have hne : ∀ c ∈ n.buf.slice n.print (LineNum.last + 1 - n.print) ++ [9], c ≠ 0 := by
      intro c hc
      rcases List.mem_append.mp hc with hc | hc
      · rintro rfl
        exact absurd (hpad 0 hc) (by decide)
      · rw [List.mem_singleton.mp hc]
        decide
    rw [LineNum.text, hshape, List.takeWhile_append_of_pos (by simpa using hne)]
    simp
  · exact fun hmem => absurd (hpad 9 hmem) (by decide)
  · exact fun hmem => absurd (hpad 10 hmem) (by decide)

/-! ## The stages -/

/-- The options that set one flag. -/
def only (c : Char) (flag : Bool) : List Char := if flag then [c] else []

section Stages
variable (h : Lined lines rest) (b : Bool)
include h

end Stages

variable {opts : List Char} {k k₁ k₂ k₃ k₄ : ℕ} {files : List File} {f₁ f₂ f₃ : File}
  {out : List UInt8}

end Cat

end Ulsp
