import Ulsp.Cat.Cat

/-!
# What `cat` computes

`reference` is the transform of `cat` by lines: empty lines after an empty one go with `-s`, the lines
left are numbered, and their bytes and ends are written as the flags say. `trans` is the same by
bytes, with a mode that is all that has to be remembered from one byte to the next; the code follows
it whatever the buffers are.
-/

namespace Ulsp

open Lib

namespace Cat

/-! ## By lines -/

/-- A byte in the output. -/
def copy (f : Flags) (c : UInt8) : List UInt8 := if c = 9 ∧ f.Tflag then [94, 73] else [c]

/-- The end of a line in the output. -/
def ending (f : Flags) : List UInt8 := (if f.Eflag then [36] else []) ++ [10]

/-- The lines but those that are empty and follow an empty one; `blank` says whether the line before
was empty. -/
def squeeze (blank : Bool) : List (List UInt8) → List (List UInt8)
  | [] => []
  | l :: ls => if blank && l.isEmpty then squeeze blank ls else l :: squeeze l.isEmpty ls

/-- Whether a line has a number. -/
def numbered (f : Flags) (l : List UInt8) : Bool := f.nflag && !(f.bflag && l.isEmpty)

/-- A line's number, if it has one, and the numbers after it. -/
def numberOf (f : Flags) (n : LineNum) (l : List UInt8) : List UInt8 × LineNum :=
  if numbered f l then (n.next.text, n.next) else ([], n)

/-- The lines in the output, and the numbers after them. -/
def render (f : Flags) : LineNum → List (List UInt8) → List UInt8 × LineNum
  | n, [] => ([], n)
  | n, l :: ls =>
    let (number, n) := numberOf f n l
    let (out, n) := render f n ls
    (number ++ l.flatMap (copy f) ++ ending f ++ out, n)

/-- The transform of what comes at the beginning of a line: the lines that end in a newline, and what
follows the last newline, which is a line when it is not empty. -/
def referenceFrom (f : Flags) (blank : Bool) (n : LineNum) (input : List UInt8) : List UInt8 :=
  let lines := (input.splitOn 10).dropLast
  let rest := (input.splitOn 10).getLastD []
  let (out, n) := render f n (if f.sflag then squeeze blank lines else lines)
  out ++ if rest = [] then [] else (numberOf f n rest).1 ++ rest.flatMap (copy f)

/-- The transform. -/
def reference (f : Flags) (input : List UInt8) : List UInt8 := referenceFrom f false .init input

/-! ## By bytes -/

/-- What a newline does: `newlines` is -1 in a line, and at the beginning of one it is 0 when the line
before was not empty, 1 when it was, and 2 when the one before that was, too. -/
def emitNewline (f : Flags) (newlines : ℤ) (n : LineNum) : List UInt8 × ℤ × LineNum :=
  if 0 < newlines + 1 then
    if 2 ≤ newlines + 1 ∧ f.sflag then ([], 2, n)
    else
      let newlines := if 2 ≤ newlines + 1 then 2 else newlines + 1
      if f.nflag && !f.bflag then (n.next.text ++ ending f, newlines, n.next)
      else (ending f, newlines, n)
  else (ending f, newlines + 1, n)

/-- What a byte does. -/
def emit (f : Flags) (newlines : ℤ) (n : LineNum) (c : UInt8) : List UInt8 × ℤ × LineNum :=
  if c = 10 then emitNewline f newlines n
  else if 0 ≤ newlines ∧ f.nflag then (n.next.text ++ copy f c, -1, n.next)
  else (copy f c, -1, n)

/-- What a sequence of bytes does. -/
def trans (f : Flags) (newlines : ℤ) (n : LineNum) : List UInt8 → List UInt8 × ℤ × LineNum
  | [] => ([], newlines, n)
  | c :: cs =>
    let (out, newlines, n) := emit f newlines n c
    let (out', newlines, n) := trans f newlines n cs
    (out ++ out', newlines, n)

variable {f : Flags} {newlines : ℤ} {n : LineNum} {c : UInt8} {l cs ds : List UInt8}

theorem trans_cons : trans f newlines n (c :: cs) =
    ((emit f newlines n c).1 ++ (trans f (emit f newlines n c).2.1 (emit f newlines n c).2.2 cs).1,
      (trans f (emit f newlines n c).2.1 (emit f newlines n c).2.2 cs).2) := rfl

/-- Bytes after others. -/
theorem trans_append : trans f newlines n (cs ++ ds) =
    ((trans f newlines n cs).1 ++
      (trans f (trans f newlines n cs).2.1 (trans f newlines n cs).2.2 ds).1,
      (trans f (trans f newlines n cs).2.1 (trans f newlines n cs).2.2 ds).2) := by
  induction cs generalizing newlines n with
  | nil => rfl
  | cons c cs ih =>
    rw [List.cons_append, trans_cons, ih, trans_cons]
    simp only [List.append_assoc]

/-- The bytes of a line, after its first. -/
theorem trans_body (hl : 10 ∉ l) : trans f (-1) n l = (l.flatMap (copy f), -1, n) := by
  induction l with
  | nil => rfl
  | cons c l ih =>
    obtain ⟨hc, hl⟩ : 10 ≠ c ∧ 10 ∉ l := by simpa using hl
    have hemit : emit f (-1) n c = (copy f c, -1, n) := by simp [emit, Ne.symm hc]
    rw [trans_cons, hemit, ih hl, List.flatMap_cons]

/-- The bytes of a line that is not empty. -/
theorem trans_line (hnew : 0 ≤ newlines) (hl : 10 ∉ l) (hne : l ≠ []) :
    trans f newlines n l =
      ((numberOf f n l).1 ++ l.flatMap (copy f), -1, (numberOf f n l).2) := by
  obtain ⟨c, l, rfl⟩ := List.exists_cons_of_ne_nil hne
  obtain ⟨hc, hl⟩ : 10 ≠ c ∧ 10 ∉ l := by simpa using hl
  cases hn : f.nflag with
  | false =>
    have hemit : emit f newlines n c = (copy f c, -1, n) := by simp [emit, Ne.symm hc, hn]
    rw [trans_cons, hemit, trans_body hl]
    simp [numberOf, numbered, hn]
  | true =>
    have hemit : emit f newlines n c = (n.next.text ++ copy f c, -1, n.next) := by
      simp [emit, Ne.symm hc, hn, hnew]
    rw [trans_cons, hemit, trans_body hl]
    simp [numberOf, numbered, hn]

/-! ## Lines and bytes -/

/-- A last line without a newline. -/
theorem referenceFrom_rest (blank : Bool) (hl : 10 ∉ l) : referenceFrom f blank n l =
    if l = [] then [] else (numberOf f n l).1 ++ l.flatMap (copy f) := by
  simp [referenceFrom, List.splitOn_eq_singleton hl, squeeze, render]

/-- A line with a newline. -/
theorem referenceFrom_line (blank : Bool) (hl : 10 ∉ l) :
    referenceFrom f blank n (l ++ 10 :: cs) =
      if f.sflag && blank && l.isEmpty then referenceFrom f blank n cs
      else (numberOf f n l).1 ++ l.flatMap (copy f) ++ ending f ++
        referenceFrom f l.isEmpty (numberOf f n l).2 cs := by
  have hne : cs.splitOn (10 : UInt8) ≠ [] := List.splitOn_ne_nil 10 cs
  have hlast : (l :: cs.splitOn 10).getLastD [] = (cs.splitOn 10).getLastD [] := by
    simp [List.getLastD_eq_getLast?, List.getLast?_cons_of_ne_nil hne]
  simp only [referenceFrom, List.splitOn_append_cons_self_of_not_mem hl,
    List.dropLast_cons_of_ne_nil hne, hlast]
  cases hs : f.sflag with
  | false => simp [render]
  | true =>
    cases hb : blank && l.isEmpty with
    | true => simp [squeeze, hb]
    | false => simp [squeeze, hb, render]

/-- The newline of an empty line. -/
theorem emitNewline_empty (hnew : 0 ≤ newlines) : emitNewline f newlines n =
    if f.sflag && decide (1 ≤ newlines) then ([], 2, n)
    else ((numberOf f n []).1 ++ ending f, if 1 ≤ newlines then 2 else 1, (numberOf f n []).2) := by
  have hnumber : numberOf f n [] =
      if f.nflag && !f.bflag then (n.next.text, n.next) else ([], n) := by
    simp [numberOf, numbered]
  have hpos : 0 < newlines + 1 := by omega
  have htwo : 2 ≤ newlines + 1 ↔ 1 ≤ newlines := by omega
  simp only [emitNewline, if_pos hpos, htwo, hnumber]
  rcases Decidable.em (1 ≤ newlines) with h | h
  · cases f.sflag <;> cases f.nflag && !f.bflag <;> simp [h]
  · obtain rfl : newlines = 0 := by omega
    cases f.nflag && !f.bflag <;> simp

/-- The newline of a line that is not empty. -/
theorem emitNewline_line : emitNewline f (-1) n = (ending f, 0, n) := rfl

/-- A line with its newline is left out, or it is written, and `newlines` says whether it was
empty. -/
theorem trans_newline (hnew : 0 ≤ newlines) (hl : 10 ∉ l) :
    ∃ newlines', 0 ≤ newlines' ∧ decide (1 ≤ newlines') = l.isEmpty ∧
      trans f newlines n (l ++ [10]) =
        if f.sflag && decide (1 ≤ newlines) && l.isEmpty then ([], newlines', n)
        else ((numberOf f n l).1 ++ l.flatMap (copy f) ++ ending f, newlines', (numberOf f n l).2) := by
  cases l with
  | nil =>
    have hemit : trans f newlines n [10] = emitNewline f newlines n := by
      simp [trans, emit]
    rw [List.nil_append, hemit, emitNewline_empty hnew]
    cases hb : f.sflag && decide (1 ≤ newlines) with
    | true => exact ⟨2, by simp, rfl, by simp⟩
    | false =>
      refine ⟨if 1 ≤ newlines then 2 else 1, by split <;> simp, ?_, by simp⟩
      split <;> rfl
  | cons c l =>
    refine ⟨0, Int.le_refl 0, rfl, ?_⟩
    rw [trans_append, trans_line hnew hl (List.cons_ne_nil c l), trans_cons]
    simp [emit, emitNewline_line, trans]

/-- From the beginning of a line, the bytes give the transform of the lines. -/
theorem trans_eq_reference (input : List UInt8) (hnew : 0 ≤ newlines) :
    (trans f newlines n input).1 = referenceFrom f (decide (1 ≤ newlines)) n input := by
  induction hk : input.length using Nat.strongRecOn generalizing input newlines n with
  | ind k ih =>
    rcases Decidable.em (10 ∈ input) with hmem | hmem
    · obtain ⟨l, cs, rfl, hl⟩ := List.eq_append_cons_of_mem hmem
      obtain ⟨newlines', hnew', hblank, hline⟩ := trans_newline (f := f) (n := n) hnew hl
      have hlt : cs.length < k := by simp [← hk]; omega
      rw [referenceFrom_line _ hl, List.append_cons, trans_append, hline]
      cases hskip : f.sflag && decide (1 ≤ newlines) && l.isEmpty with
      | true =>
        obtain ⟨⟨-, hb⟩, he⟩ : (f.sflag = true ∧ decide (1 ≤ newlines) = true) ∧ l.isEmpty = true := by
          simpa using hskip
        simp only [if_true, List.nil_append, ih _ hlt cs hnew' rfl, hblank, he, hb]
      | false =>
        simp only [Bool.false_eq_true, if_false, ih _ hlt cs hnew' rfl, hblank]
    · rw [referenceFrom_rest _ hmem]
      split
      · rename_i h
        rw [h, trans]
      · rename_i h
        rw [trans_line hnew hmem h]

end Cat

end Ulsp
