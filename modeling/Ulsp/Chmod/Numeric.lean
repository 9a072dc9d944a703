import Mathlib.Data.List.TakeWhile
import Ulsp.Chmod.Clauses

/-!
# Numeric modes

`main` reads a mode that starts with a digit as an octal number and cuts it down to the eleven bits of
`MODE_BIT` before it tests that it is at most 07777: so no number is too large, and the bit between
the set-id bits and the others, 01000, is not changed. `process_mode` passes the number with the rest
of the file's mode to `chmod`; the old mode that it has reported is without that rest, and so differs
from the new one even when nothing has been changed.
-/

namespace Ulsp

namespace Chmod

/-- The characters of `isdigit`. -/
def digits : List Char := ['0', '1', '2', '3', '4', '5', '6', '7', '8', '9']

/-- The mode that `main` reads from a number. -/
def octalMode (operand : List Char) : Except Stop Mode := do
  let sum ← string2octal 0 operand
  let mode := BitVec.ofNat 32 sum &&& modeBit
  if 0o7777#32 < mode then .error .modeError else pure mode

/-- What is reported of a file. -/
inductive Report
  | changed
  | retained
  | failed
  deriving DecidableEq

/-- `print_info`, when `st_mode` is `new`. -/
def printInfo (cflag vflag : Bool) (old new : Mode) : Option Report :=
  if new ≠ old then (if cflag || vflag then some .changed else none)
  else if vflag then some .retained else none

/-- `process_mode` on a file whose `st_mode` is `st`: the mode it passes to `chmod`, and the report, by
whether `chmod` fails. -/
def processMode (cflag vflag failed : Bool) (mode st : Mode) : Mode × Option Report :=
  let old := st &&& modeBit
  let new := clearModeBit st ||| mode
  (new, if failed then some .failed else printInfo cflag vflag old new)

/-- `process_mode_list` on a file, with the report; that `chmod` fails it does not notice. -/
def processModeListInfo (cflag vflag : Bool) (modeList : List Char) (st : Mode) :
    Except Stop (Mode × Option Report) := do
  let new ← processModeList modeList st
  pure (new, printInfo cflag vflag st new)

/-- `main` on a mode and a file. -/
def changeMode (cflag vflag failed : Bool) (operand : List Char) (st : Mode) :
    Except Stop (Mode × Option Report) :=
  if startsIn digits operand then do
    let mode ← octalMode operand
    pure (processMode cflag vflag failed mode st)
  else processModeListInfo cflag vflag operand st

/-! ## Numbers -/

section
variable {text operand : List Char} {sum v k : ℕ} {m st : Mode} {n : Numeral}

/-- How a number is read: an `int` must hold the value of the digits before anything else, and then
there must be nothing else. -/
theorem string2octal_eq (hsum : sum < 2 ^ 31) : string2octal sum text =
    if 2 ^ 31 ≤ (text.takeWhile (· ∈ octals)).foldl (fun sum c => sum * 8 + (c.toNat - '0'.toNat)) sum
    then .error .undefined
    else if text.all (· ∈ octals) then
      .ok (text.foldl (fun sum c => sum * 8 + (c.toNat - '0'.toNat)) sum)
    else .error .modeError := by
  induction text generalizing sum with
  | nil =>
    rw [List.takeWhile_nil, List.foldl_nil, if_neg (not_le.mpr hsum), if_pos List.all_nil]
    rfl
  | cons c text ih =>
    rw [string2octal]
    simp only [List.all_cons, List.takeWhile_cons]
    by_cases hc : c ∈ octals
    · simp only [hc, decide_true, if_true, List.foldl_cons, Bool.true_and]
      by_cases hlt : sum * 8 + (c.toNat - '0'.toNat) < 2 ^ 31
      · rw [if_pos hlt, ih hlt]
      · rw [if_neg hlt, if_pos (le_trans (not_lt.mp hlt) le_foldl_octal)]
    · simp only [hc, decide_false, Bool.false_eq_true, if_false, List.foldl_nil, Bool.false_and]
      rw [if_neg (not_le.mpr hsum)]

/-! ## The bits of a number -/

/-- `MODE_BIT` has the bits below 12 but for bit 9. -/
theorem modeBit_getLsbD (hk : k < 32) : modeBit.getLsbD k = decide (k < 12 ∧ k ≠ 9) := by
  have hbits : ∀ k < 32, modeBit.getLsbD k = decide (k < 12 ∧ k ≠ 9) := by decide
  exact hbits k hk

/-- 07777 has the bits below 12. -/
theorem low_getLsbD (hk : k < 32) : (0o7777#32).getLsbD k = decide (k < 12) := by
  have hbits : ∀ k < 32, (0o7777#32).getLsbD k = decide (k < 12) := by decide
  exact hbits k hk

/-- A number is never too large when it has been cut down. -/
theorem not_lt_and_modeBit : ¬ 0o7777#32 < m &&& modeBit := by
  rw [BitVec.lt_def, BitVec.toNat_and, not_lt]
  exact le_trans Nat.and_le_right (by decide)

/-- A numeric mode is cut down to `MODE_BIT`. -/
theorem octalMode_eq : octalMode operand =
    (string2octal 0 operand).map fun sum => BitVec.ofNat 32 sum &&& modeBit := by
  rw [octalMode]
  cases string2octal 0 operand with
  | error e => rfl
  | ok sum => exact if_neg not_lt_and_modeBit

/-- The bits of a mode that is put together of two. -/
theorem parts_getLsbD (hk : k < 32) : (clearModeBit st ||| m &&& modeBit).getLsbD k =
    if modeBit.getLsbD k then m.getLsbD k else st.getLsbD k := by
  rw [BitVec.getLsbD_or, clearModeBit, BitVec.getLsbD_and, BitVec.getLsbD_and, BitVec.getLsbD_not,
    decide_eq_true hk, Bool.true_and]
  cases modeBit.getLsbD k <;> simp

/-- The new mode has the bits of `MODE_BIT` from the operand and the others from the file. -/
theorem processMode_getLsbD (hk : k < 32) : (clearModeBit st ||| m &&& modeBit).getLsbD k =
    if k < 12 ∧ k ≠ 9 then m.getLsbD k else st.getLsbD k := by
  rw [parts_getLsbD hk, modeBit_getLsbD hk]
  simp only [decide_eq_true_eq]

/-- The low bits are the number if the file has the bit that is cut off as the number has it. -/
theorem low_eq_iff (hv : v ≤ 0o7777) :
    (clearModeBit st ||| BitVec.ofNat 32 v &&& modeBit) &&& 0o7777#32 = BitVec.ofNat 32 v ↔
      st.getLsbD 9 = v.testBit 9 := by
  have hnine : (BitVec.ofNat 32 v).getLsbD 9 = v.testBit 9 := by
    rw [BitVec.getLsbD_ofNat]
    rfl
  have hhigh : ∀ k, ¬ k < 12 → (BitVec.ofNat 32 v).getLsbD k = false := by
    intro k hk
    have hlt : v < 2 ^ k := lt_of_lt_of_le (by omega : v < 2 ^ 12)
      (Nat.pow_le_pow_right (by decide) (not_lt.mp hk))
    rw [BitVec.getLsbD_ofNat, Nat.testBit_lt_two_pow hlt, Bool.and_false]
  rw [← hnine]
  constructor
  · intro h
    have hbit := congrArg (BitVec.getLsbD · 9) h
    simp only [BitVec.getLsbD_and, processMode_getLsbD (show 9 < 32 by decide)] at hbit
    rw [← hbit, low_getLsbD (by decide)]
    simp
  · intro h
    refine BitVec.eq_of_getLsbD_eq fun k hk => ?_
    rw [BitVec.getLsbD_and, processMode_getLsbD hk, low_getLsbD hk]
    by_cases hlow : k < 12
    · rw [decide_eq_true hlow, Bool.and_true]
      split
      · rfl
      · rename_i hbit
        obtain rfl : k = 9 := by omega
        exact h
    · rw [decide_eq_false hlow, Bool.and_false, hhigh k hlow]

/-- The others are the file's. -/
theorem high_eq : (clearModeBit st ||| m &&& modeBit) &&& ~~~0o7777#32 = st &&& ~~~0o7777#32 := by
  refine BitVec.eq_of_getLsbD_eq fun k hk => ?_
  rw [BitVec.getLsbD_and, BitVec.getLsbD_and, BitVec.getLsbD_not, processMode_getLsbD hk,
    low_getLsbD hk, decide_eq_true hk, Bool.true_and]
  by_cases hlow : k < 12
  · rw [decide_eq_true hlow, Bool.not_true, Bool.and_false, Bool.and_false]
  · rw [if_neg fun h => hlow h.1]

/-- An operand that starts with a digit is read as a number. -/
theorem changeMode_digit {cflag vflag failed : Bool} (hdigit : startsIn digits operand) :
    changeMode cflag vflag failed operand st = (string2octal 0 operand).map fun sum =>
      processMode cflag vflag failed (BitVec.ofNat 32 sum &&& modeBit) st := by
  rw [changeMode, if_pos hdigit, octalMode_eq]
  cases string2octal 0 operand <;> rfl

end

/-! ## Which numbers are exact -/

/-- An octal number of at most 07777. -/
def IsMode (operand : List Char) : Prop :=
  (∀ c ∈ operand, c ∈ octals) ∧ octalValue operand ≤ 0o7777

/-- A number is accepted exactly when it is a mode, and then it becomes the low bits of the file's,
which keeps the others. -/
structure Exact (operand : List Char) (st : Mode) (r : Except Stop (Mode × Option Report)) : Prop where
  accepts : IsMode operand → ∃ m report, r = .ok (m, report) ∧
    m &&& 0o7777#32 = BitVec.ofNat 32 (octalValue operand) ∧
    m &&& ~~~0o7777#32 = st &&& ~~~0o7777#32
  rejects : ¬ IsMode operand → r = .error .modeError

section
variable {cflag vflag failed : Bool} {operand : List Char} {st : Mode}

/-- An operand that starts with a digit is read up to the first character that is no digit, and is an
error if there is one. -/
theorem changeMode_eq (hdigit : startsIn digits operand) : changeMode cflag vflag failed operand st =
    Except.map (fun sum => processMode cflag vflag failed (BitVec.ofNat 32 sum &&& modeBit) st)
      (if 2 ^ 31 ≤ octalValue (operand.takeWhile (· ∈ octals)) then .error .undefined
      else if operand.all (· ∈ octals) then .ok (octalValue operand)
      else .error .modeError) := by
  rw [changeMode_digit hdigit, string2octal_eq (by decide)]
  rfl

/-- An octal operand. -/
theorem exact_octal (hdigit : startsIn digits operand) (hall : ∀ c ∈ operand, c ∈ octals) :
    Exact operand st (changeMode cflag vflag failed operand st) ↔
      IsMode operand ∧ st.getLsbD 9 = (octalValue operand).testBit 9 := by
  have hself : operand.takeWhile (· ∈ octals) = operand :=
    List.takeWhile_eq_self_iff.mpr fun c hc => decide_eq_true (hall c hc)
  have hif : operand.all (· ∈ octals) = true :=
    List.all_eq_true.mpr fun c hc => decide_eq_true (hall c hc)
  rw [changeMode_eq hdigit, hself, if_pos hif]
  by_cases hmode : IsMode operand
  · have hlt : ¬ 2 ^ 31 ≤ octalValue operand := not_le.mpr (lt_of_le_of_lt hmode.2 (by decide))
    rw [if_neg hlt, and_iff_right hmode, ← low_eq_iff hmode.2]
    constructor
    · intro h
      obtain ⟨m, report, hrun, hlow, -⟩ := h.accepts hmode
      obtain ⟨rfl, -⟩ := Prod.mk.inj (Except.ok.inj hrun)
      exact hlow
    · intro hlow
      exact ⟨fun _ => ⟨_, _, rfl, hlow, high_eq⟩, fun h => absurd hmode h⟩
  · refine iff_of_false (fun h => ?_) fun h => hmode h.1
    have hrun := h.rejects hmode
    split at hrun <;> cases hrun

/-- An operand that is not octal. -/
theorem exact_other (hdigit : startsIn digits operand) (hall : ¬ ∀ c ∈ operand, c ∈ octals) :
    Exact operand st (changeMode cflag vflag failed operand st) ↔
      octalValue (operand.takeWhile (· ∈ octals)) < 2 ^ 31 := by
  have hmode : ¬ IsMode operand := fun h => hall h.1
  have hif : ¬ operand.all (· ∈ octals) = true := fun h =>
    hall fun c hc => of_decide_eq_true (List.all_eq_true.mp h c hc)
  rw [changeMode_eq hdigit, if_neg hif, ← not_le]
  constructor
  · intro h hle
    have hrun := h.rejects hmode
    rw [if_pos hle] at hrun
    cases hrun
  · intro hle
    rw [if_neg hle]
    exact ⟨fun h => absurd h hmode, fun _ => rfl⟩

end

/-- An operand is treated so exactly when it is a mode that has the bit 01000 as the file has it, or it
is not octal and an `int` holds its digits up to there. -/
theorem numeric_exact_iff (cflag vflag failed : Bool) (operand : List Char) (st : Mode)
    (hdigit : startsIn digits operand) :
    Exact operand st (changeMode cflag vflag failed operand st) ↔
      (IsMode operand ∧ st.getLsbD 9 = (octalValue operand).testBit 9) ∨
        ((∃ c ∈ operand, c ∉ octals) ∧ octalValue (operand.takeWhile (· ∈ octals)) < 2 ^ 31) := by
  by_cases hall : ∀ c ∈ operand, c ∈ octals
  · have hnone : ¬ ∃ c ∈ operand, c ∉ octals := by simpa using hall
    rw [exact_octal hdigit hall, or_iff_left fun h => hnone h.1]
  · have hother : ∃ c ∈ operand, c ∉ octals := by simpa using hall
    rw [exact_other hdigit hall, and_iff_right hother, or_iff_right fun h => hall h.1.1]

/-- `chmod 644` of a regular file of mode 0600. -/
theorem numeric_exact_644 : Exact ['6', '4', '4'] 0o100600#32
    (changeMode false false false ['6', '4', '4'] 0o100600#32) :=
  (numeric_exact_iff false false false _ _ rfl).mpr (.inl ⟨⟨by simp [octals], by decide⟩, by decide⟩)

/-- `1777` does not set the bit 01000. -/
theorem sticky_lost : ¬ Exact ['1', '7', '7', '7'] 0o40755#32
    (changeMode false false false ['1', '7', '7', '7'] 0o40755#32) := by
  have hrun : changeMode false false false ['1', '7', '7', '7'] 0o40755#32 =
      .ok (0o40777#32, none) := by decide
  intro h
  obtain ⟨m, report, hm, hlow, -⟩ := h.accepts ⟨by simp [octals], by decide⟩
  obtain ⟨rfl, -⟩ := Prod.mk.inj (Except.ok.inj (hrun.symm.trans hm))
  exact absurd hlow (by decide)

/-! ## Numbers and lists -/

section
variable {cflag vflag failed : Bool} {n : Numeral} {m m' old old' new st : Mode}

/-- What `MODE_BIT` does not cover is the file's. -/
theorem clearModeBit_parts : clearModeBit (clearModeBit st ||| m &&& modeBit) = clearModeBit st := by
  refine BitVec.eq_of_getLsbD_eq fun k hk => ?_
  rw [clearModeBit, BitVec.getLsbD_and, parts_getLsbD hk, clearModeBit, BitVec.getLsbD_and,
    BitVec.getLsbD_not]
  cases modeBit.getLsbD k <;> simp

/-- What `MODE_BIT` covers is the operand's. -/
theorem modeBit_parts : (clearModeBit st ||| m &&& modeBit) &&& modeBit = m &&& modeBit := by
  refine BitVec.eq_of_getLsbD_eq fun k hk => ?_
  rw [BitVec.getLsbD_and, parts_getLsbD hk, BitVec.getLsbD_and]
  cases modeBit.getLsbD k <;> simp

/-- A mode in two parts. -/
theorem mode_parts : clearModeBit st ||| st &&& modeBit = st :=
  BitVec.eq_of_getLsbD_eq fun _ hk => (parts_getLsbD hk).trans (ite_self _)

/-- A mode is put together from these two parts. -/
theorem parts_eq_iff : clearModeBit st ||| m &&& modeBit = m' ↔
    clearModeBit st = clearModeBit m' ∧ m &&& modeBit = m' &&& modeBit := by
  constructor
  · rintro rfl
    exact ⟨clearModeBit_parts.symm, modeBit_parts.symm⟩
  · rintro ⟨hclear, hbits⟩
    rw [hclear, hbits, mode_parts]

/-- The two parts have no bit in common. -/
theorem clearModeBit_and_modeBit : clearModeBit (st &&& modeBit) = 0 := by
  have hzero : clearModeBit 0#32 = 0#32 := by decide
  have hparts : clearModeBit (clearModeBit 0#32 ||| st &&& modeBit) = clearModeBit 0#32 :=
    clearModeBit_parts
  rwa [hzero, BitVec.zero_or] at hparts

/-- The three groups of a mode put back into another one are the part that `MODE_BIT` covers. -/
theorem withBits_mode : withBits st (has m) = clearModeBit st ||| m &&& modeBit := by
  have hpos : ∀ i j, pos i j < 32 → pos i j < 12 ∧ pos i j ≠ 9 := by decide
  refine mode_ext (fun i j => ?_) (by rw [clearModeBit_withBits, clearModeBit_parts])
  rcases Nat.lt_or_ge (pos i j) 32 with hlt | hge
  · rw [has_withBits hlt, has_eq, has_eq, processMode_getLsbD hlt, if_pos (hpos i j hlt)]
  · rw [has_eq, has_eq, BitVec.getLsbD_of_ge _ _ hge, BitVec.getLsbD_of_ge _ _ hge]

/-- What the list of `=` and a number makes of a mode. -/
theorem processModeList_numeral : processModeList ('=' :: n.digits.map digitChar) st =
    .ok (clearModeBit st ||| n.mode &&& modeBit) := by
  have hone : [','].intercalate ['=' :: n.digits.map digitChar] = _ := List.intercalate_singleton
  rw [← hone, ← withBits_mode]
  refine processModeList_eq (h := fun i j x => Op.assign.apply (has n.mode i j) x)
    (List.cons_ne_nil _ _) ?_ fun bits => ?_
  · intro t ht
    rw [List.mem_singleton.mp ht]
    exact comma_not_mem_text (.octal .assign n)
  · obtain ⟨bits', hmode, hbits⟩ := applyMode_octal bits .assign n
    refine ⟨bits', ?_, hbits⟩
    rw [List.foldlM_cons]
    change applyMode bits (Op.assign.char :: _) >>= _ = _
    rw [hmode]
    rfl

/-- A numeral is read as its mode. -/
theorem octalMode_numeral : octalMode (n.digits.map digitChar) = .ok (n.mode &&& modeBit) := by
  rw [octalMode_eq, string2octal_digits (lt_of_le_of_lt n.value_le (by decide))]
  rfl

/-- A change is reported if there is one and a flag asks for it. -/
theorem printInfo_eq_changed :
    printInfo cflag vflag old new = some .changed ↔ new ≠ old ∧ (cflag ∨ vflag) := by
  unfold printInfo
  by_cases hnew : new = old
  · cases vflag <;> simp [hnew]
  · cases cflag <;> cases vflag <;> simp [hnew]

/-- A mode that could be changed is not reported as a failure. -/
theorem printInfo_ne_failed : printInfo cflag vflag old new ≠ some .failed := by
  unfold printInfo
  by_cases hnew : new = old
  · cases vflag <;> simp [hnew]
  · cases cflag <;> cases vflag <;> simp [hnew]

/-- The reports on two pairs of modes are of one kind if the pairs are both of one mode or both not, or
no flag is set. -/
theorem printInfo_eq_iff : printInfo cflag vflag old new = printInfo cflag vflag old' new ↔
    ¬ (cflag ∨ vflag) ∨ (new = old ↔ new = old') := by
  unfold printInfo
  by_cases hnew : new = old <;> by_cases hnew' : new = old' <;>
    cases cflag <;> cases vflag <;> simp [hnew, hnew']

/-- A number and the list of `=` and the number do the same with a file: the same mode is passed to
`chmod` and the same is reported, a change if the mode is a new one and a flag asks for it. -/
def Agree (cflag vflag failed : Bool) (n : Numeral) (st : Mode) : Prop :=
  ∃ m report,
    changeMode cflag vflag failed (n.digits.map digitChar) st = .ok (m, report) ∧
    changeMode cflag vflag failed ('=' :: n.digits.map digitChar) st = .ok (m, report) ∧
    (report = some .changed ↔ m ≠ st ∧ (cflag ∨ vflag))

/-- A numeral is passed to `process_mode`. -/
theorem changeMode_number : changeMode cflag vflag failed (n.digits.map digitChar) st =
    .ok (processMode cflag vflag failed (n.mode &&& modeBit) st) := by
  have hdigit : startsIn digits (n.digits.map digitChar) := by
    have hchar : ∀ d, digitChar d ∈ digits := by decide
    obtain ⟨d, ds, hds⟩ := List.exists_cons_of_ne_nil n.digits_ne
    rw [hds, List.map_cons, startsIn_cons, decide_eq_true (hchar d)]
  rw [changeMode, if_pos hdigit, octalMode_numeral]
  rfl

/-- A numeral behind `=` sets the bits that `MODE_BIT` covers. -/
theorem changeMode_assign : changeMode cflag vflag failed ('=' :: n.digits.map digitChar) st =
    .ok (clearModeBit st ||| n.mode &&& modeBit,
      printInfo cflag vflag st (clearModeBit st ||| n.mode &&& modeBit)) := by
  rw [changeMode, if_neg (by rw [startsIn_cons]; decide), processModeListInfo, processModeList_numeral]
  rfl

/-- They do so if the reports are the same, for the modes are. -/
theorem agree_iff_report : Agree cflag vflag failed n st ↔
    (if failed then some .failed
      else printInfo cflag vflag (st &&& modeBit) (clearModeBit st ||| n.mode &&& modeBit)) =
      printInfo cflag vflag st (clearModeBit st ||| n.mode &&& modeBit) := by
  rw [Agree, changeMode_number, changeMode_assign]
  constructor
  · rintro ⟨m, report, hnumber, hlist, -⟩
    exact (Prod.mk.inj (Except.ok.inj (hnumber.trans hlist.symm))).2
  · intro h
    exact ⟨_, _, congrArg (fun r => Except.ok (_, r)) h, rfl, printInfo_eq_changed⟩

/-- They do so exactly when `chmod` succeeds, and no flag is set, or the file does not have the bits of
the number already, or has no others. -/
theorem agree_iff (cflag vflag failed : Bool) (n : Numeral) (st : Mode) :
    Agree cflag vflag failed n st ↔ failed = false ∧
      (¬ (cflag ∨ vflag) ∨ n.mode &&& modeBit ≠ st &&& modeBit ∨ clearModeBit st = 0) := by
  have hnew : clearModeBit st ||| n.mode &&& modeBit = st ↔ n.mode &&& modeBit = st &&& modeBit :=
    parts_eq_iff.trans (and_iff_right rfl)
  have hold : clearModeBit st ||| n.mode &&& modeBit = st &&& modeBit ↔
      clearModeBit st = 0 ∧ n.mode &&& modeBit = st &&& modeBit := by
    rw [parts_eq_iff, clearModeBit_and_modeBit, BitVec.and_assoc, BitVec.and_self]
  rw [agree_iff_report]
  cases failed with
  | true => exact iff_of_false (fun h => printInfo_ne_failed h.symm) fun h => Bool.noConfusion h.1
  | false =>
    rw [if_neg Bool.false_ne_true, printInfo_eq_iff, hold, hnew, and_iff_right rfl]
    refine or_congr_right ?_
    by_cases hsame : n.mode &&& modeBit = st &&& modeBit <;> simp [hsame]

/-- With `-v` a number reports a change of a file that has the mode already. -/
theorem retained_reported_changed : changeMode false true false ['6', '4', '4'] 0o100644#32 =
      .ok (0o100644#32, some .changed) ∧
    changeMode false true false ['=', '6', '4', '4'] 0o100644#32 =
      .ok (0o100644#32, some .retained) := by decide

end

end Chmod

end Ulsp
