import Mathlib.Algebra.Order.Ring.Int
import Mathlib.Data.Fin.VecNotation
import Mathlib.Data.List.FinRange
import Mathlib.Data.Nat.Notation

/-!
# `chmod` with symbolic modes (`cmd/src/chmod.c`)

`process_mode_list` takes the permissions of a file apart into three groups of four bits, one for
each class `u`, `g` and `o`: read, write, execute and a fourth, which is the set-user-ID bit for `u`,
the set-group-ID bit for `g` and nothing for `o`. Each mode of the list changes the groups, and at
the end they are put back together.

A string is its list of characters, and where a text ends the code reads the comma or the null
character that follows, which is no digit, class or permission. `mode_error` does not return; an
`int` that overflows makes the program undefined.
-/

namespace Ulsp

namespace Chmod

/-- How a run ends that does not come to the `chmod` call. -/
inductive Stop
  | modeError
  | undefined
  deriving DecidableEq

/-- `mode_t`, and the `int`s that hold permission bits. -/
abbrev Mode := BitVec 32

/-- Set-user-ID. -/
def S_ISUID : Mode := 0o4000#32
/-- Set-group-ID. -/
def S_ISGID : Mode := 0o2000#32
/-- The owner may read. -/
def S_IRUSR : Mode := 0o400#32
/-- The owner may write. -/
def S_IWUSR : Mode := 0o200#32
/-- The owner may execute. -/
def S_IXUSR : Mode := 0o100#32
/-- The group may read. -/
def S_IRGRP : Mode := 0o40#32
/-- The group may write. -/
def S_IWGRP : Mode := 0o20#32
/-- The group may execute. -/
def S_IXGRP : Mode := 0o10#32
/-- Others may read. -/
def S_IROTH : Mode := 0o4#32
/-- Others may write. -/
def S_IWOTH : Mode := 0o2#32
/-- Others may execute. -/
def S_IXOTH : Mode := 0o1#32

/-- The letters of the classes. -/
def who : Fin 3 → Char := !['u', 'g', 'o']

/-- The letters of the permissions. -/
def mc : Fin 4 → Char := !['r', 'w', 'x', 's']

/-- The bit of `st_mode` for each class and permission; the initialiser leaves the last one zero. -/
def modes : Fin 3 → Fin 4 → Mode :=
  ![![S_IRUSR, S_IWUSR, S_IXUSR, S_ISUID], ![S_IRGRP, S_IWGRP, S_IXGRP, S_ISGID],
    ![S_IROTH, S_IWOTH, S_IXOTH, 0]]

/-- `MODE_BIT`. -/
def modeBit : Mode := S_IRUSR ||| S_IWUSR ||| S_IXUSR ||| S_IRGRP ||| S_IWGRP ||| S_IXGRP |||
  S_IROTH ||| S_IWOTH ||| S_IXOTH ||| S_ISUID ||| S_ISGID

/-- `CLEAR_MODE_BIT`. -/
def clearModeBit (m : Mode) : Mode := m &&& ~~~modeBit

/-- The characters of `ISOCTAL`. -/
def octals : List Char := ['0', '1', '2', '3', '4', '5', '6', '7']

/-- The characters of `ISRWX`. -/
def perms : List Char := ['r', 'w', 'x', 's']

/-- The characters of `ISOP`. -/
def ops : List Char := ['+', '-', '=']

/-- `get_idx`. -/
def getIdx {n : ℕ} (ar : Fin n → Char) (c : Char) : Option (Fin n) :=
  (List.finRange n).find? fun i => ar i = c

/-- Whether the first character of a text is one of `cs`. -/
def startsIn (cs text : List Char) : Bool := text.head?.any (· ∈ cs)

/-- `string2octal`, from the sum so far. -/
def string2octal (sum : ℕ) : List Char → Except Stop ℕ
  | [] => .ok sum
  | c :: str =>
    if c ∈ octals then
      let sum := sum * 8 + (c.toNat - '0'.toNat)
      if sum < 2 ^ 31 then string2octal sum str else .error .undefined
    else .error .modeError

/-! ## The groups of bits -/

/-- `old_bits`. -/
abbrev Bits := Fin 3 → Mode

/-- For each bit of class `i` that `m` has, a bit is set in `b`. -/
def setBits (m : Mode) (i : Fin 3) (b : Mode) : Mode :=
  (List.finRange 4).foldl
    (fun b j => if m &&& modes i j = 0 then b else b ||| BitVec.twoPow 32 j) b

/-- For each bit of class `i` that `m` has, a bit is cleared in `b`. -/
def dropBits (m : Mode) (i : Fin 3) (b : Mode) : Mode :=
  (List.finRange 4).foldl
    (fun b j => if m &&& modes i j = 0 then b else b &&& ~~~BitVec.twoPow 32 j) b

/-- What the operator of an octal mode does with the bits of class `i`. -/
def octalOp (op : Char) (m : Mode) (i : Fin 3) (b : Mode) : Mode :=
  if op = '+' then setBits m i b else if op = '-' then dropBits m i b else setBits m i 0

/-- The bits of the groups, set in `st_mode`. -/
def putBits (bits : Bits) (st : Mode) : Mode :=
  (List.finRange 3).foldl (fun st i => (List.finRange 4).foldl
    (fun st (j : Fin 4) => if bits i &&& BitVec.twoPow 32 j = 0 then st else st ||| modes i j) st) st

/-! ## A mode -/

/-- The text of a mode before its last operator, the operator, and the text after it. -/
def lastOp : List Char → Option (List Char × Char × List Char)
  | [] => none
  | c :: text =>
    match lastOp text with
    | some (before, op, after) => some (c :: before, op, after)
    | none => if c ∈ ops then some ([], c, text) else none

/-- `flags`, by the text before the operator. -/
def flags (before : List Char) (i : Fin 3) : Bool :=
  before.contains (who i) || (before.contains 'a' || before.isEmpty)

/-- The inner loop: the permissions up to the next operator, and the text from there. -/
def readPerms (m : Mode) : List Char → Except Stop (Mode × List Char)
  | [] => .ok (m, [])
  | c :: text =>
    if c ∈ ops then .ok (m, c :: text)
    else
      match getIdx mc c with
      | none => .error .modeError
      | some j => readPerms (m ||| BitVec.twoPow 32 j) text

/-- What a pass of the outer loop reads after the character at `op2`: the bits `m`, and the text from
where the next pass starts. The text `after` is what follows `op`, not `op2`. -/
def readAction (after : List Char) (bits : Bits) (text : List Char) :
    Except Stop (Mode × List Char) :=
  match text.head?.bind (getIdx who) with
  | some idx => if 1 < text.length then .error .modeError else .ok (bits idx, text.tail)
  | none => if startsIn perms after then readPerms 0 text else .ok (0, text)

/-- What a pass does with the bits: the character `c` at `op2` need not be an operator. -/
def assign (fs : Fin 3 → Bool) (c : Char) (m : Mode) (bits : Bits) : Except Stop Bits :=
  if c ∈ ops then
    .ok fun i =>
      if fs i then (if c = '=' then m else if c = '-' then bits i &&& ~~~m else bits i ||| m)
      else bits i
  else if ∃ i, fs i then .error .modeError
  else .ok bits

/-- The loop of `op2` over the text from `op`; a pass takes at least one character, so it needs no
more passes than there are characters. -/
def permLoop (fs : Fin 3 → Bool) (after : List Char) :
    ℕ → List Char → Bits → Except Stop Bits
  | passes + 1, c :: text, bits => do
    let (m, rest) ← readAction after bits text
    let bits ← assign fs c m bits
    permLoop fs after passes rest bits
  | _, _, bits => .ok bits

/-- A mode of the list. -/
def applyMode (bits : Bits) (text : List Char) : Except Stop Bits :=
  match lastOp text with
  | none => .error .modeError
  | some (before, op, after) =>
    if startsIn octals after then
      if before ≠ [] then .error .modeError
      else do
        let m ← string2octal 0 after
        pure fun i => octalOp op (BitVec.ofNat 32 m) i (bits i)
    else permLoop (flags before) after (after.length + 1) (op :: after) bits

/-- `process_mode_list` on a file whose `st_mode` is `st`: the mode it passes to `chmod`. -/
def processModeList (modeList : List Char) (st : Mode) : Except Stop Mode := do
  let bits ← (modeList.splitOn ',').foldlM applyMode fun i => setBits st i 0
  pure (putBits bits (clearModeBit st))

example : processModeList ['u', '=', 'r', ',', 'g', '-', 'w', ',', '+', '1'] 0o664#32 =
    .ok 0o445#32 := by decide

/-! ## Texts -/

section
variable {before after text : List Char} {op c : Char}

/-- A text starts with one of some characters if its first character is one. -/
theorem startsIn_cons {cs : List Char} : startsIn cs (c :: text) = decide (c ∈ cs) := by
  simp [startsIn]

/-- There is no last operator where there is none. -/
theorem lastOp_eq_none_iff : lastOp text = none ↔ ∀ c ∈ text, c ∉ ops := by
  induction text with
  | nil => simp [lastOp]
  | cons c text ih =>
    simp only [lastOp, List.forall_mem_cons, ← ih]
    cases lastOp text <;> simp

/-- An operator without another behind it is the last one. -/
theorem lastOp_append (hop : op ∈ ops) (h : ∀ c ∈ after, c ∉ ops) :
    lastOp (before ++ op :: after) = some (before, op, after) := by
  induction before with
  | nil => simp only [List.nil_append, lastOp, lastOp_eq_none_iff.mpr h, if_pos hop]
  | cons c before ih => simp only [List.cons_append, lastOp, ih]

/-- What stands after the last operator has none. -/
theorem lastOp_eq_some (h : lastOp text = some (before, op, after)) :
    text = before ++ op :: after ∧ op ∈ ops ∧ ∀ c ∈ after, c ∉ ops := by
  induction text generalizing before with
  | nil => cases h
  | cons c text ih =>
    simp only [lastOp] at h
    split at h
    · rename_i hlast
      cases h
      obtain ⟨rfl, hop, hafter⟩ := ih hlast
      exact ⟨rfl, hop, hafter⟩
    · rename_i hnone
      split at h
      · rename_i hc
        cases h
        exact ⟨rfl, hc, lastOp_eq_none_iff.mp hnone⟩
      · cases h

/-- A character that an array does not have has no index in it. -/
theorem getIdx_eq_none {n : ℕ} {ar : Fin n → Char} : getIdx ar c = none ↔ ∀ i, ar i ≠ c := by
  simp [getIdx]

/-- At the index of a character is the character. -/
theorem getIdx_eq_some {n : ℕ} {ar : Fin n → Char} {i : Fin n} (h : getIdx ar c = some i) :
    ar i = c := by
  have hfound : decide (ar i = c) = true :=
    List.find?_some (p := fun i => decide (ar i = c)) (l := List.finRange n) h
  exact of_decide_eq_true hfound

/-- The letters of the classes are those with an index in `who`. -/
theorem getIdx_who_eq_none : getIdx who c = none ↔ c ∉ ['u', 'g', 'o'] := by
  rw [getIdx_eq_none]
  simp [Fin.forall_fin_succ, who, eq_comm]

/-- The letters of the permissions are those with an index in `mc`. -/
theorem getIdx_mc_eq_none : getIdx mc c = none ↔ c ∉ perms := by
  rw [getIdx_eq_none]
  simp [Fin.forall_fin_succ, mc, perms, eq_comm]

/-- A text that starts with no class names none. -/
theorem head_getIdx_eq_none (h : startsIn ['u', 'g', 'o'] text = false) :
    text.head?.bind (getIdx who) = none := by
  cases text with
  | nil => rfl
  | cons d text =>
    rw [startsIn_cons, decide_eq_false_iff_not] at h
    exact getIdx_who_eq_none.mpr h

end

end Chmod

end Ulsp
