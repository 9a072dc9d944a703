import Ulsp.Chmod.SetId

/-!
# What a symbolic mode means

The permission bits of a mode are eleven: for each class read, write and execute, and a set-id bit
for `u` and `g`. A clause changes the bits of the classes it names, by its operator, and nothing else
(`Clause.apply`); a list applies its clauses from left to right. The code keeps the bits in groups in
between, one for each class, and a clause does to a bit of a group what it does to that of the mode.
-/

namespace Ulsp

open Lib

namespace Chmod

/-! ## The permission bits of a mode -/

/-- Whether a mode has a permission of a class. -/
def has (m : Mode) (i : Fin 3) (j : Fin 4) : Bool := m &&& modes i j ≠ 0

/-- Which bit of the mode that is; the last one is none. -/
def pos : Fin 3 → Fin 4 → ℕ := ![![8, 7, 6, 11], ![5, 4, 3, 10], ![2, 1, 0, 32]]

/-- The mode with its permission bits replaced. -/
def withBits (m : Mode) (f : Fin 3 → Fin 4 → Bool) : Mode :=
  (List.finRange 3).foldl (fun m i => (List.finRange 4).foldl
    (fun m j => if f i j = false then m else m ||| modes i j) m) (clearModeBit m)

section
variable {m m' st b : Mode} {i : Fin 3} {j : Fin 4} {f g : Fin 3 → Fin 4 → Bool} {bits : Bits} {k : ℕ}

theorem has_eq (m : Mode) (i : Fin 3) (j : Fin 4) : has m i j = m.getLsbD (pos i j) := by
  have htable : ∀ i j, modes i j = BitVec.twoPow 32 (pos i j) := by decide
  rcases Nat.lt_or_ge (pos i j) 32 with hlt | hge
  · simp only [has, htable, ne_eq, and_twoPow_eq_zero hlt, Bool.not_eq_false, Bool.decide_eq_true]
  · have hzero : ∀ i j, 32 ≤ pos i j → modes i j = 0 := by decide
    rw [has, hzero i j hge, BitVec.getLsbD_of_ge _ _ hge]
    simp

/-- The bits that are left when the permission bits are cleared. -/
theorem clearModeBit_getLsbD (hk : k < 32) :
    (clearModeBit m).getLsbD k = (m.getLsbD k && !decide (∃ i j, pos i j = k)) := by
  have hbits : ∀ k < 32, modeBit.getLsbD k = decide (∃ i j, pos i j = k) := by decide
  rw [clearModeBit, BitVec.getLsbD_and, BitVec.getLsbD_not, hbits k hk, decide_eq_true hk,
    Bool.true_and]

/-- A mode is its permission bits and the others. -/
theorem mode_ext (h : ∀ i j, has m i j = has m' i j) (hclear : clearModeBit m = clearModeBit m') :
    m = m' := by
  refine BitVec.eq_of_getLsbD_eq fun k hk => ?_
  by_cases hpos : ∃ i j, pos i j = k
  · obtain ⟨i, j, rfl⟩ := hpos
    rw [← has_eq, ← has_eq, h]
  · have hbit := congrArg (BitVec.getLsbD · k) hclear
    simpa only [clearModeBit_getLsbD hk, decide_eq_false hpos, Bool.not_false, Bool.and_true]
      using hbit

theorem withBits_getLsbD : (withBits m f).getLsbD k = ((clearModeBit m).getLsbD k ||
    (List.finRange 3).any fun i => (List.finRange 4).any fun j => f i j && (modes i j).getLsbD k) := by
  have hthree : List.finRange 3 = [0, 1, 2] := rfl
  simp only [withBits, hthree, List.foldl_cons, List.foldl_nil, foldl_or_getLsbD, List.any_cons,
    List.any_nil, Bool.or_false, Bool.or_assoc, Bool.decide_eq_false, Bool.not_not]

@[simp]
theorem clearModeBit_withBits : clearModeBit (withBits m f) = clearModeBit m := by
  refine BitVec.eq_of_getLsbD_eq fun k hk => ?_
  rw [clearModeBit_getLsbD hk, clearModeBit_getLsbD hk, withBits_getLsbD, clearModeBit_getLsbD hk]
  by_cases hpos : ∃ i j, pos i j = k
  · simp [hpos]
  · have hnone : ∀ k < 32, (¬ ∃ i j, pos i j = k) → ∀ i j, (modes i j).getLsbD k = false := by
      decide
    simp [hpos, hnone k hk hpos]

/-- The bits are those put in. -/
theorem has_withBits (hk : pos i j < 32) : has (withBits m f) i j = f i j := by
  have htable : ∀ i j, pos i j < 32 →
      ∀ i' j', (modes i' j').getLsbD (pos i j) = decide (i' = i ∧ j' = j) := by decide
  have hcleared : (clearModeBit m).getLsbD (pos i j) = false := by
    rw [clearModeBit_getLsbD hk, decide_eq_true ⟨i, j, rfl⟩, Bool.not_true, Bool.and_false]
  rw [has_eq, withBits_getLsbD, hcleared, Bool.false_or]
  rw [Bool.eq_iff_iff]
  simp [htable i j hk]

/-- The one that is no bit of a mode does not matter. -/
theorem withBits_congr (h : ∀ i j, pos i j < 32 → f i j = g i j) : withBits m f = withBits m g := by
  refine mode_ext ?_ (by rw [clearModeBit_withBits, clearModeBit_withBits])
  intro i j
  rcases Nat.lt_or_ge (pos i j) 32 with hlt | hge
  · rw [has_withBits hlt, has_withBits hlt, h i j hlt]
  · rw [has_eq, has_eq, BitVec.getLsbD_of_ge _ _ hge, BitVec.getLsbD_of_ge _ _ hge]

theorem withBits_withBits : withBits (withBits m f) g = withBits m g := by
  rw [withBits, clearModeBit_withBits, withBits]

theorem withBits_has : withBits m (has m) = m := by
  refine mode_ext ?_ clearModeBit_withBits
  intro i j
  rcases Nat.lt_or_ge (pos i j) 32 with hlt | hge
  · exact has_withBits hlt
  · rw [has_eq, has_eq, BitVec.getLsbD_of_ge _ _ hge, BitVec.getLsbD_of_ge _ _ hge]

/-! ## The groups -/

theorem twoPow_getLsbD : ∀ j j' : Fin 4, (BitVec.twoPow 32 j').getLsbD j = decide (j' = j) := by
  decide

/-- The groups are put back as the permission bits. -/
theorem putBits_eq : putBits bits (clearModeBit m) = withBits m fun i j => (bits i).getLsbD j := by
  have hzero : ∀ i (j : Fin 4), bits i &&& BitVec.twoPow 32 j = 0 ↔ (bits i).getLsbD j = false :=
    fun i j => and_twoPow_eq_zero (by omega)
  simp only [putBits, withBits, hzero]

theorem setBits_getLsbD : (setBits m i b).getLsbD j = (b.getLsbD j || has m i j) := by
  rw [setBits, foldl_or_getLsbD]
  simp only [twoPow_getLsbD, any_finRange, has, ne_eq, decide_not]

/-- A bit of what several modes are taken from. -/
theorem foldl_and_not_getLsbD {α : Type} {p : α → Prop} [DecidablePred p] {c : α → Mode}
    {l : List α} (hk : k < 32) :
    (l.foldl (fun b j => if p j then b else b &&& ~~~c j) b).getLsbD k =
      (b.getLsbD k && !l.any fun j => !decide (p j) && (c j).getLsbD k) := by
  induction l generalizing b with
  | nil => simp
  | cons j l ih =>
    rw [List.foldl_cons, ih, List.any_cons, Bool.not_or, ← Bool.and_assoc]
    by_cases hp : p j
    · rw [if_pos hp, decide_eq_true hp, Bool.not_true, Bool.false_and, Bool.not_false, Bool.and_true]
    · rw [if_neg hp, decide_eq_false hp, Bool.not_false, Bool.true_and, BitVec.getLsbD_and,
        BitVec.getLsbD_not, decide_eq_true hk, Bool.true_and]

theorem dropBits_getLsbD : (dropBits m i b).getLsbD j = (b.getLsbD j && !has m i j) := by
  have hj : (j : ℕ) < 32 := by omega
  rw [dropBits, foldl_and_not_getLsbD hj]
  simp only [twoPow_getLsbD, any_finRange, has, ne_eq, decide_not]

end

/-! ## Clauses -/

/-- The operator of a clause. -/
inductive Op
  | add
  | drop
  | assign
  deriving DecidableEq

def Op.char : Op → Char
  | .add => '+'
  | .drop => '-'
  | .assign => '='

/-- What an operator does to a bit, by whether it is listed. -/
def Op.apply (op : Op) (listed b : Bool) : Bool :=
  match op with
  | .add => b || listed
  | .drop => b && !listed
  | .assign => listed

/-- A class as it is written; `a` is none of the three. -/
def classChar (c : Option (Fin 3)) : Char := c.elim 'a' who

/-- An octal digit. -/
def digitChar : Fin 8 → Char := !['0', '1', '2', '3', '4', '5', '6', '7']

/-- The value of octal digits, behind digits of value `n`. -/
def digitsValue (n : ℕ) (ds : List (Fin 8)) : ℕ := ds.foldl (fun n d => n * 8 + d) n

/-- An octal numeral that is a mode. -/
structure Numeral where
  digits : List (Fin 8)
  digits_ne : digits ≠ []
  value_le : digitsValue 0 digits ≤ 0o7777

/-- The mode that a numeral is. -/
def Numeral.mode (n : Numeral) : Mode := BitVec.ofNat 32 (digitsValue 0 n.digits)

/-- A clause of one operator: classes and permissions, or a numeral for all classes. -/
inductive Clause
  | symbolic (classes : List (Option (Fin 3))) (op : Op) (perms : List (Fin 4))
  | octal (op : Op) (n : Numeral)

def Clause.op : Clause → Op
  | .symbolic _ op _ => op
  | .octal op _ => op

/-- The classes that are named: all three if none is, or if `a` is. -/
def named (classes : List (Option (Fin 3))) (i : Fin 3) : Bool :=
  some i ∈ classes ∨ none ∈ classes ∨ classes = []

def Clause.names : Clause → Fin 3 → Bool
  | .symbolic classes _ _ => named classes
  | .octal _ _ => fun _ => true

/-- The permissions that are listed. -/
def Clause.lists : Clause → Fin 3 → Fin 4 → Bool
  | .symbolic _ _ perms => fun _ j => j ∈ perms
  | .octal _ n => has n.mode

/-- What a clause does to the bit of a permission of a class. -/
def Clause.bit (c : Clause) (i : Fin 3) (j : Fin 4) (b : Bool) : Bool :=
  if c.names i then c.op.apply (c.lists i j) b else b

/-- What a clause does to a mode. -/
def Clause.apply (c : Clause) (m : Mode) : Mode := withBits m fun i j => c.bit i j (has m i j)

/-- A clause as it is written. -/
def Clause.text : Clause → List Char
  | .symbolic classes op perms => classes.map classChar ++ op.char :: perms.map mc
  | .octal op n => op.char :: n.digits.map digitChar

example : (Clause.symbolic [some 1, some 2] .drop [1, 2]).text = ['g', 'o', '-', 'w', 'x'] ∧
    (Clause.symbolic [some 1, some 2] .drop [1, 2]).apply 0o100775#32 = 0o100744#32 := by decide

/-- What a list of clauses does to a mode. -/
def applyAll (cs : List Clause) (m : Mode) : Mode := cs.foldl (fun m c => c.apply m) m

/-- A list of clauses as it is written. -/
def listText (cs : List Clause) : List Char := [','].intercalate (cs.map Clause.text)

section
variable {m : Mode} {cs : List Clause} {bits : Bits} {classes : List (Option (Fin 3))} {op : Op}
  {ps : List (Fin 4)} {ds : List (Fin 8)}

/-- A list does to each bit what its clauses do to it. -/
theorem applyAll_eq : applyAll cs m =
    withBits m fun i j => cs.foldl (fun b c => c.bit i j b) (has m i j) := by
  induction cs generalizing m with
  | nil => exact withBits_has.symm
  | cons c cs ih =>
    rw [applyAll, List.foldl_cons, ← applyAll, ih, Clause.apply, withBits_withBits]
    refine withBits_congr fun i j hpos => ?_
    rw [has_withBits hpos, List.foldl_cons]

/-! ## How the code reads a clause -/

theorem opChar_mem : op.char ∈ ops := by cases op <;> decide

theorem mc_not_op : ∀ j, mc j ∉ ops := by decide

theorem digitChar_not_op : ∀ d, digitChar d ∉ ops := by decide

/-- The digits are read to the end, if an `int` holds the value. -/
theorem string2octal_digits {n : ℕ} (h : digitsValue n ds < 2 ^ 31) :
    string2octal n (ds.map digitChar) = .ok (digitsValue n ds) := by
  induction ds generalizing n with
  | nil => rfl
  | cons d ds ih =>
    have hchar : ∀ d, digitChar d ∈ octals ∧ (digitChar d).toNat - '0'.toNat = d := by decide
    have hle : ∀ (ds : List (Fin 8)) n, n ≤ digitsValue n ds := by
      intro ds
      induction ds with
      | nil => exact fun n => le_rfl
      | cons d ds ih => exact fun n => le_trans (by omega) (ih (n * 8 + d))
    have hlt : n * 8 + d < 2 ^ 31 := lt_of_le_of_lt (hle ds _) h
    rw [List.map_cons, string2octal, if_pos (hchar d).1]
    simp only [(hchar d).2, if_pos hlt]
    exact ih h

/-- The permissions are read to the end. -/
theorem readPerms_map (m : Mode) (ps : List (Fin 4)) : ∃ b, readPerms m (ps.map mc) = .ok (b, []) ∧
    ∀ j : Fin 4, b.getLsbD j = (m.getLsbD j || decide (j ∈ ps)) := by
  induction ps generalizing m with
  | nil => exact ⟨m, rfl, fun j => by simp⟩
  | cons j ps ih =>
    have hidx : ∀ j, getIdx mc (mc j) = some j := by decide
    obtain ⟨b, hread, hb⟩ := ih (m ||| BitVec.twoPow 32 j)
    refine ⟨b, ?_, ?_⟩
    · rw [List.map_cons, readPerms, if_neg (mc_not_op j)]
      simp only [hidx]
      exact hread
    · intro j'
      rw [hb, BitVec.getLsbD_or, twoPow_getLsbD]
      simp only [List.mem_cons, Bool.decide_or, eq_comm (a := j'), Bool.or_assoc]

/-- The classes are those that are named. -/
theorem flags_classes : flags (classes.map classChar) = named classes := by
  have hwho : ∀ i i', who i' = who i ↔ i' = i := by decide
  have hchar : ∀ (c : Option (Fin 3)) i, classChar c = who i ↔ c = some i := by
    rintro (_ | i') i
    · exact iff_of_false (by revert i; decide) nofun
    · simp [classChar, hwho]
  have hall : ∀ c : Option (Fin 3), classChar c = 'a' ↔ c = none := by
    rintro (_ | i')
    · exact iff_of_true rfl rfl
    · exact iff_of_false (by revert i'; decide) nofun
  funext i
  rw [Bool.eq_iff_iff]
  simp [flags, named, hchar, hall, or_comm, or_assoc]

/-- What the bits become that a clause is applied to. -/
def Becomes (bits bits' : Bits) (h : Fin 3 → Fin 4 → Bool → Bool) : Prop :=
  ∀ i (j : Fin 4), (bits' i).getLsbD j = h i j ((bits i).getLsbD j)

/-- The bits of the classes are changed by the operator. -/
theorem assign_op (fs : Fin 3 → Bool) (op : Op) (bits : Bits) {b : Mode}
    (hb : ∀ j : Fin 4, b.getLsbD j = decide (j ∈ ps)) :
    ∃ bits', assign fs op.char b bits = .ok bits' ∧
      Becomes bits bits' fun i j x => if fs i then op.apply (j ∈ ps) x else x := by
  refine ⟨_, if_pos opChar_mem, ?_⟩
  intro i j
  have hj : (j : ℕ) < 32 := by omega
  by_cases hi : fs i
  · simp only [if_pos hi]
    cases op with
    | add => simp [Op.char, Op.apply, hb]
    | drop =>
      change (bits i &&& ~~~b).getLsbD j = _
      rw [BitVec.getLsbD_and, BitVec.getLsbD_not, hb, decide_eq_true hj, Bool.true_and, Op.apply]
    | assign => simp [Op.char, Op.apply, hb]
  · simp only [if_neg hi]

/-- The loop from the last operator on, for the classes that `fs` has. -/
theorem permLoop_map {fs : Fin 3 → Bool} {n : ℕ} :
    ∃ bits', permLoop fs (ps.map mc) (n + 1) (op.char :: ps.map mc) bits = .ok bits' ∧
      Becomes bits bits' fun i j x => if fs i then op.apply (j ∈ ps) x else x := by
  cases ps with
  | nil =>
    have hnone : ∀ j : Fin 4, (0 : Mode).getLsbD j = decide (j ∈ ([] : List (Fin 4))) :=
      fun j => by simp
    obtain ⟨bits', hassign, hbits⟩ := assign_op fs op bits hnone
    refine ⟨bits', ?_, hbits⟩
    rw [List.map_nil, permLoop_other rfl rfl, hassign]
    exact permLoop_nil
  | cons j ps =>
    have hstart : ∀ j, mc j ∈ perms ∧ mc j ∉ ['u', 'g', 'o'] := by decide
    obtain ⟨b, hread, hb⟩ := readPerms_map 0 (j :: ps)
    have hlisted : ∀ j' : Fin 4, b.getLsbD j' = decide (j' ∈ j :: ps) := fun j' => by
      simpa using hb j'
    obtain ⟨bits', hassign, hbits⟩ := assign_op fs op bits hlisted
    refine ⟨bits', ?_, hbits⟩
    rw [permLoop_perms (by rw [List.map_cons, startsIn_cons]; exact decide_eq_true (hstart j).1)
      (by rw [List.map_cons, startsIn_cons]; exact decide_eq_false (hstart j).2)
      (by simp [mc_not_op]), hread]
    exact hassign

/-- What stands behind the last operator decides what a mode does. -/
theorem applyMode_perms (bits : Bits) (before : List Char) (op : Op) (ps : List (Fin 4)) :
    ∃ bits', applyMode bits (before ++ op.char :: ps.map mc) = .ok bits' ∧
      Becomes bits bits' fun i j x => if flags before i then op.apply (j ∈ ps) x else x := by
  have hoctal : startsIn octals (ps.map mc) = false := by
    have hmc : ∀ j, mc j ∉ octals := by decide
    cases ps with
    | nil => rfl
    | cons j ps => rw [List.map_cons, startsIn_cons, decide_eq_false (hmc j)]
  have hlast : lastOp (before ++ op.char :: ps.map mc) = some (before, op.char, ps.map mc) :=
    lastOp_append opChar_mem (by simp [mc_not_op])
  rw [applyMode, hlast]
  simp only [hoctal, Bool.false_eq_true, if_false]
  exact permLoop_map

/-- A mode that is a number. -/
theorem applyMode_octal (bits : Bits) (op : Op) (n : Numeral) :
    ∃ bits', applyMode bits (op.char :: n.digits.map digitChar) = .ok bits' ∧
      Becomes bits bits' fun i j x => op.apply (has n.mode i j) x := by
  have hoctal : startsIn octals (n.digits.map digitChar) = true := by
    have hdigit : ∀ d, digitChar d ∈ octals := by decide
    obtain ⟨d, ds, hds⟩ := List.exists_cons_of_ne_nil n.digits_ne
    rw [hds, List.map_cons, startsIn_cons, decide_eq_true (hdigit d)]
  have hlast : lastOp (op.char :: n.digits.map digitChar) =
      some ([], op.char, n.digits.map digitChar) := by
    rw [← List.nil_append (op.char :: _)]
    exact lastOp_append opChar_mem (by simp [digitChar_not_op])
  have hvalue := string2octal_digits (lt_of_le_of_lt n.value_le (by decide))
  rw [applyMode, hlast]
  simp only [hoctal, if_true, ne_eq, not_true_eq_false, if_false, hvalue]
  refine ⟨_, rfl, ?_⟩
  intro i j
  change (octalOp op.char n.mode i (bits i)).getLsbD j = op.apply (has n.mode i j) _
  cases op with
  | add => exact setBits_getLsbD
  | drop => exact dropBits_getLsbD
  | assign =>
    refine setBits_getLsbD.trans ?_
    simp [Op.apply]

/-- A clause does to the groups what it does to the bits of the mode. -/
theorem applyMode_clause (bits : Bits) (c : Clause) :
    ∃ bits', applyMode bits c.text = .ok bits' ∧ Becomes bits bits' c.bit := by
  cases c with
  | symbolic classes op perms =>
    obtain ⟨bits', hmode, hbits⟩ := applyMode_perms bits (classes.map classChar) op perms
    rw [flags_classes] at hbits
    exact ⟨bits', hmode, hbits⟩
  | octal op n => exact applyMode_octal bits op n

/-- Clauses one after the other. -/
theorem foldlM_clauses (cs : List Clause) (bits : Bits) :
    ∃ bits', (cs.map Clause.text).foldlM applyMode bits = .ok bits' ∧
      Becomes bits bits' fun i j x => cs.foldl (fun b c => c.bit i j b) x := by
  induction cs generalizing bits with
  | nil => exact ⟨bits, rfl, fun _ _ => rfl⟩
  | cons c cs ih =>
    obtain ⟨bits₁, hmode, hbits₁⟩ := applyMode_clause bits c
    obtain ⟨bits', hrest, hbits'⟩ := ih bits₁
    refine ⟨bits', ?_, ?_⟩
    · rw [List.map_cons, List.foldlM_cons, hmode]
      exact hrest
    · intro i j
      rw [hbits', hbits₁]
      rfl

/-- What is put together from the groups that modes have been applied to. -/
theorem processModeList_eq {ts : List (List Char)} {h : Fin 3 → Fin 4 → Bool → Bool} {st : Mode}
    (hts : ts ≠ []) (hcomma : ∀ t ∈ ts, ',' ∉ t)
    (hmodes : ∀ bits, ∃ bits', ts.foldlM applyMode bits = .ok bits' ∧ Becomes bits bits' h) :
    processModeList ([','].intercalate ts) st = .ok (withBits st fun i j => h i j (has st i j)) := by
  obtain ⟨bits', hrun, hbits⟩ := hmodes fun i => setBits st i 0
  rw [processModeList, List.splitOn_intercalate ',' hcomma hts, hrun]
  change Except.ok (putBits bits' (clearModeBit st)) = _
  rw [putBits_eq]
  congr 2
  funext i j
  rw [hbits, setBits_getLsbD]
  simp

end

/-- No clause has a comma. -/
theorem comma_not_mem_text (c : Clause) : ',' ∉ c.text := by
  have hclass : ∀ c : Option (Fin 3), classChar c ≠ ',' := by
    rintro (_ | i)
    · decide
    · revert i; decide
  have hop : ∀ op : Op, op.char ≠ ',' := by
    intro op
    cases op <;> decide
  have hmc : ∀ j, mc j ≠ ',' := by decide
  have hdigit : ∀ d, digitChar d ≠ ',' := by decide
  cases c with
  | symbolic classes op perms => simp [Clause.text, hclass, hmc, (hop op).symm]
  | octal op n => simp [Clause.text, hdigit, (hop op).symm]

/-- For every list of clauses and every mode, what `process_mode_list` passes to `chmod` is what the
clauses make of the mode from left to right. -/
theorem clauses_apply (c : Clause) (cs : List Clause) (st : Mode) :
    processModeList (listText (c :: cs)) st = .ok (applyAll (c :: cs) st) := by
  rw [applyAll_eq, listText]
  refine processModeList_eq (by simp) ?_ (foldlM_clauses (c :: cs))
  intro t ht
  obtain ⟨c', -, rfl⟩ := List.mem_map.mp ht
  exact comma_not_mem_text c'

end Chmod

end Ulsp
