import Ulsp.Chmod.Grammar

/-!
# The set-id bits of a symbolic mode

The fourth bit of a group is a set-id bit for `u` and `g`, and a mode that copies a class copies all
four bits. `carry` follows the fourth bits alone through a list that has neither `s` nor a number:
the file gets a set-id bit it did not have exactly when the bit of one class ends up in the other.
-/

namespace Ulsp

open Lib

namespace Chmod

/-- Which classes have their fourth bit in a mode. -/
def fourth (m : Mode) (i : Fin 3) : Bool := m &&& modes i (Fin.last 3) ≠ 0

/-- No set-id bit is granted. -/
def NoneGranted (st m : Mode) : Prop :=
  (m &&& S_ISUID ≠ 0 → st &&& S_ISUID ≠ 0) ∧ (m &&& S_ISGID ≠ 0 → st &&& S_ISGID ≠ 0)

instance (st m : Mode) : Decidable (NoneGranted st m) := inferInstanceAs (Decidable (_ ∧ _))

/-- Which classes have their fourth bit after a mode of neither `s` nor a number, by those that had it
before: each class named gets it from the class that is copied, if one is. -/
def carry (has : Fin 3 → Bool) (text : List Char) (i : Fin 3) : Bool :=
  match lastOp text with
  | none => has i
  | some (before, op, after) =>
    let copied := ((after.head?.bind (getIdx who)).map has).getD false
    if flags before i then
      if op = '=' then copied else if op = '-' then has i && !copied else has i || copied
    else has i

/-! ## The bits and the mode -/

section
variable {st m b : Mode} {bits bits' : Bits} {i : Fin 3} {k : ℕ}

theorem and_twoPow_eq_zero {x : Mode} (hk : k < 32) :
    x &&& BitVec.twoPow 32 k = 0 ↔ x.getLsbD k = false := by
  rw [BitVec.and_twoPow]
  split
  · rename_i hx
    refine iff_of_false ?_ (by simp [hx])
    intro h
    have hbit := congrArg (BitVec.getLsbD · k) h
    simp [hk] at hbit
  · rename_i hx
    simpa using hx

/-- A bit of what is put together of several modes. -/
theorem foldl_or_getLsbD {α : Type} {p : α → Prop} [DecidablePred p] {c : α → Mode} {l : List α} :
    (l.foldl (fun b j => if p j then b else b ||| c j) b).getLsbD k =
      (b.getLsbD k || l.any fun j => !decide (p j) && (c j).getLsbD k) := by
  induction l generalizing b with
  | nil => simp
  | cons j l ih =>
    rw [List.foldl_cons, ih, List.any_cons, ← Bool.or_assoc]
    by_cases hp : p j
    · rw [if_pos hp, decide_eq_true hp, Bool.not_true, Bool.false_and, Bool.or_false]
    · rw [if_neg hp, decide_eq_false hp, Bool.not_false, Bool.true_and, BitVec.getLsbD_or]

theorem any_finRange {n : ℕ} {f : Fin n → Bool} {a : Fin n} :
    ((List.finRange n).any fun j => f j && decide (j = a)) = f a := by
  rw [Bool.eq_iff_iff]
  simp

/-- The fourth bit of a group, when it is filled from a mode. -/
theorem setBits_fourth : (setBits m i b).getLsbD 3 = (b.getLsbD 3 || fourth m i) := by
  have hpow : ∀ j : Fin 4, (BitVec.twoPow 32 j).getLsbD 3 = decide (j = Fin.last 3) := by
    decide
  rw [setBits, foldl_or_getLsbD]
  simp only [hpow, any_finRange, fourth, ne_eq, decide_not]

/-- The bit of a mode that is the fourth bit of a class. -/
theorem modes_getLsbD : (∀ i j, (modes i j).getLsbD 11 = decide (i = 0 ∧ j = 3)) ∧
    ∀ i j, (modes i j).getLsbD 10 = decide (i = 1 ∧ j = 3) := by decide

theorem fourth_eq : fourth m 0 = m.getLsbD 11 ∧ fourth m 1 = m.getLsbD 10 := by
  have h₀ : modes 0 (Fin.last 3) = BitVec.twoPow 32 11 := by decide
  have h₁ : modes 1 (Fin.last 3) = BitVec.twoPow 32 10 := by decide
  simp only [fourth, h₀, h₁, ne_eq, and_twoPow_eq_zero (by decide : 11 < 32),
    and_twoPow_eq_zero (by decide : 10 < 32), Bool.not_eq_false, Bool.decide_eq_true, and_self]

/-- The set-id bits of the mode are the fourth bits of `u` and `g`. -/
theorem fourth_putBits : fourth (putBits bits (clearModeBit st)) 0 = (bits 0).getLsbD 3 ∧
    fourth (putBits bits (clearModeBit st)) 1 = (bits 1).getLsbD 3 := by
  have hthree : List.finRange 3 = [0, 1, 2] := rfl
  have hclear : (clearModeBit st).getLsbD 11 = false ∧ (clearModeBit st).getLsbD 10 = false := by
    have hbits : modeBit.getLsbD 11 = true ∧ modeBit.getLsbD 10 = true := by decide
    simp only [clearModeBit, BitVec.getLsbD_and, BitVec.getLsbD_not, hbits, Bool.not_true,
      Bool.and_false, and_self]
  have hbit : ∀ i, (!decide (bits i &&& BitVec.twoPow 32 3 = 0#32)) = (bits i).getLsbD 3 := by
    intro i
    have hzero : bits i &&& BitVec.twoPow 32 3 = 0#32 ↔ (bits i).getLsbD 3 = false :=
      and_twoPow_eq_zero (by decide)
    rw [Bool.eq_iff_iff]
    simp only [Bool.not_eq_true', decide_eq_false_iff_not, hzero, Bool.not_eq_false]
  have hnone : ((List.finRange 4).any fun _ => false) = false := rfl
  rw [fourth_eq.1, fourth_eq.2]
  simp only [putBits, hthree, List.foldl_cons, List.foldl_nil, foldl_or_getLsbD, modes_getLsbD.1,
    modes_getLsbD.2, hclear]
  simp [any_finRange, hbit, hnone]

/-! ## A mode and the fourth bits -/

variable {fs : Fin 3 → Bool} {before after text : List Char} {op c : Char} {n : ℕ}

theorem bind_eq_ok {α β : Type} {r : Except Stop α} {f : α → Except Stop β} {y : β} :
    r >>= f = .ok y ↔ ∃ x, r = .ok x ∧ f x = .ok y := by
  cases r with
  | error e =>
    constructor
    · intro h
      cases h
    · rintro ⟨x, hx, -⟩
      cases hx
  | ok x =>
    constructor
    · exact fun h => ⟨x, rfl, h⟩
    · rintro ⟨x', hx, h⟩
      cases hx
      exact h

theorem assign_none (hfs : ∀ i, fs i = false) : assign fs c m bits = .ok bits := by
  simp [assign, hfs]

/-- Without a class to change, the loop changes nothing. -/
theorem permLoop_none (hfs : ∀ i, fs i = false)
    (h : permLoop fs after n text bits = .ok bits') : bits' = bits := by
  induction n generalizing text with
  | zero => cases h; rfl
  | succ n ih =>
    cases text with
    | nil => cases h; rfl
    | cons c text =>
      obtain ⟨⟨m, rest⟩, -, h⟩ := bind_eq_ok.mp h
      change (assign fs c m bits >>= permLoop fs after n rest) = .ok bits' at h
      rw [assign_none hfs] at h
      exact ih h

/-- The bits of permissions without `s` have no fourth one. -/
theorem readPerms_fourth {rest : List Char} (hs : 's' ∉ text)
    (h : readPerms m text = .ok (b, rest)) : b.getLsbD 3 = m.getLsbD 3 := by
  induction text generalizing m with
  | nil => cases h; rfl
  | cons c text ih =>
    obtain ⟨hc, hs⟩ : 's' ≠ c ∧ 's' ∉ text := by simpa using hs
    rw [readPerms] at h
    split at h
    · cases h; rfl
    · split at h
      · cases h
      · rename_i j hj
        have hj3 : j ≠ 3 := by
          rintro rfl
          exact hc (getIdx_eq_some hj)
        have hpow : ∀ j : Fin 4, j ≠ 3 → (BitVec.twoPow 32 j).getLsbD 3 = false := by decide
        rw [ih hs h, BitVec.getLsbD_or, hpow j hj3, Bool.or_false]

/-- What the loop does from the operator on, if a class is named: the bits that are copied or listed
go into the classes named. -/
theorem permLoop_op (hop : op ∈ ops) (hafter : ∀ c ∈ after, c ∉ ops) (hs : 's' ∉ after)
    (hoctal : startsIn octals after = false) (hnames : ¬ NamesNone before)
    (h : permLoop (flags before) after (after.length + 1) (op :: after) bits = .ok bits') :
    ∃ m, m.getLsbD 3 =
        ((after.head?.bind (getIdx who)).map fun idx => (bits idx).getLsbD 3).getD false ∧
      assign (flags before) op m bits = .ok bits' := by
  have hread : ReadableFrom before after := (accepted_permLoop hop hafter hoctal).mp ⟨bits', h⟩
  obtain ⟨⟨m, rest⟩, haction, h⟩ := bind_eq_ok.mp h
  change (assign (flags before) op m bits >>= permLoop (flags before) after after.length rest) =
    .ok bits' at h
  obtain ⟨bits'', hassign, h⟩ := bind_eq_ok.mp h
  suffices hm : rest = [] ∧ m.getLsbD 3 =
      ((after.head?.bind (getIdx who)).map fun idx => (bits idx).getLsbD 3).getD false by
    obtain ⟨rfl, hm⟩ := hm
    rw [permLoop_nil] at h
    cases h
    exact ⟨m, hm, hassign⟩
  unfold readAction at haction
  split at haction
  · rename_i idx hidx
    split at haction
    · cases haction
    · rename_i hlen
      cases haction
      rw [hidx]
      exact ⟨List.eq_nil_of_length_eq_zero (by simp; omega), rfl⟩
  · rename_i hnone
    rw [hnone]
    split at haction
    · exact ⟨readPerms_rest hafter haction, by simpa using readPerms_fourth hs haction⟩
    · rename_i hperms
      cases haction
      have hnil : after = [] := by
        cases after with
        | nil => rfl
        | cons c text =>
          rw [startsIn_cons, decide_eq_true_eq] at hperms
          rw [startsIn_cons, decide_eq_false_iff_not] at hoctal
          have hclass : c ∉ ['u', 'g', 'o'] := getIdx_who_eq_none.mp hnone
          rw [ReadableFrom, if_neg hoctal, if_neg hclass, if_neg hperms] at hread
          exact absurd hread.1 hnames
      exact ⟨hnil, by simp⟩

/-- A mode does to the fourth bits what `carry` says. -/
theorem applyMode_fourth (h : applyMode bits text = .ok bits') (hs : 's' ∉ text)
    (hoct : ∀ c ∈ text, c ∉ octals) :
    (bits' i).getLsbD 3 = carry (fun i => (bits i).getLsbD 3) text i := by
  unfold applyMode at h
  split at h
  · cases h
  · rename_i before op after hlast
    obtain ⟨rfl, hop, hafter⟩ := lastOp_eq_some hlast
    have hoctal : startsIn octals after = false := by
      cases after with
      | nil => rfl
      | cons c after =>
        rw [startsIn_cons, decide_eq_false_iff_not]
        exact hoct c (by simp)
    rw [if_neg (by simp [hoctal])] at h
    simp only [carry, hlast]
    by_cases hnames : NamesNone before
    · have hfs := forall_flags_eq_false.mpr hnames
      rw [permLoop_none hfs h, hfs i, if_neg Bool.false_ne_true]
    · obtain ⟨m, hm, hassign⟩ := permLoop_op hop hafter (by simp_all) hoctal hnames h
      rw [assign, if_pos hop] at hassign
      cases hassign
      rw [← hm]
      by_cases hi : flags before i = true
      · simp only [if_pos hi]
        split
        · rfl
        · split
          · simp only [BitVec.getLsbD_and, BitVec.getLsbD_not, Nat.reduceLT, decide_true, Bool.true_and]
          · exact BitVec.getLsbD_or
      · simp only [if_neg hi]

/-- Modes one after the other carry the fourth bits one after the other. -/
theorem foldlM_fourth {ts : List (List Char)} (h : ts.foldlM applyMode bits = .ok bits')
    (hts : ∀ p ∈ ts, ∀ c ∈ p, c ≠ 's' ∧ c ∉ octals) :
    (fun i => (bits' i).getLsbD 3) = ts.foldl carry fun i => (bits i).getLsbD 3 := by
  induction ts generalizing bits with
  | nil => cases h; rfl
  | cons p ts ih =>
    obtain ⟨hp, hts⟩ := List.forall_mem_cons.mp hts
    obtain ⟨bits'', hmode, h⟩ := bind_eq_ok.mp h
    have hcarry : (fun i => (bits'' i).getLsbD 3) = carry (fun i => (bits i).getLsbD 3) p :=
      funext fun i => applyMode_fourth hmode (fun hmem => (hp _ hmem).1 rfl) fun c hc => (hp c hc).2
    rw [ih h hts, hcarry, List.foldl_cons]

theorem noneGranted_iff : NoneGranted st m ↔
    (fourth m 0 → fourth st 0) ∧ (fourth m 1 → fourth st 1) := by
  have h₀ : modes 0 (Fin.last 3) = S_ISUID := rfl
  have h₁ : modes 1 (Fin.last 3) = S_ISGID := rfl
  simp only [NoneGranted, fourth, h₀, h₁, decide_eq_true_eq]
end

/-- A list without `s` and without numbers grants no set-id bit exactly when the fourth bits that it
carries from class to class end where they were. -/
theorem none_granted_iff {t : List Char} {st m : Mode} (h : processModeList t st = .ok m)
    (hs : 's' ∉ t) (hoct : ∀ c ∈ t, c ∉ octals) :
    NoneGranted st m ↔ ∀ i ≠ 2, (t.splitOn ',').foldl carry (fourth st) i → fourth st i := by
  obtain ⟨bits, hbits, h⟩ := bind_eq_ok.mp h
  cases h
  have hpieces : ∀ p ∈ t.splitOn ',', ∀ c ∈ p, c ≠ 's' ∧ c ∉ octals := by
    intro p hp c hc
    have hmem : c ∈ t := mem_of_mem_splitOn hp hc
    exact ⟨fun hcs => hs (hcs ▸ hmem), hoct c hmem⟩
  have hfourth : (fun i => (setBits st i 0).getLsbD 3) = fourth st := by
    funext i
    rw [setBits_fourth]
    simp
  rw [← hfourth, ← foldlM_fourth hbits hpieces, hfourth, noneGranted_iff, fourth_putBits.1,
    fourth_putBits.2]
  constructor
  · intro hgrant i hi
    match i, hi with
    | 0, _ => exact hgrant.1
    | 1, _ => exact hgrant.2
    | 2, hi => exact absurd rfl hi
  · exact fun hall => ⟨hall 0 (by decide), hall 1 (by decide)⟩

/-- Two copies on a file with both set-id bits, after which it has one. -/
theorem none_granted_iff_copies :
    processModeList "g=u,u=o".toList 0o6744#32 = .ok 0o2474#32 ∧ NoneGranted 0o6744#32 0o2474#32 := by
  have hmode : processModeList "g=u,u=o".toList 0o6744#32 = .ok 0o2474#32 := by decide
  exact ⟨hmode, (none_granted_iff hmode (by decide) (by simp [octals])).mpr (by decide)⟩

/-- `u=g` makes a set-group-ID file a set-user-ID file. -/
theorem copies_setid : processModeList ['u', '=', 'g'] 0o2755#32 = .ok 0o6555#32 ∧
    ¬ NoneGranted 0o2755#32 0o6555#32 := by decide

end Chmod

end Ulsp
