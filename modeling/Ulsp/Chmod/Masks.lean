import Ulsp.Chmod.Numeric

/-!
# Mode lists as masks

A mode that copies no class gives some of the permission bits a value and leaves the others alone,
which ones and what value by its text only (`applyMode_values`). So whatever list `chmod` accepts, if
none of its modes copies a class, it is two masks, the bits that are set and those that are cleared,
the same for all files (`masks`), and a second run finds nothing to change.
-/

namespace Ulsp

open Lib

namespace Chmod

/-- A class stands behind the last operator of a mode. -/
def copies (text : List Char) : Bool :=
  (lastOp text).any fun (_, _, after) => startsIn ['u', 'g', 'o'] after

/-- No mode of a list copies a class. -/
def CopyFree (modeList : List Char) : Prop := ∀ p ∈ modeList.splitOn ',', copies p = false

instance (modeList : List Char) : Decidable (CopyFree modeList) := by
  unfold CopyFree
  infer_instance

/-- The value that an operator gives to a permission, if it gives one. -/
def valueOf (op : Char) (listed : Bool) : Option Bool :=
  if op = '=' then some listed
  else if listed then some (op ≠ '-') else none

/-- The values that are given to the permissions of each class. -/
abbrev Values := Fin 3 → Fin 4 → Option Bool

/-- The bits that values are given to. -/
def Values.bits (v : Values) (i : Fin 3) (j : Fin 4) (b : Bool) : Bool := (v i j).getD b

/-- The values, and those they do not give by other ones. -/
def Values.or (v w : Values) : Values := fun i j => (v i j).or (w i j)

/-- The values that the operator gives to the classes that are named, by the bits that are listed. -/
def valuesOf (fs : Fin 3 → Bool) (op : Char) (m : Mode) : Values := fun i j =>
  if fs i then valueOf op (m.getLsbD j) else none

/-- The mask of the bits that are given a value. -/
def Values.mask (v : Values) (b : Bool) : Mode := withBits 0 fun i j => v i j = some b

variable {v w : Values} {bits bits' : Bits} {before after text t : List Char} {op c : Char}
  {m st : Mode}
  {fs : Fin 3 → Bool} {i : Fin 3} {j : Fin 4}

/-! ## A mode -/

/-- The bits of the classes that are named are given values. -/
theorem assign_values (fs : Fin 3 → Bool) (m : Mode) (bits : Bits) (hop : op ∈ ops) : ∃ bits',
    assign fs op m bits = .ok bits' ∧
    Becomes bits bits' (valuesOf fs op m).bits := by
  refine ⟨_, if_pos hop, fun i j => ?_⟩
  have hj : (j : ℕ) < 32 := by omega
  by_cases hi : fs i = true
  · simp only [Values.bits, valuesOf, if_pos hi, valueOf]
    by_cases heq : op = '='
    · simp [heq]
    · by_cases hdrop : op = '-'
      · simp only [hdrop, if_pos, if_neg (show ¬ '-' = '=' by decide), BitVec.getLsbD_and,
          BitVec.getLsbD_not, decide_eq_true hj, Bool.true_and]
        cases m.getLsbD j <;> simp
      · simp only [if_neg heq, if_neg hdrop, BitVec.getLsbD_or]
        cases m.getLsbD j <;> simp [hdrop]
  · simp only [Values.bits, valuesOf, if_neg hi, Option.getD_none]

/-- An octal number gives values to the bits of all classes. -/
theorem octalOp_values (hop : op ∈ ops) (b : Mode) :
    (octalOp op m i b).getLsbD j = (valueOf op (has m i j)).getD (b.getLsbD j) := by
  simp only [ops, List.mem_cons, List.not_mem_nil, or_false] at hop
  rcases hop with rfl | rfl | rfl
  · refine setBits_getLsbD.trans ?_
    cases has m i j <;> simp [valueOf]
  · refine dropBits_getLsbD.trans ?_
    cases has m i j <;> simp [valueOf]
  · refine setBits_getLsbD.trans ?_
    simp [valueOf]

/-- What stands behind the operator, if it is no number and no class, gives values to the bits of the
classes that are named. -/
theorem permLoop_values (hop : op ∈ ops) (hafter : ∀ c ∈ after, c ∉ ops)
    (hoctal : startsIn octals after = false) (hcopy : startsIn ['u', 'g', 'o'] after = false)
    (hread : ReadableFrom before after) : ∃ v : Values, ∀ bits, ∃ bits',
      permLoop (flags before) after (after.length + 1) (op :: after) bits = .ok bits' ∧
        Becomes bits bits' v.bits := by
  have haccepted : ∀ bits, Accepted (permLoop (flags before) after (after.length + 1)
    (op :: after) bits) :=
    fun bits => (accepted_permLoop hop hafter hoctal).mpr hread
  by_cases hnone : NamesNone before
  · refine ⟨fun _ _ => none, fun bits => ?_⟩
    obtain ⟨bits', hbits'⟩ := haccepted bits
    rw [permLoop_none (forall_flags_eq_false.mpr hnone) hbits'] at hbits'
    exact ⟨bits, hbits', fun _ _ => rfl⟩
  cases after with
  | nil =>
    refine ⟨valuesOf (flags before) op 0, fun bits => ?_⟩
    obtain ⟨bits', hassign, hbits⟩ := assign_values (flags before) 0 bits hop
    refine ⟨bits', ?_, hbits⟩
    rw [permLoop_other rfl rfl, hassign]
    exact permLoop_nil
  | cons c text =>
    rw [startsIn_cons, decide_eq_false_iff_not] at hoctal hcopy
    rw [ReadableFrom, if_neg hoctal, if_neg hcopy] at hread
    split at hread
    case isFalse => exact absurd hread.1 hnone
    case isTrue hperm =>
      have hperms : ∀ d ∈ c :: text, d ∈ perms := List.forall_mem_cons.mpr ⟨hperm, hread⟩
      obtain ⟨⟨m, rest⟩, hm⟩ := (accepted_readPerms (m := 0) hafter).mpr hperms
      refine ⟨valuesOf (flags before) op m, fun bits => ?_⟩
      obtain ⟨bits', hassign, hbits⟩ := assign_values (flags before) m bits hop
      refine ⟨bits', ?_, hbits⟩
      rw [permLoop_perms (by rw [startsIn_cons]; exact decide_eq_true hperm)
        (by rw [startsIn_cons]; exact decide_eq_false hcopy) hafter, hm]
      exact hassign

/-- A mode that copies no class gives values to the bits, whatever they were. -/
theorem applyMode_values (hread : Readable text) (hcopy : copies text = false) :
    ∃ v : Values, ∀ bits, ∃ bits', applyMode bits text = .ok bits' ∧ Becomes bits bits' v.bits := by
  obtain ⟨before, op, after, hlast, hread⟩ := hread
  obtain ⟨-, hop, hafter⟩ := lastOp_eq_some hlast
  have hclass : startsIn ['u', 'g', 'o'] after = false := by simpa [copies, hlast] using hcopy
  unfold applyMode
  simp only [hlast]
  by_cases hoctal : startsIn octals after = true
  · have hnumber : before = [] ∧ Accepted (string2octal 0 after) := by
      have haccepted := (@accepted_octal _ _ op (fun _ => 0) hoctal).mpr hread
      by_cases hbefore : before = []
      · refine ⟨hbefore, ?_⟩
        rw [if_neg (not_not.mpr hbefore)] at haccepted
        obtain ⟨bits, hbits⟩ := haccepted
        obtain ⟨n, hn, -⟩ := bind_eq_ok.mp hbits
        exact ⟨n, hn⟩
      · rw [if_pos hbefore] at haccepted
        exact absurd haccepted (not_accepted_error _)
    obtain ⟨hbefore, n, hn⟩ := hnumber
    refine ⟨fun i j => valueOf op (has (BitVec.ofNat 32 n) i j), fun bits => ?_⟩
    rw [if_pos hoctal, if_neg (not_not.mpr hbefore), hn]
    exact ⟨_, rfl, fun i j => octalOp_values hop (bits i)⟩
  · simp only [if_neg hoctal]
    exact permLoop_values hop hafter (Bool.eq_false_iff.mpr hoctal) hclass hread

/-! ## A list -/

theorem bits_or : (v.or w).bits i j = fun b => v.bits i j (w.bits i j b) := by
  funext b
  simp only [Values.bits, Values.or]
  cases v i j <;> simp

/-- Modes one after the other give values to the bits. -/
theorem foldlM_values {ts : List (List Char)} (hread : ∀ p ∈ ts, Readable p)
    (hcopy : ∀ p ∈ ts, copies p = false) : ∃ v : Values, ∀ bits, ∃ bits',
      ts.foldlM applyMode bits = .ok bits' ∧ Becomes bits bits' v.bits := by
  induction ts with
  | nil => exact ⟨fun _ _ => none, fun bits => ⟨bits, rfl, fun _ _ => rfl⟩⟩
  | cons p ts ih =>
    obtain ⟨hp, hread⟩ := List.forall_mem_cons.mp hread
    obtain ⟨hpcopy, hcopy⟩ := List.forall_mem_cons.mp hcopy
    obtain ⟨w, hw⟩ := applyMode_values hp hpcopy
    obtain ⟨v, hv⟩ := ih hread hcopy
    refine ⟨v.or w, fun bits => ?_⟩
    obtain ⟨bits₁, hmode, hbits₁⟩ := hw bits
    obtain ⟨bits', hrest, hbits'⟩ := hv bits₁
    refine ⟨bits', ?_, fun i j => ?_⟩
    · rw [List.foldlM_cons, hmode]
      exact hrest
    · rw [hbits', hbits₁, bits_or]

theorem clearModeBit_mask {b : Bool} : clearModeBit (v.mask b) = 0 := by
  rw [Values.mask, clearModeBit_withBits]
  decide

/-- A mode with some bits set to given values is that mode under two masks. -/
theorem withBits_values : withBits st (fun i j => (v i j).getD (has st i j)) =
    st &&& ~~~v.mask false ||| v.mask true := by
  refine mode_ext (fun i j => ?_) ?_
  · rcases Nat.lt_or_ge (pos i j) 32 with hlt | hge
    · rw [has_withBits hlt, has_eq (st &&& _ ||| _), BitVec.getLsbD_or, BitVec.getLsbD_and,
        BitVec.getLsbD_not, decide_eq_true hlt, Bool.true_and, ← has_eq, ← has_eq, ← has_eq,
        Values.mask, Values.mask, has_withBits hlt, has_withBits hlt]
      cases hv : v i j with
      | none => simp
      | some b => cases b <;> simp
    · rw [has_eq, has_eq, BitVec.getLsbD_of_ge _ _ hge, BitVec.getLsbD_of_ge _ _ hge]
  · rw [clearModeBit_withBits]
    refine BitVec.eq_of_getLsbD_eq fun k hk => ?_
    have hclear : ∀ b, ((v.mask b).getLsbD k && !decide (∃ i j, pos i j = k)) = false := by
      intro b
      rw [← clearModeBit_getLsbD hk, clearModeBit_mask]
      exact BitVec.getLsbD_zero
    rw [clearModeBit_getLsbD hk, clearModeBit_getLsbD hk, BitVec.getLsbD_or, BitVec.getLsbD_and,
      BitVec.getLsbD_not, decide_eq_true hk]
    by_cases hpos : ∃ i j, pos i j = k
    · simp [hpos]
    · have hfalse : ∀ b, (v.mask b).getLsbD k = false := by simpa [hpos] using hclear
      simp [hfalse]

theorem mask_and_mask : v.mask true &&& v.mask false = 0 := by
  refine mode_ext (fun i j => ?_) ?_
  · rw [has_eq, BitVec.getLsbD_and, ← has_eq, ← has_eq, has_eq 0]
    rcases Nat.lt_or_ge (pos i j) 32 with hlt | hge
    · rw [Values.mask, Values.mask, has_withBits hlt, has_withBits hlt]
      cases hv : v i j with
      | none => simp
      | some b => cases b <;> simp
    · rw [has_eq, BitVec.getLsbD_of_ge _ _ hge, BitVec.getLsbD_of_ge _ _ hge, Bool.false_and]
  · rw [clearModeBit, BitVec.and_assoc, ← clearModeBit, clearModeBit_mask]
    exact BitVec.and_zero

/-- A mode keeps what two disjoint masks have made of it. -/
theorem masks_masks {set clear : Mode} (h : set &&& clear = 0) :
    (st &&& ~~~clear ||| set) &&& ~~~clear ||| set = st &&& ~~~clear ||| set := by
  refine BitVec.eq_of_getLsbD_eq fun k hk => ?_
  have hbit := congrArg (BitVec.getLsbD · k) h
  simp only [BitVec.getLsbD_or, BitVec.getLsbD_and, BitVec.getLsbD_not, decide_eq_true hk,
    Bool.true_and] at hbit ⊢
  cases set.getLsbD k <;> cases clear.getLsbD k <;> simp

/-! ## What a list does -/

/-- **A list without copies is two masks**: it sets some of the permission bits of every file and clears
some others, and a second run finds the mode as it has to be. -/
theorem masks {t : List Char} {st₀ m₀ : Mode} (h : processModeList t st₀ = .ok m₀)
    (hcopy : CopyFree t) :
    ∃ set clear : Mode, set &&& clear = 0 ∧ clearModeBit (set ||| clear) = 0 ∧
      ∀ st, processModeListInfo false true t st =
          .ok (st &&& ~~~clear ||| set,
            some (if st &&& ~~~clear ||| set ≠ st then .changed else .retained)) ∧
        processModeListInfo true false t (st &&& ~~~clear ||| set) =
          .ok (st &&& ~~~clear ||| set, none) := by
  have hread : ∀ p ∈ t.splitOn ',', Readable p := accepted_processModeList.mp ⟨m₀, h⟩
  obtain ⟨v, hv⟩ := foldlM_values hread hcopy
  have hlist : ∀ st, processModeList t st = .ok (st &&& ~~~v.mask false ||| v.mask true) := by
    intro st
    obtain ⟨bits', hrun, hbits⟩ := hv fun i => setBits st i 0
    rw [processModeList, hrun, ← withBits_values]
    change Except.ok (putBits bits' (clearModeBit st)) = _
    rw [putBits_eq]
    congr 2
    funext i j
    rw [hbits, setBits_getLsbD, Values.bits]
    simp
  refine ⟨v.mask true, v.mask false, mask_and_mask, ?_, fun st => ⟨?_, ?_⟩⟩
  · rw [clearModeBit, BitVec.and_or_distrib_right, ← clearModeBit, ← clearModeBit, clearModeBit_mask,
      clearModeBit_mask]
    exact BitVec.or_zero
  · rw [processModeListInfo, hlist]
    change Except.ok (_, printInfo false true _ _) = _
    rw [printInfo]
    simp only [Bool.or_true, if_true]
    split <;> rfl
  · rw [processModeListInfo, hlist, masks_masks mask_and_mask]
    change Except.ok (_, printInfo true false _ _) = _
    rw [printInfo, if_neg (not_not.mpr rfl)]
    rfl

theorem masks_three : CopyFree ['u', '=', 'r', ',', 'g', '-', 'w', ',', '+', '1'] ∧
    ∃ set clear : Mode, set &&& clear = 0 ∧ clearModeBit (set ||| clear) = 0 ∧
      ∀ st, processModeListInfo false true ['u', '=', 'r', ',', 'g', '-', 'w', ',', '+', '1'] st =
          .ok (st &&& ~~~clear ||| set,
            some (if st &&& ~~~clear ||| set ≠ st then .changed else .retained)) ∧
        processModeListInfo true false ['u', '=', 'r', ',', 'g', '-', 'w', ',', '+', '1']
            (st &&& ~~~clear ||| set) = .ok (st &&& ~~~clear ||| set, none) :=
  ⟨by decide, @masks _ 0o664#32 0o445#32 (by decide) (by decide)⟩

end Chmod

end Ulsp
