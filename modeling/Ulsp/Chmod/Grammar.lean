import Ulsp.Chmod.Chmod
import Ulsp.Lib.Lang

/-!
# Which mode lists `chmod` accepts

`usage` is the grammar the program prints. The code does not follow it: a mode is cut at its last
operator, what stands before it is only searched for the letters of the classes, and what stands
after it is read by the rules of `Readable`. A mode of the grammar is readable unless it runs into
the letters `X` and `t` or has too long a number (`Plain`).
-/

open scoped Computability

namespace Ulsp

open Lib

namespace Chmod

/-! ## The grammar -/

/-- `[ugoa]*([-+=]([rwxXst]*|[ugo]))+|[-+=][0-7]+`. -/
def usageMode : Language Char :=
  (oneOf ['u', 'g', 'o', 'a'])∗ *
      plus (oneOf ops * ((oneOf ['r', 'w', 'x', 'X', 's', 't'])∗ + oneOf ['u', 'g', 'o'])) +
    oneOf ops * plus (oneOf octals)

/-- `MODE[,MODE]...`. -/
def usage : Language Char := sepBy ',' usageMode

/-! ## How a mode is read -/

/-- The value of an octal number. -/
def octalValue (text : List Char) : ℕ :=
  text.foldl (fun sum c => sum * 8 + (c.toNat - '0'.toNat)) 0

/-- The text before an operator that is not empty and names no class. -/
def NamesNone (before : List Char) : Prop := before ≠ [] ∧ ∀ c ∈ before, c ∉ ['u', 'g', 'o', 'a']

/-- What the code can read after the operator, by its first character: an octal number, which takes
no classes; a class, alone; permissions; or anything in which no class is followed by more, if the
mode names no class to change. -/
def ReadableFrom (before : List Char) : List Char → Prop
  | [] => True
  | c :: text =>
    if c ∈ octals then
      before = [] ∧ (∀ d ∈ text, d ∈ octals) ∧ octalValue (c :: text) < 2 ^ 31
    else if c ∈ ['u', 'g', 'o'] then text = []
    else if c ∈ perms then ∀ d ∈ text, d ∈ perms
    else NamesNone before ∧ ∀ d ∈ text.dropLast, d ∉ ['u', 'g', 'o']

/-- The code can read the mode. -/
def Readable (text : List Char) : Prop :=
  ∃ before op after, lastOp text = some (before, op, after) ∧ ReadableFrom before after

/-- What a mode of the grammar must be to be read: an octal number is below `2 ^ 31`, and there is no
`X` and no `t` after the last operator, unless one of them is what follows it and the text before it
names no class. -/
def Plain (text : List Char) : Prop :=
  ∀ before op after, lastOp text = some (before, op, after) →
    ((∀ c ∈ after, c ∈ octals) → octalValue after < 2 ^ 31) ∧
    ('X' ∈ after ∨ 't' ∈ after → NamesNone before ∧ startsIn ['X', 't'] after)

section
variable {before after text : List Char} {op c : Char} {bits : Bits} {fs : Fin 3 → Bool}

/-! ## What is accepted -/

/-- A computation that reaches its end. -/
def Accepted {α : Type} (r : Except Stop α) : Prop := ∃ a, r = .ok a

/-- A result is accepted. -/
@[simp]
theorem accepted_ok {α : Type} (a : α) : Accepted (.ok a : Except Stop α) := ⟨a, rfl⟩

/-- A result is accepted, in the words of the monad. -/
@[simp]
theorem accepted_pure {α : Type} (a : α) : Accepted (pure a : Except Stop α) := ⟨a, rfl⟩

/-- An error is not accepted. -/
@[simp]
theorem not_accepted_error {α : Type} (e : Stop) : ¬ Accepted (.error e : Except Stop α) := nofun

/-- Two computations one after the other, of which the second ends or not whatever the first's result.
-/
theorem accepted_bind {α β : Type} {r : Except Stop α} {f : α → Except Stop β} {P : Prop}
    (hf : ∀ a, Accepted (f a) ↔ P) : Accepted (r >>= f) ↔ Accepted r ∧ P := by
  cases r with
  | error e => exact iff_of_false (not_accepted_error e) fun h => not_accepted_error e h.1
  | ok a => exact (hf a).trans (and_iff_right (accepted_ok a)).symm

/-- No flag is set when the text names no class. -/
theorem forall_flags_eq_false : (∀ i, flags before i = false) ↔ NamesNone before := by
  have hcase : before.isEmpty = false ↔ before ≠ [] := by simp
  simp only [flags, Fin.forall_fin_succ, who, NamesNone, Bool.or_eq_false_iff, hcase]
  constructor
  · rintro ⟨⟨hu, ha, hne⟩, ⟨hg, -⟩, ⟨ho, -⟩, -⟩
    refine ⟨hne, ?_⟩
    intro c hc hmem
    simp at hu hg ho ha hmem
    grind
  · rintro ⟨hne, h⟩
    have hnot : ∀ c ∈ ['u', 'g', 'o', 'a'], before.contains c = false := by
      intro c hc
      simpa using fun hmem => h c hmem hc
    exact ⟨⟨hnot _ (by simp), hnot _ (by simp), hne⟩, ⟨hnot _ (by simp), hnot _ (by simp), hne⟩,
      ⟨hnot _ (by simp), hnot _ (by simp), hne⟩, fun i => i.elim0⟩

/-- The digits of a number do not make the sum smaller. -/
theorem le_foldl_octal {sum : ℕ} :
    sum ≤ text.foldl (fun sum c => sum * 8 + (c.toNat - '0'.toNat)) sum := by
  induction text generalizing sum with
  | nil => exact le_rfl
  | cons c text ih =>
    exact le_trans (Nat.le_add_right_of_le (Nat.le_mul_of_pos_right _ (by decide))) ih

/-- An octal number is read when it is one and an `int` holds it. -/
theorem accepted_string2octal {sum : ℕ} (hsum : sum < 2 ^ 31) :
    Accepted (string2octal sum text) ↔ (∀ c ∈ text, c ∈ octals) ∧
      text.foldl (fun sum c => sum * 8 + (c.toNat - '0'.toNat)) sum < 2 ^ 31 := by
  induction text generalizing sum with
  | nil => simpa [string2octal] using hsum
  | cons c text ih =>
    rw [string2octal, List.forall_mem_cons, List.foldl_cons]
    split
    · rename_i hc
      simp only [hc, true_and]
      split
      · rename_i hlt
        exact ih hlt
      · rename_i hge
        refine iff_of_false (not_accepted_error _) fun ⟨_, hlt⟩ => hge ?_
        exact lt_of_le_of_lt le_foldl_octal hlt
    · rename_i hc
      exact iff_of_false (not_accepted_error _) fun ⟨⟨hmem, _⟩, _⟩ => hc hmem

/-- Permissions are read to the end. -/
theorem readPerms_rest {m m' : Mode} {rest : List Char} (h : ∀ c ∈ text, c ∉ ops)
    (hread : readPerms m text = .ok (m', rest)) : rest = [] := by
  induction text generalizing m with
  | nil => cases hread; rfl
  | cons c text ih =>
    obtain ⟨hc, htext⟩ := List.forall_mem_cons.mp h
    rw [readPerms, if_neg hc] at hread
    split at hread
    · cases hread
    · exact ih htext hread

/-- A text without an operator is read as permissions if all its characters are letters of
permissions. -/
theorem accepted_readPerms {m : Mode} (h : ∀ c ∈ text, c ∉ ops) :
    Accepted (readPerms m text) ↔ ∀ c ∈ text, c ∈ perms := by
  induction text generalizing m with
  | nil => simp [readPerms]
  | cons c text ih =>
    obtain ⟨hc, htext⟩ := List.forall_mem_cons.mp h
    rw [readPerms, if_neg hc, List.forall_mem_cons]
    split
    · rename_i hnone
      exact iff_of_false (not_accepted_error _) fun ⟨hmem, _⟩ => getIdx_mc_eq_none.mp hnone hmem
    · rename_i j hsome
      have hmem : c ∈ perms := by
        by_contra hnot
        rw [getIdx_mc_eq_none.mpr hnot] at hsome
        cases hsome
      rw [ih htext]
      exact (and_iff_right hmem).symm

/-! ## The loop over the text from the operator -/

/-- At the end of the permissions the loop ends. -/
@[simp]
theorem permLoop_nil {n : ℕ} : permLoop fs after n [] bits = .ok bits := by
  cases n <;> rfl

/-- The assignment of permissions needs an operator or no permission. -/
theorem accepted_assign {m : Mode} : Accepted (assign fs c m bits) ↔ c ∈ ops ∨ ∀ i, fs i = false := by
  unfold assign
  split
  · rename_i hc
    simp [hc]
  · rename_i hc
    split
    · rename_i hsome
      refine iff_of_false (not_accepted_error _) ?_
      rintro (hmem | hnone)
      · exact hc hmem
      · obtain ⟨i, hi⟩ := hsome
        exact Bool.false_ne_true ((hnone i).symm.trans hi)
    · rename_i hnone
      refine iff_of_true (accepted_ok _) (.inr ?_)
      intro i
      exact Bool.eq_false_iff.mpr fun hi => hnone ⟨i, hi⟩

/-- A pass at `c` that reads neither a class nor permissions. -/
theorem permLoop_other {n : ℕ} (hafter : startsIn perms after = false)
    (hhead : startsIn ['u', 'g', 'o'] text = false) :
    permLoop fs after (n + 1) (c :: text) bits =
      assign fs c 0 bits >>= permLoop fs after n text := by
  have hread : readAction after bits text = .ok (0, text) := by
    simp only [readAction, head_getIdx_eq_none hhead, hafter, Bool.false_eq_true, if_false]
  rw [permLoop, hread]
  rfl

/-- A pass at `op` that reads permissions, up to the end of the mode. -/
theorem permLoop_perms {n : ℕ} (hafter : startsIn perms after = true)
    (hhead : startsIn ['u', 'g', 'o'] text = false) (hops : ∀ c ∈ text, c ∉ ops) :
    permLoop fs after (n + 1) (op :: text) bits =
      readPerms 0 text >>= fun r => assign fs op r.1 bits := by
  have hread : readAction after bits text = readPerms 0 text := by
    simp only [readAction, head_getIdx_eq_none hhead, hafter, if_true]
  rw [permLoop, hread]
  cases hr : readPerms 0 text with
  | error e => rfl
  | ok r =>
    obtain ⟨m, rest⟩ := r
    obtain rfl := readPerms_rest hops hr
    change (assign fs op m bits >>= permLoop fs after n []) = assign fs op m bits
    have hnil : permLoop fs after n [] = pure := funext fun _ => permLoop_nil
    rw [hnil, bind_pure]

/-- A pass at `c` that reads a class. -/
theorem accepted_pass_class {n : ℕ} {d : Char} (hd : d ∈ ['u', 'g', 'o']) :
    Accepted (permLoop fs after (n + 1) (c :: d :: text) bits) ↔
      (c ∈ ops ∨ ∀ i, fs i = false) ∧ text = [] := by
  obtain ⟨idx, hidx⟩ : ∃ idx, getIdx who d = some idx := by
    refine Option.ne_none_iff_exists'.mp fun hnone => getIdx_who_eq_none.mp hnone hd
  have hread : readAction after bits (d :: text) =
      if text = [] then .ok (bits idx, []) else .error .modeError := by
    simp only [readAction, List.head?_cons, Option.bind_some, hidx, List.tail_cons]
    cases text <;> simp
  rw [permLoop, hread]
  by_cases htext : text = []
  · rw [if_pos htext]
    change Accepted (assign fs c (bits idx) bits >>= permLoop fs after n []) ↔ _
    rw [accepted_bind (P := text = []) fun _ => by simp [htext], accepted_assign]
  · rw [if_neg htext]
    exact iff_of_false (not_accepted_error _) fun h => htext h.2

/-- The passes at what is no operator. -/
theorem accepted_skip {n : ℕ} (hafter : startsIn perms after = false)
    (hops : ∀ d ∈ c :: text, d ∉ ops) (hn : text.length ≤ n) :
    Accepted (permLoop fs after (n + 1) (c :: text) bits) ↔
      (∀ i, fs i = false) ∧ ∀ d ∈ text.dropLast, d ∉ ['u', 'g', 'o'] := by
  induction text generalizing c n bits with
  | nil =>
    rw [permLoop_other hafter rfl, accepted_bind (P := True) fun _ => by simp, accepted_assign]
    simpa using fun hc => absurd hc (hops c List.mem_cons_self)
  | cons d text ih =>
    obtain ⟨hc, htext⟩ := List.forall_mem_cons.mp hops
    by_cases hd : d ∈ ['u', 'g', 'o']
    · rw [accepted_pass_class hd, or_iff_right hc]
      refine and_congr_right fun _ => ⟨fun hnil => by simp [hnil], ?_⟩
      intro h
      by_contra hne
      exact h d (by simp [List.dropLast_cons_of_ne_nil hne]) hd
    · obtain ⟨n, rfl⟩ : ∃ m, n = m + 1 := ⟨n - 1, by simp at hn; omega⟩
      rw [permLoop_other hafter (by rwa [startsIn_cons, decide_eq_false_iff_not]),
        accepted_bind fun bits' => ih htext (by simpa using hn), accepted_assign, or_iff_right hc,
        ← and_assoc, and_self]
      refine and_congr_right ?_
      intro _
      cases text with
      | nil => simp
      | cons e text =>
        rw [List.dropLast_cons_cons (x := d), List.forall_mem_cons]
        exact (and_iff_right hd).symm

/-- The loop, from the operator. -/
theorem accepted_permLoop (hop : op ∈ ops) (hafter : ∀ c ∈ after, c ∉ ops)
    (hoctal : startsIn octals after = false) :
    Accepted (permLoop (flags before) after (after.length + 1) (op :: after) bits) ↔
      ReadableFrom before after := by
  cases after with
  | nil =>
    rw [permLoop_other rfl rfl, accepted_bind (P := True) fun _ => by simp, accepted_assign]
    simp [ReadableFrom, hop]
  | cons c text =>
    rw [startsIn_cons, decide_eq_false_iff_not] at hoctal
    rw [ReadableFrom, if_neg hoctal]
    split
    · rename_i hc
      rw [accepted_pass_class hc]
      exact and_iff_right (.inl hop)
    · rename_i hclass
      split
      · rename_i hc
        rw [permLoop_perms (by simpa [startsIn_cons] using hc)
            (by rwa [startsIn_cons, decide_eq_false_iff_not]) hafter,
          accepted_bind (P := True) fun r => by simp [accepted_assign, hop],
          accepted_readPerms hafter, and_true, List.forall_mem_cons]
        exact and_iff_right hc
      · rename_i hperm
        have hstart : startsIn perms (c :: text) = false := by
          rwa [startsIn_cons, decide_eq_false_iff_not]
        have hhead : startsIn ['u', 'g', 'o'] (c :: text) = false := by
          rwa [startsIn_cons, decide_eq_false_iff_not]
        rw [permLoop_other hstart hhead,
          accepted_bind fun bits' => accepted_skip hstart hafter le_rfl, accepted_assign,
          forall_flags_eq_false]
        exact and_iff_right (.inl hop)

/-- The octal branch. -/
theorem accepted_octal (hoctal : startsIn octals after = true) :
    Accepted (if before ≠ [] then .error .modeError
      else do
        let m ← string2octal 0 after
        pure fun i => octalOp op (BitVec.ofNat 32 m) i (bits i)) ↔ ReadableFrom before after := by
  cases after with
  | nil => cases hoctal
  | cons c text =>
    rw [startsIn_cons, decide_eq_true_eq] at hoctal
    rw [ReadableFrom, if_pos hoctal]
    split
    · rename_i hne
      exact iff_of_false (not_accepted_error _) fun h => hne h.1
    · rename_i heq
      rw [not_not] at heq
      rw [accepted_bind (P := True) fun _ => iff_of_true (accepted_pure _) trivial, and_true,
        accepted_string2octal (by decide), List.forall_mem_cons, and_assoc]
      exact ⟨fun h => ⟨heq, h.2⟩, fun h => ⟨hoctal, h.2⟩⟩

/-- What is asked of a mode, at its last operator. -/
theorem readable_iff_of_lastOp (h : lastOp text = some (before, op, after)) :
    Readable text ↔ ReadableFrom before after := by
  constructor
  · rintro ⟨b, o, a, hsome, hread⟩
    cases h.symm.trans hsome
    exact hread
  · exact fun hread => ⟨before, op, after, h, hread⟩

/-- What is asked of a mode is what the code accepts. -/
theorem accepted_applyMode : Accepted (applyMode bits text) ↔ Readable text := by
  unfold applyMode
  split
  · rename_i hnone
    refine iff_of_false (not_accepted_error _) ?_
    rintro ⟨before, op, after, hsome, -⟩
    cases hnone.symm.trans hsome
  · rename_i before op after hlast
    obtain ⟨-, hop, hafter⟩ := lastOp_eq_some hlast
    rw [readable_iff_of_lastOp hlast]
    split
    · rename_i hoctal
      exact accepted_octal hoctal
    · rename_i hoctal
      exact accepted_permLoop hop hafter (Bool.eq_false_iff.mpr hoctal)

/-- Modes one after the other. -/
theorem accepted_foldlM {ts : List (List Char)} :
    Accepted (ts.foldlM applyMode bits) ↔ ∀ p ∈ ts, Readable p := by
  induction ts generalizing bits with
  | nil => simp
  | cons p ts ih =>
    rw [List.foldlM_cons, accepted_bind fun _ => ih, accepted_applyMode, List.forall_mem_cons]

/-- A list is accepted when each of its modes is readable. -/
theorem accepted_processModeList {t : List Char} {st : Mode} :
    Accepted (processModeList t st) ↔ ∀ p ∈ t.splitOn ',', Readable p := by
  rw [processModeList, accepted_bind (P := True) fun _ => iff_of_true (accepted_pure _) trivial,
    and_true, accepted_foldlM]

/-! ## The grammar against the code -/

/-- The letters of the grammar are no operators. -/
theorem letters_ops : ∀ c ∈ ['r', 'w', 'x', 'X', 's', 't'], c ∉ ops := by
  simp [ops]

/-- The letters of the grammar are no digits. -/
theorem letters_octals : ∀ c ∈ ['r', 'w', 'x', 'X', 's', 't'], c ∉ octals := by
  simp [octals]

/-- The letters of the grammar are no classes. -/
theorem letters_classes : ∀ c ∈ ['r', 'w', 'x', 'X', 's', 't'], c ∉ ['u', 'g', 'o'] := by
  simp

/-- The letters of the grammar are the permissions, `X` and `t`. -/
theorem letters_cases : ∀ c ∈ ['r', 'w', 'x', 'X', 's', 't'], c ∈ perms ∨ c = 'X' ∨ c = 't' := by
  simp [perms]

/-- `X` and `t` are no permissions of the code. -/
theorem perms_other : ∀ c ∈ perms, c ∉ ['X', 't'] := by simp [perms]

/-- The classes are no operators. -/
theorem classes_ops : ∀ c ∈ ['u', 'g', 'o'], c ∉ ops := by simp [ops]

/-- The classes are no digits. -/
theorem classes_octals : ∀ c ∈ ['u', 'g', 'o'], c ∉ octals := by simp [octals]

/-- The digits are no operators. -/
theorem octals_ops : ∀ c ∈ octals, c ∉ ops := by simp [octals, ops]

/-- A mode of the grammar, at its last operator. -/
theorem lastOp_of_mem_usageMode (h : text ∈ usageMode) :
    ∃ before op after, lastOp text = some (before, op, after) ∧
      ((before = [] ∧ after ≠ [] ∧ ∀ c ∈ after, c ∈ octals) ∨
        (∀ c ∈ after, c ∈ ['r', 'w', 'x', 'X', 's', 't']) ∨ ∃ c ∈ ['u', 'g', 'o'], after = [c]) := by
  rcases h with h | h
  · obtain ⟨us, -, acts, hacts, rfl⟩ := Language.mem_mul.mp h
    obtain ⟨s, -, ⟨-, ⟨op, hop, rfl⟩, after, hafter, rfl⟩, rfl⟩ := exists_last_of_mem_plus hacts
    have hafter' : (∀ c ∈ after, c ∈ ['r', 'w', 'x', 'X', 's', 't']) ∨
        ∃ c ∈ ['u', 'g', 'o'], after = [c] := by
      rcases hafter with hafter | hafter
      · exact .inl (mem_oneOf_kstar.mp hafter)
      · exact .inr hafter
    refine ⟨us ++ s, op, after, ?_, .inr hafter'⟩
    rw [← List.append_assoc]
    refine lastOp_append hop ?_
    intro c hc
    rcases hafter' with hletters | ⟨d, hd, rfl⟩
    · exact letters_ops c (hletters c hc)
    · exact classes_ops c (List.mem_singleton.mp hc ▸ hd)
  · obtain ⟨-, ⟨op, hop, rfl⟩, after, hafter, rfl⟩ := Language.mem_mul.mp h
    obtain ⟨hne, hafter⟩ := mem_plus_oneOf.mp hafter
    have hlast : lastOp ([] ++ op :: after) = some ([], op, after) :=
      lastOp_append hop fun c hc => octals_ops c (hafter c hc)
    exact ⟨[], op, after, hlast, .inl ⟨rfl, hne, hafter⟩⟩

/-- Whether a mode is plain is seen from what stands around its last operator. -/
theorem plain_iff_of_lastOp (h : lastOp text = some (before, op, after)) :
    Plain text ↔ ((∀ c ∈ after, c ∈ octals) → octalValue after < 2 ^ 31) ∧
      ('X' ∈ after ∨ 't' ∈ after → NamesNone before ∧ startsIn ['X', 't'] after) := by
  constructor
  · exact fun hplain => hplain before op after h
  · intro hplain b o a hsome
    cases h.symm.trans hsome
    exact hplain

/-- After an operator, permissions of the grammar are readable when the code knows them, or when it
does not know the first one and no class is named. -/
theorem readableFrom_letters (h : ∀ c ∈ after, c ∈ ['r', 'w', 'x', 'X', 's', 't']) :
    ReadableFrom before after ↔
      ('X' ∈ after ∨ 't' ∈ after → NamesNone before ∧ startsIn ['X', 't'] after) := by
  cases after with
  | nil => simp [ReadableFrom]
  | cons c text =>
    obtain ⟨hc, htext⟩ := List.forall_mem_cons.mp h
    rw [ReadableFrom, if_neg (letters_octals c hc), if_neg (letters_classes c hc), startsIn_cons,
      decide_eq_true_eq]
    split
    · rename_i hperm
      have hX : c ∉ ['X', 't'] := perms_other c hperm
      have hletters : (∀ d ∈ text, d ∈ perms) ↔ ¬ ('X' ∈ c :: text ∨ 't' ∈ c :: text) := by
        constructor
        · rintro hall (hmem | hmem)
          · exact perms_other _ (List.forall_mem_cons.mpr ⟨hperm, hall⟩ _ hmem) (by simp)
          · exact perms_other _ (List.forall_mem_cons.mpr ⟨hperm, hall⟩ _ hmem) (by simp)
        · intro hnone d hd
          rcases letters_cases d (htext d hd) with hd' | rfl | rfl
          · exact hd'
          · exact absurd (.inl (List.mem_cons_of_mem _ hd)) hnone
          · exact absurd (.inr (List.mem_cons_of_mem _ hd)) hnone
      rw [hletters]
      exact ⟨fun hnone hsome => absurd hsome hnone, fun himp hsome => hX (himp hsome).2⟩
    · rename_i hperm
      have hX : c = 'X' ∨ c = 't' := (letters_cases c hc).resolve_left hperm
      have hfirst : 'X' ∈ c :: text ∨ 't' ∈ c :: text := by
        rcases hX with rfl | rfl <;> simp
      have hlast : ∀ d ∈ text.dropLast, d ∉ ['u', 'g', 'o'] :=
        fun d hd => letters_classes d (htext d (List.mem_of_mem_dropLast hd))
      exact ⟨fun hnone _ => ⟨hnone.1, by simpa using hX⟩, fun himp => ⟨(himp hfirst).1, hlast⟩⟩

/-- After an operator, a number is readable when it stands alone and is not too long. -/
theorem readableFrom_number (hne : after ≠ []) (h : ∀ c ∈ after, c ∈ octals) :
    ReadableFrom [] after ↔ octalValue after < 2 ^ 31 := by
  obtain ⟨c, text, rfl⟩ := List.exists_cons_of_ne_nil hne
  obtain ⟨hc, htext⟩ := List.forall_mem_cons.mp h
  rw [ReadableFrom, if_pos hc]
  exact ⟨fun hread => hread.2.2, fun hlt => ⟨rfl, htext, hlt⟩⟩

/-- A mode of the grammar is readable when it is plain. -/
theorem readable_iff_plain (h : text ∈ usageMode) : Readable text ↔ Plain text := by
  obtain ⟨before, op, after, hlast, hafter⟩ := lastOp_of_mem_usageMode h
  rw [readable_iff_of_lastOp hlast, plain_iff_of_lastOp hlast]
  rcases hafter with ⟨rfl, hne, hoctal⟩ | hletters | ⟨c, hc, rfl⟩
  · rw [readableFrom_number hne hoctal]
    refine ⟨fun hlt => ⟨fun _ => hlt, ?_⟩, fun hplain => hplain.1 hoctal⟩
    rintro (hmem | hmem)
    · exact absurd (hoctal _ hmem) (by decide)
    · exact absurd (hoctal _ hmem) (by decide)
  · rw [readableFrom_letters hletters]
    refine ⟨fun himp => ⟨?_, himp⟩, fun hplain => hplain.2⟩
    intro hoctal
    have hnil : after = [] := List.eq_nil_iff_forall_not_mem.mpr fun c hc =>
      letters_octals c (hletters c hc) (hoctal c hc)
    rw [hnil]
    decide
  · have hread : ReadableFrom before [c] := by
      rw [ReadableFrom, if_neg (classes_octals c hc), if_pos hc]
    refine iff_of_true hread ⟨?_, ?_⟩
    · intro hoctal
      exact absurd (hoctal c List.mem_cons_self) (classes_octals c hc)
    · rintro (hmem | hmem)
      · exact absurd (List.mem_singleton.mp hmem ▸ hc) (by decide)
      · exact absurd (List.mem_singleton.mp hmem ▸ hc) (by decide)
end

/-- The comma is in no mode. -/
theorem avoids_usageMode : Avoids ',' usageMode :=
  ((avoids_oneOf (by decide)).kstar.mul ((avoids_oneOf (by decide)).mul
    ((avoids_oneOf (by decide)).kstar.add (avoids_oneOf (by decide)))).plus).add
    ((avoids_oneOf (by decide)).mul (avoids_oneOf (by decide)).plus)

/-- A list of modes is accepted if and only if it is in the grammar, exactly when it is in the grammar
and its modes are plain, or it is not and one of its modes cannot be read. -/
theorem accepted_iff_usage_iff (t : List Char) (st : Mode) :
    (Accepted (processModeList t st) ↔ t ∈ usage) ↔
      (t ∈ usage ∧ ∀ p ∈ t.splitOn ',', Plain p) ∨
        (t ∉ usage ∧ ∃ p ∈ t.splitOn ',', ¬ Readable p) := by
  rw [accepted_processModeList]
  by_cases ht : t ∈ usage
  · have hmodes := mem_of_mem_sepBy avoids_usageMode ht
    have hplain : (∀ p ∈ t.splitOn ',', Readable p) ↔ ∀ p ∈ t.splitOn ',', Plain p :=
      forall₂_congr fun p hp => readable_iff_plain (hmodes p hp)
    simp only [ht, hplain, true_and, not_true_eq_false, false_and, or_false, iff_true]
  · simp only [ht, false_and, not_false_eq_true, true_and, false_or, iff_false, not_forall,
      exists_prop]

/-- `+X` is in the grammar. -/
theorem refuses_documented : ['+', 'X'] ∈ usage ∧ ¬ Accepted (processModeList ['+', 'X'] 0o644#32) := by
  refine ⟨⟨['+', 'X'], ?_, [], Language.nil_mem_kstar _, rfl⟩, ?_⟩
  · have hact : ['+', 'X'] ∈ oneOf ops * ((oneOf ['r', 'w', 'x', 'X', 's', 't'])∗ +
        oneOf ['u', 'g', 'o']) :=
      Language.append_mem_mul (a := ['+']) (b := ['X']) ⟨'+', by decide, rfl⟩
        (.inl (mem_oneOf_kstar.mpr (by simp)))
    exact .inl (Language.append_mem_mul (a := []) (Language.nil_mem_kstar _)
      (Language.append_mem_mul (b := []) hact (Language.nil_mem_kstar _)))
  · rintro ⟨m, hm⟩
    exact absurd ((by decide : processModeList ['+', 'X'] 0o644#32 = .error .modeError).symm.trans hm)
      nofun

end Chmod

end Ulsp
