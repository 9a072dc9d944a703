import Ulsp.Chmod.Clauses

/-!
# Several operators in a clause

By the usage text a clause may have several operators. The code takes a clause apart at the last one,
and only searches what stands before it for the classes: so the operators before it are not heard, and
if no class is named, none is, since the text before the last operator is not empty. A list of a clause
for each operator does the same where these would change nothing.
-/

namespace Ulsp

open Lib

namespace Chmod

/-- An operator with the permissions behind it. -/
abbrev Action := Op × List (Fin 4)

def Action.text (a : Action) : List Char := a.1.char :: a.2.map mc

/-- The clause of one operator for the classes. -/
def Action.clause (classes : List (Option (Fin 3))) (a : Action) : Clause :=
  .symbolic classes a.1 a.2

/-- A clause of several operators. -/
def actionsText (classes : List (Option (Fin 3))) (acts : List Action) : List Char :=
  classes.map classChar ++ acts.flatMap Action.text

/-- The value that an action gives to a permission, if it determines it. -/
def Action.sets (a : Action) (j : Fin 4) : Option Bool :=
  match a.1 with
  | .assign => some (a.2.contains j)
  | .add => if a.2.contains j then some true else none
  | .drop => if a.2.contains j then some false else none

/-- The value that actions give to a permission: that of the last one to determine it. -/
def setBy (j : Fin 4) (acts : List Action) : Option Bool :=
  acts.foldl (fun v a => (a.sets j).or v) none

/-- Where the last action does not determine a permission of a class that is named, and everywhere if
no class is, the file has it already as the actions leave it. -/
def Redundant (classes : List (Option (Fin 3))) (first : Action) (mid : List Action) (last : Action)
    (st : Mode) : Prop :=
  ∀ i, named classes i → ∀ j, pos i j < 32 → classes = [] ∨ last.sets j = none →
    ∀ v ∈ setBy j (first :: mid ++ [last]), has st i j = v

variable {classes : List (Option (Fin 3))} {acts : List Action} {a first last : Action}
  {mid : List Action} {st : Mode} {i : Fin 3} {j : Fin 4} {b : Bool} {bits : Bits}

theorem apply_eq : a.1.apply (j ∈ a.2) b = (a.sets j).getD b := by
  obtain ⟨op, ps⟩ := a
  by_cases hj : j ∈ ps <;> cases op <;> simp [Op.apply, Action.sets, hj]

/-- Actions one after the other. -/
theorem foldl_apply_eq :
    acts.foldl (fun b a => a.1.apply (j ∈ a.2) b) b = (setBy j acts).getD b := by
  have hfrom : ∀ v : Option Bool, acts.foldl (fun b a => a.1.apply (j ∈ a.2) b) (v.getD b) =
      (acts.foldl (fun v a => (a.sets j).or v) v).getD b := by
    induction acts with
    | nil => exact fun v => rfl
    | cons a acts ih =>
      intro v
      have hstep : (a.sets j).getD (v.getD b) = ((a.sets j).or v).getD b := by
        cases a.sets j <;> rfl
      rw [List.foldl_cons, List.foldl_cons, apply_eq, hstep, ih]
  exact hfrom none

/-- No character of an action is a letter of a class. -/
theorem class_not_mem_text {c : Char} (hc : c ∈ ['u', 'g', 'o', 'a']) :
    c ∉ acts.flatMap Action.text := by
  have hop : ∀ op : Op, op.char ∉ ['u', 'g', 'o', 'a'] := by
    intro op
    cases op <;> decide
  have hmc : ∀ j, mc j ∉ ['u', 'g', 'o', 'a'] := by decide
  intro hmem
  obtain ⟨a, -, ha⟩ := List.mem_flatMap.mp hmem
  rcases List.mem_cons.mp ha with rfl | ha
  · exact hop _ hc
  · obtain ⟨j, -, rfl⟩ := List.mem_map.mp ha
    exact hmc j hc

/-- Before the last of several operators the code finds the classes that are named, but not that none
is. -/
theorem flags_actions : flags (classes.map classChar ++ (first :: mid).flatMap Action.text) i =
    decide (classes ≠ [] ∧ named classes i) := by
  have hwho : who i ∈ ['u', 'g', 'o', 'a'] := by
    revert i
    decide
  have hfound : ∀ c ∈ ['u', 'g', 'o', 'a'],
      (classes.map classChar ++ (first :: mid).flatMap Action.text).contains c =
        (classes.map classChar).contains c := by
    intro c hc
    have hnot : ((first :: mid).flatMap Action.text).contains c = false := by
      rw [List.contains_eq_mem, decide_eq_false (class_not_mem_text hc)]
    rw [List.contains_append, hnot, Bool.or_false]
  have hne : (classes.map classChar ++ (first :: mid).flatMap Action.text).isEmpty = false := by
    simp [Action.text]
  have hnamed : flags (classes.map classChar) i = named classes i := congrFun flags_classes i
  rw [flags, List.isEmpty_map] at hnamed
  rw [flags, hne, hfound _ hwho, hfound 'a' (by simp), Bool.or_false, ← hnamed]
  cases classes with
  | nil => rfl
  | cons c classes => simp

/-- A clause of several operators does to the groups what its last one does, for the classes that are
named. -/
theorem applyMode_actions (bits : Bits) :
    ∃ bits', applyMode bits (actionsText classes (first :: mid ++ [last])) = .ok bits' ∧
      Becomes bits bits' fun i j x =>
        if classes ≠ [] ∧ named classes i then (last.sets j).getD x else x := by
  obtain ⟨bits', hmode, hbits⟩ := applyMode_perms bits
    (classes.map classChar ++ (first :: mid).flatMap Action.text) last.1 last.2
  refine ⟨bits', ?_, ?_⟩
  · rw [← hmode]
    congr 1
    rw [actionsText, List.flatMap_append, List.flatMap_singleton, Action.text, List.append_assoc]
  · intro i j
    rw [hbits]
    simp only [flags_actions, apply_eq, decide_eq_true_eq]

theorem bit_clause : (a.clause classes).bit i j b =
    if named classes i then (a.sets j).getD b else b := by
  rw [← apply_eq]
  rfl

/-- What the clauses of each operator make of a bit. -/
theorem foldl_bit_clause : (acts.map (Action.clause classes)).foldl (fun b c => c.bit i j b) b =
    if named classes i then (setBy j acts).getD b else b := by
  rw [List.foldl_map, ← foldl_apply_eq]
  by_cases hi : named classes i
  · simp only [bit_clause, apply_eq, if_pos hi]
  · simp only [bit_clause, if_neg hi, List.foldl_fixed]

theorem withBits_inj {m : Mode} {f g : Fin 3 → Fin 4 → Bool} :
    withBits m f = withBits m g ↔ ∀ i j, pos i j < 32 → f i j = g i j := by
  refine ⟨fun h i j hpos => ?_, withBits_congr⟩
  rw [← has_withBits (m := m) (f := f) hpos, h, has_withBits hpos]

theorem setBy_append : setBy j (acts ++ [last]) = (last.sets j).or (setBy j acts) := by
  rw [setBy, List.foldl_append]
  rfl

/-- When the last action makes the same of a bit as all of them. -/
theorem sets_eq_iff : (if classes ≠ [] ∧ named classes i then (last.sets j).getD b else b) =
      (if named classes i then (setBy j (acts ++ [last])).getD b else b) ↔
    (named classes i → classes = [] ∨ last.sets j = none →
      ∀ v ∈ setBy j (acts ++ [last]), b = v) := by
  by_cases hi : named classes i
  · rw [setBy_append]
    by_cases hc : classes = []
    · cases hv : (last.sets j).or (setBy j acts) <;> simp [hc]
    · cases hlast : last.sets j with
      | none => cases hv : setBy j acts <;> simp [hi, hc]
      | some v => simp [hc]
  · simp [hi]

theorem comma_not_mem_actionsText : ',' ∉ actionsText classes acts := by
  rw [actionsText, List.mem_append, List.mem_flatMap]
  rintro (hc | ⟨a, -, ha⟩)
  · exact comma_not_mem_text (.symbolic classes .add []) (List.mem_append_left _ hc)
  · exact comma_not_mem_text (.symbolic [] a.1 a.2) ha

/-- What `process_mode_list` makes of a clause of several operators. -/
theorem processModeList_actions :
    processModeList (actionsText classes (first :: mid ++ [last])) st =
      .ok (withBits st fun i j =>
        if classes ≠ [] ∧ named classes i then (last.sets j).getD (has st i j) else has st i j) := by
  have hone : [','].intercalate [actionsText classes (first :: mid ++ [last])] = _ :=
    List.intercalate_singleton
  rw [← hone]
  refine processModeList_eq
    (h := fun i j x => if classes ≠ [] ∧ named classes i then (last.sets j).getD x else x)
    (List.cons_ne_nil _ _) ?_ fun bits => ?_
  · intro t ht
    rw [List.mem_singleton.mp ht]
    exact comma_not_mem_actionsText
  · obtain ⟨bits', hmode, hbits⟩ := applyMode_actions bits
    refine ⟨bits', ?_, hbits⟩
    rw [List.foldlM_cons, hmode]
    rfl

/-- What it makes of the list of their clauses. -/
theorem processModeList_clauses (hacts : acts ≠ []) :
    processModeList (listText (acts.map (Action.clause classes))) st =
      .ok (withBits st fun i j =>
        if named classes i then (setBy j acts).getD (has st i j) else has st i j) := by
  rw [listText]
  refine (processModeList_eq (by simpa using hacts) ?_ (foldlM_clauses _)).trans ?_
  · intro t ht
    obtain ⟨c, -, rfl⟩ := List.mem_map.mp ht
    exact comma_not_mem_text c
  · simp only [foldl_bit_clause]

/-- A clause of several operators yields what the list of their clauses yields exactly when the
operators before the last change nothing that it does not determine. -/
theorem actions_sequence_iff (classes : List (Option (Fin 3))) (first : Action) (mid : List Action)
    (last : Action) (st : Mode) :
    processModeList (actionsText classes (first :: mid ++ [last])) st =
        processModeList (listText ((first :: mid ++ [last]).map (Action.clause classes))) st ↔
      Redundant classes first mid last st := by
  rw [processModeList_actions, processModeList_clauses (by simp), Except.ok.injEq, withBits_inj]
  refine ⟨fun h i hi j hpos => ?_, fun h i j hpos => ?_⟩
  · exact sets_eq_iff.mp (h i j hpos) hi
  · exact sets_eq_iff.mpr fun hi => h i hi j hpos

/-- `u+r+w` gives the user of a file without permissions the second one only. -/
theorem first_operator_lost :
    processModeList (actionsText [some 0] [(.add, [0]), (.add, [1])]) 0 = .ok 0o200#32 ∧
      processModeList (listText ([(.add, [0]), (.add, [1])].map (Action.clause [some 0]))) 0 =
        .ok 0o600#32 := by decide

end Chmod

end Ulsp
