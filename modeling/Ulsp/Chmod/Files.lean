import Ulsp.Chmod.Recursive

/-!
# A symbolic mode on many files

For each file `process_mode_list` reads the mode list anew, from the file's own mode. Whether it can be
read depends on the list alone: the bits decide what is passed to `chmod`, but not what is an error. So
the first file that `stat` gets the attributes of ends the program, or none does.

A path of too many components `stat` does not take. What is printed is not part of the model, and what
printing does to the state belongs to the call before it.
-/

namespace Ulsp

namespace Chmod

/-! ## The files -/

/-- The library calls. -/
structure Sys (σ : Type) extends Libc σ where
  /-- `st_mode`; `none` is a failure. -/
  stat : Path → σ → Option Mode × σ
  /-- Whether it is a failure. -/
  chmod : Path → Mode → σ → Bool × σ
  /-- How many components the kernel takes in a path after the operand. -/
  pathMax : ℕ

/-- `S_ISDIR`. -/
def isDir (m : Mode) : Bool := m &&& 0o170000#32 = 0o040000#32

/-- The calls of `chmod`. -/
abbrev Calls := List (Path × Mode)

section
variable {σ : Type}

/-- The library calls on a directory, when the calls of `chmod` are kept beside the state. -/
def Libc.withCalls (libc : Libc σ) : Libc (σ × Calls) where
  errno s := libc.errno s.1
  opendir cur s := ((libc.opendir cur s.1).1, (libc.opendir cur s.1).2, s.2)
  readdir cur name s := (libc.readdir cur name s.1, s.2)
  readdirEnd cur s := ((libc.readdirEnd cur s.1).1, (libc.readdirEnd cur s.1).2, s.2)
  closedir cur s := ((libc.closedir cur s.1).1, (libc.closedir cur s.1).2, s.2)
  errno_end cur s := libc.errno_end cur s.1
  errno_fail cur s := libc.errno_fail cur s.1

/-- `process_mode_list`, on a path that may get `room` more components. -/
def processFile (sys : Sys σ) (Rflag : Bool) (modeList : List Char) :
    ℕ → Path → σ × Calls → Except Stop Bool × (σ × Calls)
  | 0, _, s => (.ok false, s)
  | room + 1, file, (s, calls) =>
    match sys.stat file s with
    | (none, s) => (.ok false, (s, calls))
    | (some st, s) =>
      match processModeList modeList st with
      | .error e => (.error e, (s, calls))
      | .ok m =>
        let s := ((sys.chmod file m s).2, calls ++ [(file, m)])
        if isDir m && Rflag then
          (doRecursive sys.withCalls (processFile sys Rflag modeList room) file s).1
        else (.ok true, s)

/-- The loop of `main` over the operands. -/
def processFiles (sys : Sys σ) (Rflag : Bool) (modeList : List Char) :
    List Path → Bool → σ × Calls → Except Stop Bool × (σ × Calls)
  | [], ok, s => (.ok ok, s)
  | file :: files, ok, s =>
    match processFile sys Rflag modeList sys.pathMax file s with
    | (.error e, s) => (.error e, s)
    | (.ok b, s) => processFiles sys Rflag modeList files (ok && b) s

/-- `stat` gets the attributes of a file. -/
def Sys.Gets (sys : Sys σ) (room : ℕ) (file : Path) (s : σ) : Prop :=
  0 < room ∧ (sys.stat file s).1.isSome

end

/-! ## What an error depends on -/

section
variable {α β γ δ : Type} {r r' : Except Stop α} {f f' : α → Except Stop β} {p : α → γ} {q : β → δ}
  {bits bits' : Bits} {text after : List Char} {fs : Fin 3 → Bool} {st st' : Mode}
  {modeList : List Char}

/-- Two computations that end alike, and then two that do, if what they continue with is alike. -/
theorem map_bind_congr (h : r.map p = r'.map p)
    (hf : ∀ a a', p a = p a' → (f a).map q = (f' a').map q) : (r >>= f).map q = (r' >>= f').map q := by
  cases r with
  | error e =>
    cases r' with
    | error e' => cases h; rfl
    | ok a' => cases h
  | ok a =>
    cases r' with
    | error e' => cases h
    | ok a' => exact hf a a' (Except.ok.inj h)

/-- The text that a pass leaves does not depend on the bits. -/
theorem readAction_alike :
    (readAction after bits text).map Prod.snd = (readAction after bits' text).map Prod.snd := by
  unfold readAction
  split
  · split <;> rfl
  · rfl

theorem assign_alike {c : Char} {m m' : Mode} :
    (assign fs c m bits).map (fun _ => ()) = (assign fs c m' bits').map fun _ => () := by
  unfold assign
  split
  · rfl
  · split <;> rfl

theorem permLoop_alike {passes : ℕ} : (permLoop fs after passes text bits).map (fun _ => ()) =
    (permLoop fs after passes text bits').map fun _ => () := by
  induction passes generalizing text bits bits' with
  | zero => rfl
  | succ passes ih =>
    cases text with
    | nil => rfl
    | cons c text =>
      refine map_bind_congr readAction_alike ?_
      rintro ⟨m, rest⟩ ⟨m', rest'⟩ hrest
      obtain rfl : rest = rest' := hrest
      exact map_bind_congr assign_alike fun _ _ _ => ih

theorem applyMode_alike :
    (applyMode bits text).map (fun _ => ()) = (applyMode bits' text).map fun _ => () := by
  unfold applyMode
  split
  · rfl
  · split
    · split
      · rfl
      · exact map_bind_congr (p := id) rfl fun _ _ _ => rfl
    · exact permLoop_alike

/-- How reading a mode list ends does not depend on the mode of the file. -/
theorem processModeList_alike (modeList : List Char) (st st' : Mode) :
    (processModeList modeList st).map (fun _ => ()) =
    (processModeList modeList st').map fun _ => () := by
  have hmodes : ∀ (texts : List (List Char)) bits bits',
      (texts.foldlM applyMode bits).map (fun _ => ()) =
        (texts.foldlM applyMode bits').map fun _ => () := by
    intro texts
    induction texts with
    | nil => exact fun _ _ => rfl
    | cons text texts ih =>
      intro bits bits'
      rw [List.foldlM_cons, List.foldlM_cons]
      exact map_bind_congr applyMode_alike fun _ _ _ => ih _ _
  exact map_bind_congr (hmodes _ _ _) fun _ _ _ => rfl

/-- A mode list that cannot be read for one file can be for none. -/
theorem processModeList_error {e : Stop} (h : processModeList modeList st = .error e) :
    processModeList modeList st' = .error e := by
  have halike := processModeList_alike modeList st st'
  rw [h] at halike
  cases hst' : processModeList modeList st' with
  | error e' => rw [hst'] at halike; cases halike; rfl
  | ok m => rw [hst'] at halike; cases halike

end

/-! ## What an error leaves -/

section
variable {σ : Type} {sys : Sys σ} {Rflag : Bool} {modeList : List Char} {room : ℕ} {file cur : Path}
  {files : List Path} {s : σ × Calls} {ok : Bool} {e : Stop}

/-- A traversal with a function that returns comes to its end. -/
theorem doRecursive_ok {libc : Libc σ} {func : Path → σ → Except Stop Bool × σ} {s : σ}
    (hfunc : ∀ file s, ∃ b, (func file s).1 = .ok b) :
    ∃ b, (doRecursive libc func cur s).1.1 = .ok b := by
  choose b hb using hfunc
  have hreturns : func = returns fun file s => (b file s, (func file s).2) := by
    funext file s
    rw [returns, ← hb]
  rw [hreturns, doRecursive]
  split
  · exact ⟨false, rfl⟩
  · rename_i names s₀ _
    obtain ⟨acts, hrun, -⟩ :=
      eachEntry_returns libc (fun file s => (b file s, (func file s).2)) cur names true s₀
    simp only [hrun]
    split
    · exact ⟨false, rfl⟩
    · split
      · exact ⟨false, rfl⟩
      · exact ⟨_, rfl⟩

/-- With a mode list that can be read each file comes to its end. -/
theorem processFile_ok (sys : Sys σ) (Rflag : Bool) (room : ℕ) (file : Path) (s : σ × Calls)
    (h : ∀ st, ∃ m, processModeList modeList st = .ok m) :
    ∃ b, (processFile sys Rflag modeList room file s).1 = .ok b := by
  induction room generalizing file s with
  | zero => exact ⟨false, rfl⟩
  | succ room ih =>
    obtain ⟨s, calls⟩ := s
    rw [processFile]
    split
    · exact ⟨false, rfl⟩
    · rename_i st s _
      obtain ⟨m, hm⟩ := h st
      simp only [hm]
      split
      · exact doRecursive_ok ih
      · exact ⟨true, rfl⟩

/-- With one that cannot be read no file gets a call, and it is an error for each that `stat` gets. -/
theorem processFile_error (sys : Sys σ) (Rflag : Bool) (room : ℕ) (file : Path) (s : σ × Calls)
    (h : ∀ st, processModeList modeList st = .error e) :
    (processFile sys Rflag modeList room file s).2.2 = s.2 ∧
      ∀ e', (processFile sys Rflag modeList room file s).1 = .error e' ↔
        e = e' ∧ sys.Gets room file s.1 := by
  cases room with
  | zero => exact ⟨rfl, fun _ => iff_of_false nofun fun hgets => lt_irrefl 0 hgets.2.1⟩
  | succ room =>
    obtain ⟨s, calls⟩ := s
    have hgets : sys.Gets (room + 1) file s ↔ (sys.stat file s).1.isSome :=
      and_iff_right (Nat.succ_pos room)
    simp only [hgets, processFile]
    cases hstat : sys.stat file s with
    | mk st s₁ =>
      cases st with
      | none => simp
      | some st => simp [h]

theorem processFiles_ok (sys : Sys σ) (Rflag : Bool) (files : List Path) (ok : Bool) (s : σ × Calls)
    (h : ∀ st, ∃ m, processModeList modeList st = .ok m) :
    ∃ b, (processFiles sys Rflag modeList files ok s).1 = .ok b := by
  induction files generalizing ok s with
  | nil => exact ⟨ok, rfl⟩
  | cons file files ih =>
    rw [processFiles]
    obtain ⟨b, hb⟩ := processFile_ok sys Rflag sys.pathMax file s h
    split
    · rename_i hrun
      rw [hrun] at hb
      cases hb
    · exact ih _ _

theorem processFiles_error (h : ∀ st, processModeList modeList st = .error e) :
    (processFiles sys Rflag modeList files ok s).2.2 = s.2 := by
  induction files generalizing ok s with
  | nil => rfl
  | cons file files ih =>
    obtain ⟨hcalls, -⟩ := processFile_error sys Rflag sys.pathMax file s h
    rw [processFiles]
    split
    · rename_i hrun
      rw [hrun] at hcalls
      exact hcalls
    · rename_i hrun
      rw [hrun] at hcalls
      exact ih.trans hcalls

end

/-- Whether a mode list is invalid depends on the list alone: a file ends in `mode_error` exactly when
it is and `stat` gets the file; and a run that ends so has made no call of `chmod`. -/
theorem invalid_changes_nothing (modeList : List Char) : ∃ invalid : Prop,
    (∀ (σ : Type) (sys : Sys σ) (Rflag : Bool) (room : ℕ) (file : Path) (s : σ × Calls),
      (processFile sys Rflag modeList room file s).1 = .error .modeError ↔
        invalid ∧ sys.Gets room file s.1) ∧
    ∀ (σ : Type) (sys : Sys σ) (Rflag : Bool) (files : List Path) (s : σ),
      (processFiles sys Rflag modeList files true (s, [])).1 = .error .modeError →
        (processFiles sys Rflag modeList files true (s, [])).2.2 = [] := by
  cases h : processModeList modeList 0 with
  | error e =>
    have herror : ∀ st, processModeList modeList st = .error e := fun st => processModeList_error h
    refine ⟨e = .modeError, ?_, fun σ sys Rflag files s _ => processFiles_error herror⟩
    intro σ sys Rflag room file s
    exact (processFile_error sys Rflag room file s herror).2 .modeError
  | ok m =>
    have hok : ∀ st, ∃ m, processModeList modeList st = .ok m := by
      intro st
      cases hst : processModeList modeList st with
      | error e => rw [processModeList_error hst] at h; cases h
      | ok m => exact ⟨m, rfl⟩
    refine ⟨False, ?_, ?_⟩
    · intro σ sys Rflag room file s
      obtain ⟨b, hb⟩ := processFile_ok sys Rflag room file s hok
      rw [hb]
      exact iff_of_false nofun fun hgets => hgets.1
    · intro σ sys Rflag files s hrun
      obtain ⟨b, hb⟩ := processFiles_ok sys Rflag files true (s, []) hok
      rw [hb] at hrun
      cases hrun

/-- A regular file `b`, and nothing else. -/
def onlyB : Sys Unit where
  errno _ := 0
  opendir _ s := (none, s)
  readdir _ _ s := s
  readdirEnd _ s := (false, s)
  closedir _ s := (false, s)
  errno_end _ _ _ := rfl
  errno_fail _ _ h := nomatch h
  stat file s := (if file = ['b'] then some 0o100644#32 else none, s)
  chmod _ _ s := (false, s)
  pathMax := 1

/-- `z` is no mode, but for a file that is missing this is not found out. -/
theorem missing_not_error :
    (processFile onlyB false ['z'] 1 ['a'] ((), [])).1 = .ok false ∧
      (processFile onlyB false ['z'] 1 ['b'] ((), [])).1 = .error .modeError := ⟨rfl, rfl⟩

end Chmod

end Ulsp
