import Ulsp.Chmod.Chmod

/-!
# The traversal of a directory (`do_recursive`)

`do_recursive` calls a function on each entry of a directory but `.` and `..`. That `readdir` gives no
entry means the end of the directory or an error, and only `errno` tells which. The code looks at
`errno` without setting it to zero before, so what it finds at the end may be left from any call before
that; and if it takes it for an error, or `closedir` fails, it returns without its `free`.

The state is that of everything the library and the function called may read or change. A path that
`opendir` takes is shorter than the buffer by far more than the longest name, so the buffer does not
overflow.
-/

namespace Ulsp

namespace Chmod

abbrev Path := List Char

/-- The library calls on a directory. -/
structure Libc (σ : Type) where
  errno : σ → ℤ
  /-- The entries of the directory; `none` is a failure. -/
  opendir : Path → σ → Option (List (List Char)) × σ
  /-- `readdir` when it gives an entry. -/
  readdir : Path → List Char → σ → σ
  /-- `readdir` when it gives none, and whether that is a failure. -/
  readdirEnd : Path → σ → Bool × σ
  /-- Whether it is a failure. -/
  closedir : Path → σ → Bool × σ
  errno_end : ∀ cur s, (readdirEnd cur s).1 = false → errno (readdirEnd cur s).2 = errno s
  errno_fail : ∀ cur s, (readdirEnd cur s).1 = true → errno (readdirEnd cur s).2 ≠ 0

/-- What `do_recursive` does besides reading the directory. -/
inductive Act
  | call (file : Path) (returned : Except Stop Bool)
  | closedir
  | free
  deriving DecidableEq

/-- An entry that is not `.` or `..`. -/
def proper (name : List Char) : Bool := name ≠ ['.'] ∧ name ≠ ['.', '.']

/-- The name of a file in the directory. -/
def childFile (cur : Path) (name : List Char) : Path :=
  if cur.getLast? = some '/' then cur ++ name else cur ++ '/' :: name

section
variable {σ : Type}

/-- The loop over the entries. -/
def eachEntry (libc : Libc σ) (func : Path → σ → Except Stop Bool × σ) (cur : Path) :
    List (List Char) → Bool → σ → (Except Stop Bool × σ) × List Act
  | [], ok, s => ((.ok ok, s), [])
  | name :: names, ok, s =>
    let s := libc.readdir cur name s
    if proper name then
      match func (childFile cur name) s with
      | (.error e, s) => ((.error e, s), [.call (childFile cur name) (.error e)])
      | (.ok b, s) =>
        let (r, acts) := eachEntry libc func cur names (ok && b) s
        (r, .call (childFile cur name) (.ok b) :: acts)
    else eachEntry libc func cur names ok s

/-- `do_recursive`: what it returns, unless the function ends the program, and what it does. -/
def doRecursive (libc : Libc σ) (func : Path → σ → Except Stop Bool × σ) (cur : Path) (s : σ) :
    (Except Stop Bool × σ) × List Act :=
  match libc.opendir cur s with
  | (none, s) => ((.ok false, s), [])
  | (some names, s) =>
    match eachEntry libc func cur names true s with
    | ((.error e, s), acts) => ((.error e, s), acts)
    | ((.ok ok, s), acts) =>
      let (_, s) := libc.readdirEnd cur s
      if libc.errno s ≠ 0 then ((.ok false, s), acts)
      else
        let (failed, s) := libc.closedir cur s
        if failed then ((.ok false, s), acts ++ [.closedir])
        else ((.ok ok, s), acts ++ [.closedir, .free])

/-! ## A function that returns -/

/-- A function that does not end the program. -/
def returns (func : Path → σ → Bool × σ) (file : Path) (s : σ) : Except Stop Bool × σ :=
  (.ok (func file s).1, (func file s).2)

/-- The state when all entries are read and the function has been called on them. -/
def afterEntries (libc : Libc σ) (func : Path → σ → Bool × σ) (cur : Path)
    (names : List (List Char)) (s : σ) : σ :=
  names.foldl (fun s name =>
    if proper name then (func (childFile cur name) (libc.readdir cur name s)).2
    else libc.readdir cur name s) s

/-- The file of a call. -/
def Act.file? : Act → Option Path
  | .call file _ => some file
  | _ => none

/-- That a call, if it is one, returned true. -/
def Act.good : Act → Bool
  | .call _ r => r = .ok true
  | _ => true

@[simp]
theorem good_closedir : Act.closedir.good = true := rfl

@[simp]
theorem good_free : Act.free.good = true := rfl

/-- What a traversal is to do and to return, by the state it reads the directory from: the function is
called exactly once on each entry but `.` and `..`, it returns true exactly when each call did and
neither `readdir` nor `closedir` failed, and the directory is closed and the buffer freed. -/
structure Traversed (libc : Libc σ) (func : Path → σ → Bool × σ) (cur : Path)
    (names : List (List Char)) (s : σ) (r : Except Stop Bool) (acts : List Act) : Prop where
  once : acts.filterMap Act.file? = (names.filter proper).map (childFile cur)
  result : r = .ok true ↔ (∀ act ∈ acts, act.good) ∧
    (libc.readdirEnd cur (afterEntries libc func cur names s)).1 = false ∧
    (libc.closedir cur (libc.readdirEnd cur (afterEntries libc func cur names s)).2).1 = false
  closed : acts.count .closedir = 1
  freed : acts.count .free = 1

variable {libc : Libc σ} {func : Path → σ → Bool × σ} {cur : Path} {names : List (List Char)}
  {s : σ} {ok : Bool} {acts : List Act} {r : Except Stop Bool}

/-- The loop calls the function on each entry, and comes to its end. -/
theorem eachEntry_returns (libc : Libc σ) (func : Path → σ → Bool × σ) (cur : Path)
    (names : List (List Char)) (ok : Bool) (s : σ) : ∃ acts,
    eachEntry libc (returns func) cur names ok s =
      ((.ok (ok && acts.all Act.good), afterEntries libc func cur names s), acts) ∧
    acts.filterMap Act.file? = (names.filter proper).map (childFile cur) ∧
    .closedir ∉ acts ∧ .free ∉ acts := by
  induction names generalizing ok s with
  | nil => exact ⟨[], by simp [eachEntry, afterEntries], rfl, by simp, by simp⟩
  | cons name names ih =>
    rw [eachEntry, afterEntries, List.foldl_cons, ← afterEntries]
    by_cases hname : proper name
    · obtain ⟨acts, hrun, honce, hclosed, hfree⟩ :=
        ih (ok && (func (childFile cur name) (libc.readdir cur name s)).1)
          (func (childFile cur name) (libc.readdir cur name s)).2
      refine ⟨.call (childFile cur name)
        (.ok (func (childFile cur name) (libc.readdir cur name s)).1) :: acts, ?_, ?_, ?_, ?_⟩
      · simp only [hname, if_true, returns, hrun, List.all_cons, Act.good, Except.ok.injEq,
          Bool.decide_eq_true, Bool.and_assoc]
      · rw [List.filterMap_cons, Act.file?, List.filter_cons_of_pos hname, List.map_cons, honce]
      · simp [hclosed]
      · simp [hfree]
    · rw [if_neg hname, if_neg hname, List.filter_cons_of_neg hname]
      exact ih ok _

/-- Where the entries end, `errno` is zero if it was, and `readdir` does not fail. -/
theorem Libc.errno_end_iff (libc : Libc σ) : libc.errno (libc.readdirEnd cur s).2 = 0 ↔
    libc.errno s = 0 ∧ (libc.readdirEnd cur s).1 = false := by
  cases hr : (libc.readdirEnd cur s).1 with
  | false => rw [libc.errno_end cur s hr, and_iff_left rfl]
  | true => exact iff_of_false (libc.errno_fail cur s hr) fun h => Bool.noConfusion h.2

/-- A traversal that returns without closing the directory. -/
theorem not_traversed_open (hclosed : .closedir ∉ acts) : ¬ Traversed libc func cur names s r acts := by
  intro h
  have hcount := h.closed
  rw [List.count_eq_zero.mpr hclosed] at hcount
  cases hcount

/-- A traversal that returns without freeing the buffer. -/
theorem not_traversed_unfreed (hfree : .free ∉ acts) :
    ¬ Traversed libc func cur names s r (acts ++ [.closedir]) := by
  intro h
  have hcount := h.freed
  rw [List.count_append, List.count_eq_zero.mpr hfree] at hcount
  exact absurd hcount (by decide)

/-- A traversal that comes to its end. -/
theorem traversed_end (honce : acts.filterMap Act.file? = (names.filter proper).map (childFile cur))
    (hclosed : .closedir ∉ acts) (hfree : .free ∉ acts)
    (hread : (libc.readdirEnd cur (afterEntries libc func cur names s)).1 = false)
    (hclose : (libc.closedir cur
      (libc.readdirEnd cur (afterEntries libc func cur names s)).2).1 = false) :
    Traversed libc func cur names s (.ok (acts.all Act.good)) (acts ++ [.closedir, .free]) where
  once := by rw [List.filterMap_append, honce]; exact List.append_nil _
  result := by simp [hread, hclose, or_imp, forall_and]
  closed := by simp [List.count_eq_zero.mpr hclosed]
  freed := by simp [List.count_eq_zero.mpr hfree]

/-- The traversal does and returns what it is to exactly when `errno` is zero where the entries end,
and neither `readdir` nor `closedir` fails. -/
theorem traversal_iff (libc : Libc σ) (func : Path → σ → Bool × σ) (cur : Path) (s s₀ : σ)
    (names : List (List Char)) (hopen : libc.opendir cur s = (some names, s₀)) :
    Traversed libc func cur names s₀ (doRecursive libc (returns func) cur s).1.1
        (doRecursive libc (returns func) cur s).2 ↔
      libc.errno (afterEntries libc func cur names s₀) = 0 ∧
        (libc.readdirEnd cur (afterEntries libc func cur names s₀)).1 = false ∧
        (libc.closedir cur
          (libc.readdirEnd cur (afterEntries libc func cur names s₀)).2).1 = false := by
  obtain ⟨acts, hrun, honce, hclosed, hfree⟩ := eachEntry_returns libc func cur names true s₀
  rw [doRecursive, hopen, ← and_assoc, ← libc.errno_end_iff]
  simp only [hrun, Bool.true_and]
  by_cases herrno : libc.errno (libc.readdirEnd cur (afterEntries libc func cur names s₀)).2 = 0
  · rw [if_neg (not_not.mpr herrno), and_iff_right herrno]
    cases hc : (libc.closedir cur
        (libc.readdirEnd cur (afterEntries libc func cur names s₀)).2).1 with
    | true => exact iff_of_false (not_traversed_unfreed hfree) Bool.noConfusion
    | false =>
      have hread := (libc.errno_end_iff.mp herrno).2
      exact iff_of_true (traversed_end honce hclosed hfree hread hc) rfl
  · rw [if_pos herrno]
    exact iff_of_false (not_traversed_open hclosed) fun h => herrno h.1

/-! ## A traversal that goes wrong -/

/-- A directory with a file; the state is `errno`, and no call but the one on the file changes it. -/
def oneFile : Libc ℤ where
  errno s := s
  opendir _ s := (some [['.'], ['.', '.'], ['f']], s)
  readdir _ _ s := s
  readdirEnd _ s := (false, s)
  closedir _ s := (false, s)
  errno_end _ _ _ := rfl
  errno_fail _ _ h := nomatch h

theorem traversal_oneFile : Traversed oneFile (fun _ s => (true, s)) ['d'] [['.'], ['.', '.'], ['f']] 0
    (doRecursive oneFile (returns fun _ s => (true, s)) ['d'] 0).1.1
    (doRecursive oneFile (returns fun _ s => (true, s)) ['d'] 0).2 :=
  (traversal_iff oneFile (fun _ s => (true, s)) ['d'] 0 0 _ rfl).mpr ⟨rfl, rfl, rfl⟩

/-- The function returns true and leaves 25 in `errno`, as printing to what is no terminal does:
`do_recursive` takes it for an error of `readdir` and leaves the directory open. -/
theorem stale_errno :
    ¬ Traversed oneFile (fun _ _ => (true, 25)) ['d'] [['.'], ['.', '.'], ['f']] 0
      (doRecursive oneFile (returns fun _ _ => (true, 25)) ['d'] 0).1.1
      (doRecursive oneFile (returns fun _ _ => (true, 25)) ['d'] 0).2 :=
  fun h => absurd h.closed (by decide)

end

end Chmod

end Ulsp
