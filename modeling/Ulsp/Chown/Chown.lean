import Mathlib.Data.List.Perm.Basic
import Mathlib.Logic.Function.Basic

/-!
# `chown -R` (`cmd/src/chown.c`)

`chown_file` gets the attributes of a file, changes its owner, and calls itself on the entries of a
directory. Both `stat` and `chown` follow a symbolic link, so a link to a directory is entered like a
directory.

A file system is a graph of objects; following a symbolic link leads to an object, or nowhere. What
the system calls do beyond that is a parameter: which of them fail, in what order `readdir` gives the
entries of a directory, and how many components the kernel takes in a path. What is printed is not
part of the model.
-/

namespace Ulsp

namespace Chown

variable {Obj : Type}

/-- A directory entry. -/
structure Entry (Obj : Type) where
  name : List Char
  node : Obj
  deriving DecidableEq

/-- An entry that is not `.` or `..`. -/
def Entry.proper (e : Entry Obj) : Bool := e.name ≠ ['.'] ∧ e.name ≠ ['.', '.']

inductive Kind (Obj : Type)
  | file
  | dir (entries : List (Entry Obj))
  | link (target : Option Obj)

/-- A file system. -/
structure Fs (Obj : Type) where
  kind : Obj → Kind Obj

/-- The object that a path leads to whose last component is the object `o`. -/
def Fs.follow (fs : Fs Obj) (o : Obj) : Option Obj :=
  match fs.kind o with
  | .link target => target
  | _ => some o

/-- What the system calls do with a path, which is given by its components after the operand, the
last one first. -/
structure Sys (fs : Fs Obj) where
  statFails : List (List Char) → Bool
  chownFails : List (List Char) → Bool
  opendirFails : List (List Char) → Bool
  closedirFails : List (List Char) → Bool
  readdir : List (List Char) → Obj → List (Entry Obj)
  readdir_perm : ∀ path d entries, fs.kind d = .dir entries → (readdir path d).Perm entries
  pathMax : ℕ

structure Owner where
  uid : ℕ
  gid : ℕ
  deriving DecidableEq

/-- The command line; an id that is -1 in the code is `none`. -/
structure Options where
  Rflag : Bool
  owner : Option ℕ
  group : Option ℕ
  fromOwner : Option ℕ
  fromGroup : Option ℕ

/-- A file that `--from` leaves out. -/
def Options.skips (opts : Options) (o : Owner) : Bool :=
  opts.fromOwner.any (· ≠ o.uid) || opts.fromGroup.any (· ≠ o.gid)

/-- What `chown` makes of the owner. -/
def Options.change (opts : Options) (o : Owner) : Owner :=
  ⟨opts.owner.getD o.uid, opts.group.getD o.gid⟩

/-- The owners of all objects. -/
abbrev Owners (Obj : Type) := Obj → Owner

/-- The loop over the entries of a directory, by what is done with each; `none` is a call that does
not return. -/
def eachEntry (call : Entry Obj → Owners Obj → Owners Obj × Option Bool) :
    List (Entry Obj) → Owners Obj → Bool → Owners Obj × Option Bool
  | [], own, ok => (own, some ok)
  | e :: entries, own, ok =>
    if e.proper then
      match call e own with
      | (own, some ok') => eachEntry call entries own (ok && ok')
      | (own, none) => (own, none)
    else eachEntry call entries own ok

/-- `chown_file`, on a path that may get `room` more components: the owners after it, and what it
returns. It does not return when `stat` fails, which ends the program. `closedir` of the null pointer
that a failing `opendir` leaves fails too. -/
def chownFile [DecidableEq Obj] (fs : Fs Obj) (sys : Sys fs) (opts : Options) :
    ℕ → List (List Char) → Obj → Owners Obj → Owners Obj × Option Bool
  | 0, _, _, own => (own, none)
  | room + 1, path, o, own =>
    match if sys.statFails path then none else fs.follow o with
    | none => (own, none)
    | some x =>
      if opts.skips (own x) then (own, some true)
      else if sys.chownFails path then (own, some false)
      else
        let own := Function.update own x (opts.change (own x))
        match fs.kind x with
        | .dir _ =>
          if opts.Rflag then
            if sys.opendirFails path then (own, some false)
            else
              let (own, ok) := eachEntry
                (fun e => chownFile fs sys opts room (e.name :: path) e.node)
                (sys.readdir path x) own true
              (own, ok.map (· && !sys.closedirFails path))
          else (own, some true)
        | _ => (own, some true)

/-- The owners after `chown` of an operand. -/
def run [DecidableEq Obj] (fs : Fs Obj) (sys : Sys fs) (opts : Options) (operand : Obj)
    (own : Owners Obj) : Owners Obj :=
  (chownFile fs sys opts sys.pathMax [] operand own).1

/-! ## What a call may do -/

section
variable {fs : Fs Obj} {sys : Sys fs} {opts : Options} {own : Owners Obj}
  {R : Owners Obj → Owners Obj → Prop} {I : Obj → Prop} {o : Obj} {room : ℕ}
  {path : List (List Char)}

/-- A relation that the calls keep, the loop over the entries keeps. -/
theorem eachEntry_rel {call : Entry Obj → Owners Obj → Owners Obj × Option Bool}
    (hrefl : ∀ own, R own own) (htrans : ∀ a b c, R a b → R b c → R a c)
    {entries : List (Entry Obj)} (hcall : ∀ e ∈ entries, e.proper → ∀ own, R own (call e own).1)
    {ok : Bool} : R own (eachEntry call entries own ok).1 := by
  induction entries generalizing own ok with
  | nil => exact hrefl own
  | cons e entries ih =>
    obtain ⟨he, hentries⟩ := List.forall_mem_cons.mp hcall
    rw [eachEntry]
    split
    · rename_i hproper
      have hfirst := he hproper own
      split
      · rename_i hr
        rw [hr] at hfirst
        exact htrans _ _ _ hfirst (ih hentries)
      · rename_i hr
        rw [hr] at hfirst
        exact hfirst
    · exact ih hentries

/-- A relation that each change of an owner keeps, a call keeps: `I` is what the call may be made
on. -/
theorem chownFile_rel [DecidableEq Obj] (hrefl : ∀ own, R own own)
    (htrans : ∀ a b c, R a b → R b c → R a c)
    (hchange : ∀ o x, I o → fs.follow o = some x → ∀ own,
      R own (Function.update own x (opts.change (own x))))
    (hentry : ∀ o x entries, I o → fs.follow o = some x → fs.kind x = .dir entries →
      ∀ e ∈ entries, e.proper → I e.node) (ho : I o) :
    R own (chownFile fs sys opts room path o own).1 := by
  induction room generalizing path o own with
  | zero => exact hrefl own
  | succ room ih =>
    rw [chownFile]
    split
    · exact hrefl own
    · rename_i x hstat
      have hx : fs.follow o = some x := by
        split at hstat
        · cases hstat
        · exact hstat
      split
      · exact hrefl own
      · split
        · exact hrefl own
        · have hfirst := hchange o x ho hx own
          split
          · rename_i entries hkind
            split
            · split
              · exact hfirst
              · refine htrans _ _ _ hfirst (eachEntry_rel hrefl htrans ?_)
                intro e he hproper own
                have hmem := (sys.readdir_perm path x entries hkind).mem_iff.mp he
                exact ih (hentry o x entries ho hx hkind e hmem hproper)
            · exact hfirst
          · exact hfirst
end

end Chown

end Ulsp
