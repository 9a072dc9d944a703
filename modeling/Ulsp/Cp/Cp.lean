import Mathlib.Data.List.Basic
import Mathlib.Logic.Function.Basic
import Ulsp.Lib.Fuel

/-!
# `cp` (`cmd/src/cp.c`)

`cp` opens the destination for writing, and creates it where that fails. A destination that was opened
is overwritten from its beginning and keeps what is behind the end of the source: `copies_iff`. Files
are regular, may be read and written, and may have more than one name, so that the source and the
destination may be one file. What is printed is left out, as is a `close` that fails, which changes
nothing else.
-/

namespace Ulsp

open Lib

namespace Cp

/-- `BUFFSIZE`. -/
def BUFFSIZE : ℕ := 1024

/-- A file name. -/
abbrev Name := List Char

/-- The files: the inodes that names stand for, and what is in them. The inodes from `unused` on have
no name. -/
structure Fs where
  inode : Name → Option ℕ
  contents : ℕ → List UInt8
  unused : ℕ
  lt_unused : ∀ name i, inode name = some i → i < unused

/-- What is in the file of a name. -/
def Fs.file (fs : Fs) (name : Name) : Option (List UInt8) := (fs.inode name).map fs.contents

/-- The contents of a file after a `write` at `offset`. -/
def overwrite (offset : ℕ) (bytes old : List UInt8) : List UInt8 :=
  old.take offset ++ bytes ++ old.drop (offset + bytes.length)

/-- `write` of `bytes` at `offset`. -/
def Fs.write (i offset : ℕ) (bytes : List UInt8) (fs : Fs) : Fs :=
  { fs with contents := Function.update fs.contents i (overwrite offset bytes (fs.contents i)) }

/-- `creat`: the inode of the file, which is empty then. -/
def Fs.creat (name : Name) (fs : Fs) : ℕ × Fs :=
  match h : fs.inode name with
  | some i => (i, { fs with contents := Function.update fs.contents i [] })
  | none => (fs.unused,
    { inode := Function.update fs.inode name (some fs.unused)
      contents := Function.update fs.contents fs.unused []
      unused := fs.unused + 1
      lt_unused := by
        intro name' i hi
        rcases eq_or_ne name' name with rfl | hne
        · rw [Function.update_self] at hi
          cases hi
          exact Nat.lt_succ_self _
        · rw [Function.update_of_ne hne] at hi
          exact Nat.lt_succ_of_lt (fs.lt_unused name' i hi) })

/-- What a pass of the loop gets of its calls: how many bytes `read` returns at most, and how many
`write` takes if not all. `none` are an error of `read` and a complete `write`. -/
structure Pass where
  read : Option ℕ
  write : Option ℕ

/-- What the calls return: the answer to the question, whether `creat` fails, and the passes of the
loop. After those, a `read` returns what it is asked for. -/
structure Results where
  answer : Option Char
  creatFails : Bool
  passes : List Pass

/-- The loop that copies, for at most `fuel` passes, from `offset` on in both files: the exit status,
and the files then. A `read` that fails ends the loop too. -/
def copyLoop (inIno outIno : ℕ) : ℕ → List Pass → ℕ → ℕ → Fs → Option (ℕ × Fs)
  | 0, _, _, _, _ => none
  | fuel + 1, passes, inOff, outOff, fs =>
    let pass := passes.head?.getD ⟨some BUFFSIZE, none⟩
    match pass.read with
    | none => some (0, fs)
    | some k =>
      let buf := ((fs.contents inIno).drop inOff).take (min BUFFSIZE (max 1 k))
      if buf = [] then some (0, fs)
      else
        let written := buf.take (pass.write.getD buf.length)
        let fs := fs.write outIno outOff written
        if written.length ≠ buf.length then some (1, fs)
        else copyLoop inIno outIno fuel passes.tail (inOff + buf.length) (outOff + buf.length) fs

/-- What `main` finds in its arguments. -/
structure Args where
  inf : Option Name
  outf : Option Name
  flag : Bool
  deriving DecidableEq, Repr

/-- A pass of the loop over three arguments. -/
def Args.next (a : Args) (arg : Name) : Args :=
  if arg = "-i".toList then { a with flag := true }
  else if a.inf = none then { a with inf := some arg }
  else { a with outf := some arg }

/-- The arguments of the command, without its name. -/
def parse (args : List Name) : Args :=
  match args with
  | [inf, outf] => ⟨some inf, some outf, true⟩
  | [_, _, _] => args.foldl Args.next ⟨none, none, false⟩
  | _ => ⟨none, none, false⟩

/-- `main`, with the exit status. -/
def main (args : List Name) (r : Results) (fs : Fs) (fuel : ℕ) : Option (ℕ × Fs) :=
  let a := parse args
  if a.flag = false then some (1, fs)
  else
    match a.inf.bind fs.inode with
    | none => some (1, fs)
    | some inIno =>
      match a.outf.bind fs.inode with
      | some outIno =>
        if r.answer = some 'Y' ∨ r.answer = some 'y' then copyLoop inIno outIno fuel r.passes 0 0 fs
        else some (0, fs)
      | none =>
        match a.outf with
        | none => some (1, fs)
        | some outf =>
          if r.creatFails then some (1, fs)
          else
            let (outIno, fs) := fs.creat outf
            copyLoop inIno outIno fuel r.passes 0 0 fs

variable {inIno outIno k : ℕ} {src : List UInt8} {passes : List Pass} {fs : Fs}

@[simp]
theorem Fs.write_inode (i n : ℕ) (bytes : List UInt8) (fs : Fs) :
    (fs.write i n bytes).inode = fs.inode := rfl

theorem Fs.write_self (i n : ℕ) (bytes : List UInt8) (fs : Fs) :
    (fs.write i n bytes).contents i = overwrite n bytes (fs.contents i) := Function.update_self ..

theorem Fs.write_of_ne {i j : ℕ} (h : j ≠ i) (n : ℕ) (bytes : List UInt8) (fs : Fs) :
    (fs.write i n bytes).contents j = fs.contents j := Function.update_of_ne h _ _

/-- A file that is created is a new one. -/
theorem Fs.creat_new {name : Name} (h : fs.inode name = none) :
    ∃ fs', fs.creat name = (fs.unused, fs') ∧ fs'.inode name = some fs.unused ∧
      fs'.contents fs.unused = [] ∧ ∀ i < fs.unused, fs'.contents i = fs.contents i := by
  unfold Fs.creat
  split
  · rename_i i hi
    rw [h] at hi
    cases hi
  · exact ⟨_, rfl, Function.update_self .., Function.update_self ..,
      fun i hi => Function.update_of_ne (Nat.ne_of_lt hi) _ _⟩

/-! ## The loop -/

/-- The next bytes of the source go where the first ones end. -/
theorem overwrite_eq (old : List UInt8) (hk : k ≤ src.length) (n : ℕ) :
    overwrite k ((src.drop k).take n) (src.take k ++ old.drop k) =
      src.take (k + ((src.drop k).take n).length) ++ old.drop (k + ((src.drop k).take n).length) := by
  have hlen : (src.take k).length = k := List.length_take_of_le hk
  have hbuf : src.take k ++ (src.drop k).take n = src.take (k + ((src.drop k).take n).length) := by
    rw [List.take_add, List.length_take, ← List.take_eq_take_min]
  have hfront : (src.take k ++ old.drop k).take k = src.take k := List.take_left' hlen
  have hback (m : ℕ) : (src.take k ++ old.drop k).drop (k + m) = old.drop (k + m) := by
    rw [← List.drop_drop, List.drop_left' hlen, List.drop_drop]
  rw [overwrite, hfront, hback, hbuf]

/-- The loop, when `k` bytes are copied, ends with the rest of the source copied too. Where both files
are one, the source stays as it is since it is overwritten with itself. -/
theorem copyLoop_spec (old : List UInt8) (hpasses : ∀ p ∈ passes, p.read ≠ none ∧ p.write = none)
    (hin : fs.contents inIno = src) (hout : fs.contents outIno = src.take k ++ old.drop k)
    (hsame : inIno = outIno → old = src) (hk : k ≤ src.length) : ∃ fs',
    Returns (fun fuel => copyLoop inIno outIno fuel passes k k fs) (0, fs') ∧
      fs'.inode = fs.inode ∧ fs'.contents outIno = src ++ old.drop src.length := by
  induction hm : src.length - k using Nat.strongRecOn generalizing k passes fs with
  | ind m ih =>
    obtain ⟨n, hn, hread, hwrite, htail⟩ : ∃ n, 0 < n ∧
        (∃ j, (passes.head?.getD ⟨some BUFFSIZE, none⟩).read = some j ∧ n = min BUFFSIZE (max 1 j)) ∧
        (passes.head?.getD ⟨some BUFFSIZE, none⟩).write = none ∧
        ∀ p ∈ passes.tail, p.read ≠ none ∧ p.write = none := by
      have hsize : 0 < BUFFSIZE := by decide
      rcases passes with _ | ⟨p, passes⟩
      · exact ⟨min BUFFSIZE (max 1 BUFFSIZE), by omega, ⟨_, rfl, rfl⟩, rfl, nofun⟩
      · obtain ⟨hread, hwrite⟩ := hpasses p List.mem_cons_self
        obtain ⟨j, hj⟩ := Option.ne_none_iff_exists'.mp hread
        exact ⟨_, by omega, ⟨j, hj, rfl⟩, hwrite, fun q hq => hpasses q (List.mem_cons_of_mem _ hq)⟩
    obtain ⟨j, hread, rfl⟩ := hread
    rcases hbuf : (src.drop k).take (min BUFFSIZE (max 1 j)) with _ | ⟨b, bs⟩
    · -- the end of the source
      have hend : k = src.length := by
        rcases List.take_eq_nil_iff.mp hbuf with hzero | hnil
        · omega
        · have := List.drop_eq_nil_iff.mp hnil
          omega
      refine ⟨fs, .succ (k := 0) ?_, rfl, ?_⟩
      · intro fuel _
        simp [copyLoop, hread, hin, hbuf]
      · rw [hout, hend, List.take_length]
    · have hlen : (b :: bs).length ≤ src.length - k := by
        rw [← hbuf, List.length_take, List.length_drop]
        omega
      have hpos : 0 < (b :: bs).length := Nat.succ_pos _
      have hover := overwrite_eq old hk (min BUFFSIZE (max 1 j))
      rw [hbuf] at hover
      have hout' : (fs.write outIno k (b :: bs)).contents outIno =
          src.take (k + (b :: bs).length) ++ old.drop (k + (b :: bs).length) := by
        rw [Fs.write_self, hout, hover]
      have hin' : (fs.write outIno k (b :: bs)).contents inIno = src := by
        rcases eq_or_ne inIno outIno with heq | hne
        · rw [heq, hout', hsame heq, List.take_append_drop]
        · rw [Fs.write_of_ne hne, hin]
      obtain ⟨fs', ⟨m', hrest⟩, hnames, hres⟩ :=
        ih _ (by omega) htail hin' hout' (by omega) rfl
      refine ⟨fs', .succ (k := m') ?_, hnames, hres⟩
      intro fuel hf
      simp only [copyLoop, hread, hin, hbuf, hwrite, Option.getD_none, List.take_length, ne_eq,
        not_true_eq_false, if_false, reduceCtorEq]
      exact hrest fuel hf

/-! ## The copy -/

/-- The destination ends as the source, and what it had behind that. -/
theorem main_spec {args : List Name} {inf outf : Name} {r : Results}
    (hargs : parse args = ⟨some inf, some outf, true⟩) (hsrc : fs.file inf = some src)
    (hyes : fs.file outf ≠ none → r.answer = some 'Y' ∨ r.answer = some 'y')
    (hcreat : fs.file outf = none → r.creatFails = false)
    (hpasses : ∀ p ∈ r.passes, p.read ≠ none ∧ p.write = none) :
    ∃ fs', Returns (main args r fs) (0, fs') ∧
      fs'.file outf = some (src ++ ((fs.file outf).getD []).drop src.length) := by
  obtain ⟨inIno, hinIno, hin⟩ := Option.map_eq_some_iff.mp hsrc
  rcases hout : fs.inode outf with _ | outIno
  · -- a new file
    have hfile : fs.file outf = none := by rw [Fs.file, hout]; rfl
    obtain ⟨fs₁, heq, hname, hempty, hother⟩ := fs.creat_new hout
    have hlt := fs.lt_unused inf inIno hinIno
    obtain ⟨fs', ⟨k, hk⟩, hnames, hres⟩ := copyLoop_spec (k := 0) [] hpasses
      ((hother inIno hlt).trans hin) hempty
      (fun he => absurd he (Nat.ne_of_lt hlt)) (Nat.zero_le _)
    refine ⟨fs', ⟨k, ?_⟩, ?_⟩
    · intro fuel hf
      simp only [main, hargs, Option.bind_some, hinIno, hout, hcreat hfile, heq, Bool.false_eq_true,
        if_false, reduceCtorEq]
      exact hk fuel hf
    · rw [Fs.file, hnames, hname, Option.map_some, hres, hfile]
      rfl
  · have hfile : fs.file outf = some (fs.contents outIno) := by rw [Fs.file, hout]; rfl
    obtain ⟨fs', ⟨k, hk⟩, hnames, hres⟩ := copyLoop_spec (k := 0) (fs.contents outIno)
      hpasses hin rfl (fun he => he ▸ hin) (Nat.zero_le _)
    refine ⟨fs', ⟨k, ?_⟩, ?_⟩
    · intro fuel hf
      simp only [main, hargs, Option.bind_some, hinIno, hout, hyes (by rw [hfile]; nofun), if_true,
        reduceCtorEq, if_false]
      exact hk fuel hf
    · rw [Fs.file, hnames, hout, Option.map_some, hres, hfile]
      rfl

/-- `cp` of every source to every destination, new or old, however `read` splits the source: it ends
successfully, and the destination is then equal to the source exactly if it was not longer before. -/
theorem copies_iff {args : List Name} {inf outf : Name} {r : Results} {fs : Fs} {src : List UInt8}
    (hargs : parse args = ⟨some inf, some outf, true⟩) (hsrc : fs.file inf = some src)
    (hyes : fs.file outf ≠ none → r.answer = some 'Y' ∨ r.answer = some 'y')
    (hcreat : fs.file outf = none → r.creatFails = false)
    (hpasses : ∀ p ∈ r.passes, p.read ≠ none ∧ p.write = none) :
    (∃ fs', Returns (main args r fs) (0, fs') ∧ fs'.file outf = some src) ↔
      ∀ old, fs.file outf = some old → old.length ≤ src.length := by
  obtain ⟨fs', hret, hfile⟩ := main_spec hargs hsrc hyes hcreat hpasses
  have hcopied : (∃ fs', Returns (main args r fs) (0, fs') ∧ fs'.file outf = some src) ↔
      ((fs.file outf).getD []).drop src.length = [] := by
    refine ⟨?_, fun hnil => ⟨fs', hret, by rw [hfile, hnil, List.append_nil]⟩⟩
    rintro ⟨fs'', hret', hfile'⟩
    obtain ⟨-, rfl⟩ := Prod.mk.inj (hret.unique hret')
    rw [hfile] at hfile'
    exact List.append_right_eq_self.mp (Option.some.inj hfile')
  rw [hcopied, List.drop_eq_nil_iff]
  rcases fs.file outf with _ | old
  · simp
  · simp

/-- A source of one byte, and a destination of two. -/
def longer : Fs where
  inode name := if name = "a".toList then some 0 else if name = "b".toList then some 1 else none
  contents i := if i = 0 then [120] else if i = 1 then [121, 122] else []
  unused := 2
  lt_unused name i h := by
    split at h
    · cases h; decide
    · split at h
      · cases h; decide
      · cases h

/-- The two bytes go one by one over the destination of one byte. -/
theorem copies_old : longer.file "b".toList = some [121, 122] ∧ longer.file "a".toList = some [120] ∧
    ∃ fs', Returns (main ["b".toList, "a".toList] ⟨some 'y', false, [⟨some 1, none⟩, ⟨some 1, none⟩]⟩
      longer) (0, fs') ∧ fs'.file "a".toList = some [121, 122] := by
  have hargs : parse ["b".toList, "a".toList] = ⟨some "b".toList, some "a".toList, true⟩ := rfl
  refine ⟨rfl, rfl, (copies_iff hargs rfl (fun _ => .inr rfl) (fun _ => rfl) (by decide)).mpr ?_⟩
  intro old hold
  cases hold
  decide

/-- The second byte of the destination `b` stays. -/
theorem longer_kept : longer.file "a".toList = some [120] ∧ longer.file "b".toList = some [121, 122] ∧
    ∃ fs', Returns (main ["a".toList, "b".toList] ⟨some 'y', false, []⟩ longer) (0, fs') ∧
      fs'.file "b".toList ≠ some [120] := by
  have hargs : parse ["a".toList, "b".toList] = ⟨some "a".toList, some "b".toList, true⟩ := rfl
  have hsrc : longer.file "a".toList = some [120] := rfl
  obtain ⟨fs', hret, hfile⟩ := main_spec (r := ⟨some 'y', false, []⟩) hargs hsrc (fun _ => .inr rfl)
    (fun _ => rfl) nofun
  refine ⟨rfl, rfl, fs', hret, ?_⟩
  rw [hfile]
  decide

end Cp

end Ulsp
