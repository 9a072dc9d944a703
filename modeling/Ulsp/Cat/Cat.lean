import Mathlib.Algebra.Order.Ring.Int
import Ulsp.Cat.LineNum
import Ulsp.Lib.Fuel

/-!
# `cat` (`cmd/src/cat.c`)

The function `cat` reads a file by buffers of `insize` bytes, each followed by a newline as sentinel,
and goes through them in two loops: the `do` loop over newlines (`doPass`), which fills the buffer
when it is past the sentinel, and the loop over the other bytes of a line (`linePass`). What it
appends through `bpout` is kept whole in `Out.appended`, besides the output buffer and the standard
output it is flushed to. A `safe_read` fills the buffer unless the file ends and a `safe_write` is
whole. The line number and `newlines2` go from one file to the next.
-/

namespace Ulsp

open Lib

namespace Cat

/-- The flags that `cat` reads. -/
structure Flags where
  bflag : Bool
  Eflag : Bool
  nflag : Bool
  sflag : Bool
  Tflag : Bool

/-- The `switch` of `main` on an option. For one that `getopt_long` does not know no flag is set, and
`main` prints a line to the standard output, before all that `cat` writes; that line is left out. -/
def Flags.set (f : Flags) (c : Char) : Flags :=
  if c = 'b' then { f with bflag := true, nflag := true }
  else if c = 'e' ∨ c = 'E' then { f with Eflag := true }
  else if c = 'n' then { f with nflag := true }
  else if c = 's' then { f with sflag := true }
  else if c = 't' ∨ c = 'T' then { f with Tflag := true }
  else f

/-- The flags that `main` sets for the options that `getopt_long` returns. -/
def flagsOf (opts : List Char) : Flags := opts.foldl Flags.set ⟨false, false, false, false, false⟩

/-- The output: `outbuf`, the position `bpout` in it, what was written to the standard output, and
all that was appended through `bpout`. -/
structure Out where
  outbuf : Buffer
  bpout : ℕ
  stdout : List UInt8
  appended : List UInt8

namespace Out

/-- `*bpout++ = c`. -/
def put (c : UInt8) (o : Out) : Out :=
  { o with
    outbuf := Function.update o.outbuf o.bpout c
    bpout := o.bpout + 1
    appended := o.appended ++ [c] }

/-- `bpout = stpcpy(bpout, text)`, which stores a terminator too. -/
def stpcpy (text : List UInt8) (o : Out) : Out :=
  { o with
    outbuf := o.outbuf.store o.bpout (text ++ [0])
    bpout := o.bpout + text.length
    appended := o.appended ++ text }

/-- The loop that writes the output buffer by `outsize` bytes, which is at least 1: where it stops,
and the bytes left there. -/
def writeOut (outsize : ℕ) : ℕ → ℕ → ℕ → Out → ℕ × ℕ × Out
  | 0, wout, rem, o => (wout, rem, o)
  | fuel + 1, wout, rem, o =>
    let o := { o with stdout := o.stdout ++ o.outbuf.slice wout outsize }
    let wout := wout + outsize
    let rem := rem - outsize
    if outsize ≤ rem then writeOut outsize fuel wout rem o else (wout, rem, o)

/-- The flush at the top of the `do` loop. -/
def flush (outsize : ℕ) (o : Out) : Out :=
  if outsize ≤ o.bpout then
    let (wout, rem, o) := writeOut outsize o.bpout 0 o.bpout o
    { o with outbuf := o.outbuf.store 0 (Buffer.strncpy (o.outbuf.slice wout rem)), bpout := rem }
  else o

/-- `write_pending`. -/
def writePending (o : Out) : Out :=
  { o with stdout := o.stdout ++ o.outbuf.take o.bpout, bpout := 0 }

end Out

/-- The loop of `cat` that is run next: the `do` loop, or the one over the bytes of a line. -/
inductive Pc where
  | top
  | line
  deriving DecidableEq, Repr

/-- The variables of `cat`, with `bpin` and `eob` as positions in `inbuf`, and what is left to read of
the file. -/
structure State where
  pc : Pc
  newlines : ℤ
  inbuf : Buffer
  bpin : ℕ
  eob : ℕ
  ch : UInt8
  file : List UInt8
  lineNum : LineNum
  out : Out

/-- `next_line_num`, and the output of the number. -/
def State.number (s : State) : State :=
  { s with lineNum := s.lineNum.next, out := s.out.stpcpy s.lineNum.next.text }

/-- `ch = *bpin++`. -/
def State.advance (s : State) : State := { s with ch := s.inbuf s.bpin, bpin := s.bpin + 1 }

/-- The end of a pass of the `do` loop: the next byte, which may begin a line. -/
def nextChar (f : Flags) (s : State) : State :=
  let s := s.advance
  if s.ch = 10 then { s with pc := .top }
  else { if 0 ≤ s.newlines ∧ f.nflag then s.number else s with pc := .line }

/-- The output of a newline. -/
def endLine (f : Flags) (s : State) : State :=
  { s with out := (if f.Eflag then s.out.put 36 else s.out).put s.ch }

/-- The branch of the `do` loop for a newline; with `-s` an empty line after an empty one is left
out. -/
def newline (f : Flags) (s : State) : State :=
  let s := { s with newlines := s.newlines + 1 }
  if 0 < s.newlines then
    let s := { s with newlines := if 2 ≤ s.newlines then 2 else s.newlines }
    if 2 ≤ s.newlines ∧ f.sflag then s
    else endLine f (if f.nflag && !f.bflag then s.number else s)
  else endLine f s

/-- A pass of the `do` loop, or the end of the file. -/
def doPass (f : Flags) (outsize insize : ℕ) (s : State) : State ⊕ State :=
  let s := { s with out := s.out.flush outsize }
  if s.eob < s.bpin then
    let s := { s with out := s.out.writePending }
    let bytes := s.file.take insize
    if bytes = [] then .inr s
    else
      .inl (nextChar f { s with
        inbuf := Function.update (s.inbuf.store 0 bytes) bytes.length 10
        bpin := 0
        eob := bytes.length
        file := s.file.drop insize })
  else .inl (nextChar f (newline f s))

/-- A pass of the loop over the bytes of a line. -/
def linePass (f : Flags) (s : State) : State :=
  if s.ch = 9 ∧ f.Tflag then { s with out := (s.out.put 94).put (s.ch + 64) }.advance
  else if s.ch ≠ 10 then { s with out := s.out.put s.ch }.advance
  else { s with newlines := -1, pc := .top }

/-- A pass of either loop. The flush with an `outsize` of 0 never ends, and no pass of the `do` loop
does. -/
def pass (f : Flags) (outsize insize : ℕ) (s : State) : State ⊕ State :=
  match s.pc with
  | .top => if outsize = 0 then .inl s else doPass f outsize insize s
  | .line => .inl (linePass f s)

/-- An input file: its contents, the size of its buffer, and what `malloc` left in its buffers. -/
structure File where
  contents : List UInt8
  insize : ℕ
  insize_pos : 0 < insize
  inbuf : Buffer
  outbuf : Buffer

/-- What the calls of `cat` leave to the next one: `newlines2` and the line number, and the output. -/
structure Globals where
  newlines2 : ℤ
  lineNum : LineNum
  stdout : List UInt8
  appended : List UInt8

/-- The variables of `cat` when it begins with a file. -/
def start (file : File) (g : Globals) : State where
  pc := .top
  newlines := g.newlines2
  inbuf := file.inbuf
  bpin := 1
  eob := 0
  ch := 0
  file := file.contents
  lineNum := g.lineNum
  out := ⟨file.outbuf, 0, g.stdout, g.appended⟩

/-- `cat`, with the passes its loops may take. -/
def cat (f : Flags) (outsize fuel : ℕ) (g : Globals) (file : File) : Option Globals :=
  (loop (pass f outsize file.insize) fuel (start file g)).map fun s =>
    ⟨s.newlines, s.lineNum, s.out.stdout, s.out.appended⟩

/-- The loop of `main` over the files, each with the passes its call of `cat` may take. -/
def mainLoop (opts : List Char) (outsize fuel : ℕ) (files : List File) : Option Globals :=
  files.foldlM (cat (flagsOf opts) outsize fuel) ⟨0, .init, [], []⟩

end Cat

end Ulsp
