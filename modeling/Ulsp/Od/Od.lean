import Ulsp.Lib.Buffer
import Ulsp.Stdlib

/-!
# `od` (`cmd/src/od.c`)

`od` dumps a file as octal words of two bytes, `width` bytes a row, each row with the address of its
first byte. A byte left over at the end of a file stays in `buf` and is the first byte of the next
word, so the words run on from file to file; `-j` skips bytes over the files in the same way. The
output is the text on `stdout`.

An operation is undefined (`none`) where an `int` overflows or `width` is zero, where the assertion of
`main` fails, and where a `read` stores a byte behind the end of `buf`. `buf` has `BUFSIZ` bytes;
`mainWith` is `main` with a `buf` of any size. Words are little-endian and `char` is signed.
-/

namespace Ulsp

open Lib

namespace Od

/-- `BUFSIZ`. -/
def BUFSIZ : ℕ := 8192

/-- An input file: whether `open` succeeds, its contents, and how many bytes each `read` would
return, `none` being an error. After those, a `read` returns what it is asked for. -/
structure File where
  opens : Bool
  contents : List UInt8
  reads : List (Option ℕ)

/-- An open file: what is left of the contents, and of the reads. -/
structure OpenFile where
  rest : List UInt8
  reads : List (Option ℕ)

/-- `read` of at most `count` bytes: an error, or bytes, none of them only at the end of the file. -/
def OpenFile.read (count : ℕ) (f : OpenFile) : Option (List UInt8) × OpenFile :=
  match f.reads with
  | [] => (some (f.rest.take count), ⟨f.rest.drop count, []⟩)
  | none :: reads => (none, ⟨f.rest, reads⟩)
  | some k :: reads =>
    let n := min count (max 1 k)
    (some (f.rest.take n), ⟨f.rest.drop n, reads⟩)

/-- The static variables, with the size of `buf`, and the text on `stdout`. -/
structure Globals where
  Nflag : Bool
  width : ℤ
  bytesToRead : ℤ
  skipBytes : ℤ
  bytesHasRead : ℤ
  lineNumStart : ℤ
  bufsiz : ℕ
  buf : Buffer
  len : ℕ
  stdout : List Char

/-- What `printf` makes of an `int` by `%0*o`: the octal digits of the value as an `unsigned int`,
after zeros up to `width` of them. -/
def octal (width : ℕ) (x : ℤ) : List Char := List.leftpad width '0' (Nat.toDigits 8 (toUInt32 x))

/-- The value of `*(short *)p` for the bytes at `p`. -/
def short (lo hi : UInt8) : ℤ := ((lo.toNat + 256 * hi.toNat : ℕ) : ℤ).bmod (2 ^ 16)

/-- The value of a `char`. -/
def char (b : UInt8) : ℤ := (b.toNat : ℤ).bmod (2 ^ 8)

/-- The output of a text. -/
def Globals.print (text : List Char) (g : Globals) : Globals := { g with stdout := g.stdout ++ text }

/-- The address at the beginning of a row: `if (bytes_has_read % width == 0) …`. -/
def Globals.address (g : Globals) : Option Globals :=
  if g.width = 0 then none
  else if g.bytesHasRead.tmod g.width = 0 then do
    let addr ← addInt g.bytesHasRead g.lineNumStart
    return (if g.bytesHasRead = 0 then g else g.print ['\n']).print (octal 7 addr)
  else some g

/-- The loop `for (i = 0; i < len - 1; i += 2)`, from `i` on and for at most `fuel` passes; `len` is
not 0. It ends with the value of `i`. -/
def scan : ℕ → ℕ → Globals → Option (ℕ × Globals)
  | 0, _, _ => none
  | fuel + 1, i, g =>
    if i < g.len - 1 then do
      let g ← g.address
      let g := g.print (' ' :: octal 6 (short (g.buf i) (g.buf (i + 1))))
      let bytesHasRead ← addInt g.bytesHasRead 2
      scan fuel (i + 2) { g with bytesHasRead := bytesHasRead }
    else some (i, g)

/-- What a `read` is asked for. -/
def Globals.count (g : Globals) : ℕ :=
  let bytesRead : ℤ := BUFSIZ
  let bytesRead := if g.Nflag then min bytesRead g.bytesToRead else bytesRead
  (bytesRead % 2 ^ 64).toNat

/-- `read(fd, &buf[len], …)` has returned `bytes`. -/
def Globals.store (bytes : List UInt8) (g : Globals) : Option Globals :=
  if g.len + bytes.length ≤ g.bufsiz then
    some { g with
      bytesToRead := if g.Nflag then g.bytesToRead - bytes.length else g.bytesToRead
      buf := g.buf.store g.len bytes
      len := g.len + bytes.length }
  else none

/-- The byte the scan has left over at `i` moves to the front of `buf`. -/
def Globals.moveRest (i : ℕ) (g : Globals) : Globals :=
  if i = g.len - 1 then { g with buf := Function.update g.buf 0 (g.buf i), len := 1 }
  else { g with len := 0 }

/-- The loop of `od` that reads the file, for at most `fuel` passes, with what `od` returns. -/
def readLoop : ℕ → OpenFile → Globals → Option (Globals × Bool)
  | 0, _, _ => none
  | fuel + 1, file, g =>
    if g.Nflag ∧ g.bytesToRead = 0 then some (g, true)
    else
      match file.read g.count with
      | (none, _) => some (g, false)
      | (some [], _) => some (g, true)
      | (some bytes, file) => do
        let g ← g.store bytes
        let (i, g) ← scan g.len 0 g
        readLoop fuel file (g.moveRest i)

/-- `od`, with what it returns. `lseek` to a negative offset fails and leaves the file at its end. -/
def od (fuel : ℕ) (g : Globals) (f : File) : Option (Globals × Bool) :=
  if !f.opens then some (g, false)
  else if g.skipBytes ≠ 0 then
    let filesize : ℤ := f.contents.length
    if filesize ≤ g.skipBytes then some ({ g with skipBytes := g.skipBytes - filesize }, true)
    else
      let rest := if g.skipBytes < 0 then [] else f.contents.drop g.skipBytes.toNat
      readLoop fuel ⟨rest, f.reads⟩ { g with skipBytes := 0 }
  else readLoop fuel ⟨f.contents, f.reads⟩ g

/-- What the options of the command line set: `-N`, `-w` and `-j`. -/
structure Options where
  bytesToRead : Option ℤ
  width : ℤ
  skipBytes : ℤ

/-- The loop of `main` over the files, with its `ok`. -/
def files (fuel : ℕ) : Globals → List File → Option (Globals × Bool)
  | g, [] => some (g, true)
  | g, f :: fs => do
    let (g, ok) ← od fuel g f
    let (g, ok') ← files fuel g fs
    return (g, ok && ok')

/-- The end of `main`: the byte that is left over, and the address of the end. -/
def Globals.finish (g : Globals) : Option Globals := do
  let g ←
    if g.len ≠ 0 then do
      let g ← g.address
      let g := g.print (' ' :: octal 6 (char (g.buf 0)))
      let bytesHasRead ← addInt g.bytesHasRead 1
      pure { g with bytesHasRead := bytesHasRead }
    else pure g
  let addr ← addInt g.bytesHasRead g.lineNumStart
  return g.print ('\n' :: octal 7 addr ++ ['\n'])

/-- The static variables when the loop over the files begins; `buf` is zero. -/
def Options.start (opts : Options) (bufsiz : ℕ) : Globals where
  Nflag := opts.bytesToRead.isSome
  width := opts.width
  bytesToRead := opts.bytesToRead.getD 0
  skipBytes := opts.skipBytes
  bytesHasRead := 0
  lineNumStart := opts.skipBytes
  bufsiz := bufsiz
  buf _ := 0
  len := 0
  stdout := []

/-- `main` after the options, with the size of `buf` and the passes its loops over a file may take: the
text on `stdout` and whether it exits with `EXIT_SUCCESS`. -/
def mainWith (bufsiz : ℕ) (opts : Options) (fs : List File) (fuel : ℕ) :
    Option (List Char × Bool) := do
  let (g, ok) ← files fuel (opts.start bufsiz) fs
  -- `assert(bytes_to_read == 0)`
  let g ← if g.bytesToRead = 0 then g.finish else none
  return (g.stdout, ok)

/-- `main`: `buf` has `BUFSIZ` bytes. -/
def main : Options → List File → ℕ → Option (List Char × Bool) := mainWith BUFSIZ

example : main ⟨none, 16, 1⟩ [⟨true, [1, 2, 3], []⟩, ⟨true, [4], []⟩] 9 =
    some ("0000001 001402 000004\n0000004\n".toList, true) := by decide

end Od

end Ulsp
