import Ulsp.HeadTail.File
import Ulsp.Lib.Lines

/-!
# `tail` (`cmd/src/tail.c`)

`tail_lines` reads the file by blocks of `BUFSIZ` bytes from the last one on and searches each for
delimiters, backwards, until it has passed as many as it is to leave; then it goes to where the lines
begin and copies the rest. What it outputs is `lastLines` (`tail_lines_last`): a delimiter at the end
of the file ends the last line, and a file without one has an unended line more than it has
delimiters. `elide_head_lines` searches forwards and copies what follows the lines that it leaves out;
`tail_bytes` and `elide_head_bytes` go to a position at once.

`buf` is the bytes that the last `read` has stored: `tail_lines` does not look at those behind them, and
where `elide_head_lines` does it is undefined.
-/

namespace Ulsp

open Lib

namespace HeadTail

/-- The search for the last delimiter among the first `n` bytes of `buf`, from `buf + n - 1` down. -/
def memrchr (lineEnd : UInt8) (buf : List UInt8) : ℕ → Option ℕ
  | 0 => none
  | n + 1 => if buf[n]? = some lineEnd then some n else memrchr lineEnd buf n

/-- The loop `while (n)` over the delimiters of a block, for at most `fuel` passes: the position of the
one that ends the line before the first to be output, or what is left of `n_lines`. -/
def scanBlock (lineEnd : UInt8) (buf : List UInt8) : ℕ → ℕ → ℕ → Option (ℕ ⊕ ℕ)
  | 0, _, _ => none
  | fuel + 1, n, nLines =>
    if n = 0 then some (.inr nLines)
    else
      match memrchr lineEnd buf n with
      | none => some (.inr nLines)
      | some i => if nLines = 0 then some (.inl i) else scanBlock lineEnd buf fuel i (nLines - 1)

/-- `lseek` to `pos` and `copy_fd` of what follows it. -/
def copyFrom (filesize pos : ℤ) (io : Io) (fuel : ℕ) : Option (Io × Bool) :=
  match io.fd.seek pos with
  | none => some (io, false)
  | some fd => do
    let nBytes ← addInt filesize (-pos)
    copyFd (toUInt64 nBytes) { io with fd := fd } fuel

/-- The loop `while (true)` of `tail_lines` over the blocks, for at most `fuel` passes, with the block
at `pos` in `buf`. -/
def tailLoop (lineEnd : UInt8) (filesize : ℤ) :
    ℕ → ℤ → List UInt8 → ℕ → Io → Option (Io × Bool)
  | 0, _, _, _, _ => none
  | fuel + 1, pos, buf, nLines, io => do
    match ← scanBlock lineEnd buf (buf.length + 1) buf.length nLines with
    | .inl n => copyFrom filesize (toInt32 (pos + (n + 1))) io fuel
    | .inr nLines =>
      if pos = 0 then copyFrom filesize pos io fuel
      else
        let pos ← addInt pos (-BUFSIZ)
        match io.fd.seek pos with
        | none => some (io, false)
        | some fd =>
          match fd.read BUFSIZ with
          | (none, fd) => some ({ io with fd := fd }, false)
          -- `assert(bytes_read > 0)`
          | (some [], _) => none
          | (some buf, fd) => tailLoop lineEnd filesize fuel pos buf nLines { io with fd := fd }

/-- `tail_lines`, with `num` and `line_end`, and with what it returns. Where the file has become shorter
the program reads `buf[-1]`, and a `read` of more than `BUFSIZ` bytes leaves `buf`. The last byte is
compared with a newline, whatever `line_end` is; `n_lines` is not 0 there. -/
def tailLines (num : ℤ) (lineEnd : UInt8) (filesize : ℤ) (io : Io) (fuel : ℕ) :
    Option (Io × Bool) :=
  let nLines := toUInt64 num
  if filesize = 0 ∨ nLines = 0 then some (io, true)
  else
    let bytesRead := filesize.tmod BUFSIZ
    let bytesRead := if bytesRead = 0 then (BUFSIZ : ℤ) else bytesRead
    let pos := toInt32 (filesize - bytesRead)
    match io.fd.seek pos with
    | none => some (io, false)
    | some fd =>
      match fd.read (toUInt64 bytesRead) with
      | (none, fd) => some ({ io with fd := fd }, false)
      | (some buf, fd) =>
        if buf = [] ∨ BUFSIZ < buf.length then none
        else
          let nLines := if buf.getLast? ≠ some 10 then nLines - 1 else nLines
          tailLoop lineEnd filesize fuel pos buf nLines { io with fd := fd }

/-! ## All but the beginning -/

/-- `memchr(ptr, line_end, n)`, for a pointer into `buf`: it looks at one byte after the other until it
finds a delimiter, and is undefined if it looks at one behind those that were read. -/
def memchr (lineEnd : UInt8) (buf : List UInt8) : ℕ → ℕ → Option (Option ℕ)
  | _, 0 => some none
  | ptr, n + 1 =>
    match buf[ptr]? with
    | none => none
    | some b => if b = lineEnd then some (some ptr) else memchr lineEnd buf (ptr + 1) n

/-- The loop `while (n)` of `elide_head_lines` over the delimiters of a block, for at most `fuel`
passes: `step` behind the last one to be left out, or what is left of `n_lines`, which is not 0. The
code takes `step`, which is counted from the beginning of the block, from the `size_t` `n` every time.
-/
def scanHead (lineEnd : UInt8) (buf : List UInt8) : ℕ → ℕ → ℕ → ℕ → Option (ℕ ⊕ ℕ)
  | 0, _, _, _ => none
  | fuel + 1, ptr, n, nLines =>
    if n = 0 then some (.inr nLines)
    else do
      match ← memchr lineEnd buf ptr n with
      | none => some (.inr nLines)
      | some ptr =>
        let step := ptr + 1
        if nLines - 1 = 0 then some (.inl step)
        else scanHead lineEnd buf fuel step (toUInt64 (n - step)) (nLines - 1)

/-- `lseek` to `pos` and `copy_fd` of what follows it, where the size is a `size_t`. -/
def copyRest (filesize : ℕ) (pos : ℤ) (io : Io) (fuel : ℕ) : Option (Io × Bool) :=
  match io.fd.seek pos with
  | none => some (io, false)
  | some fd => copyFd (toUInt64 (filesize - pos)) { io with fd := fd } fuel

/-- The loop `while (true)` of `elide_head_lines` over the blocks, for at most `fuel` passes, with the
block at `pos` in `buf`. -/
def elideHeadLoop (lineEnd : UInt8) (filesize : ℕ) :
    ℕ → ℤ → List UInt8 → ℕ → Io → Option (Io × Bool)
  | 0, _, _, _, _ => none
  | fuel + 1, pos, buf, nLines, io => do
    match ← scanHead lineEnd buf (buf.length + 1) 0 buf.length nLines with
    | .inl step => copyRest filesize (toInt32 (pos + step)) io fuel
    | .inr nLines =>
      let pos := toInt32 (pos + buf.length)
      let pos := if filesize < toUInt64 pos then toInt32 filesize else pos
      if toUInt64 pos = filesize then some (io, true)
      else
        match io.fd.seek pos with
        | none => some (io, false)
        | some fd =>
          match fd.read BUFSIZ with
          | (none, fd) => some ({ io with fd := fd }, false)
          -- `assert(bytes_read > 0)`
          | (some [], _) => none
          | (some buf, fd) => elideHeadLoop lineEnd filesize fuel pos buf nLines { io with fd := fd }

/-- `elide_head_lines`, with `num` and `line_end`, and with what it returns. -/
def elideHeadLines (num : ℤ) (lineEnd : UInt8) (filesize : ℕ) (io : Io) (fuel : ℕ) :
    Option (Io × Bool) :=
  let nLines := toUInt64 num
  if filesize = 0 ∨ nLines = 0 then some (io, true)
  else
    let nLines := nLines - 1
    let io := { io with fd := { io.fd with offset := 0 } }
    if nLines = 0 then copyFd filesize io fuel
    else
      match io.fd.read BUFSIZ with
      | (none, fd) => some ({ io with fd := fd }, false)
      | (some buf, fd) => elideHeadLoop lineEnd filesize fuel 0 buf nLines { io with fd := fd }

/-! ## Bytes -/

/-- `tail_bytes`, with `num`, and with what it returns. -/
def tailBytes (num : ℤ) (filesize : ℕ) (io : Io) (fuel : ℕ) : Option (Io × Bool) :=
  let pos := toInt32 (filesize - num)
  let pos := if pos < 0 then 0 else pos
  match io.fd.seek pos with
  | none => some (io, false)
  | some fd => copyFd (toUInt64 num) { io with fd := fd } fuel

/-- `elide_head_bytes`, with the value of the static variable `num` at its beginning and at its end. -/
def elideHeadBytes (num : ℤ) (filesize : ℕ) (io : Io) (fuel : ℕ) : Option (Io × Bool × ℤ) := do
  let numCopy := toUInt64 num
  let num := toInt32 (filesize - num + 1)
  let (io, ok) ← tailBytes num filesize io fuel
  return (io, ok, toInt32 numCopy)

end HeadTail

end Ulsp
