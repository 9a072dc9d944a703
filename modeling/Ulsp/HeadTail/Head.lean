import Ulsp.HeadTail.Tail

/-!
# `head` (`cmd/src/head.c`)

`head_lines` and `head_bytes` copy from the beginning of the file, `elide_tail_lines_file` and
`elide_tail_bytes_file` copy all but its end. The first stops in the middle of what it has read and
moves the offset back to behind the last line. The third searches blocks backwards, as `tail_lines`
does, but its first block is what follows the last full one and may be empty. The fourth assigns the
static variable `num`, and sets it back, so its model returns the value that it leaves.
-/

namespace Ulsp

open Lib

namespace HeadTail

/-- The loop `while (bytes_to_write < bytes_read)`, at the position `bytesToWrite` of the block, with
what follows it: where the last line to be written ends, or the lines that are still to be written. -/
def writeLines (lineEnd : UInt8) : List UInt8 → ℕ → ℤ → Option (ℕ ⊕ ℤ)
  | [], _, linesToWrite => some (.inr linesToWrite)
  | b :: bs, bytesToWrite, linesToWrite =>
    if b = lineEnd then do
      let linesToWrite ← addInt linesToWrite (-1)
      if linesToWrite = 0 then some (.inl (bytesToWrite + 1))
      else writeLines lineEnd bs (bytesToWrite + 1) linesToWrite
    else writeLines lineEnd bs (bytesToWrite + 1) linesToWrite

/-- The loop `while (lines_to_write)` of `head_lines`, for at most `fuel` passes, with what it returns;
it exits where a `read` fails (`none`). -/
def headLoop (lineEnd : UInt8) : ℕ → ℤ → Io → Option (Io × Option Bool)
  | 0, _, _ => none
  | fuel + 1, linesToWrite, io =>
    if linesToWrite = 0 then some (io, some true)
    else
      match io.fd.read BUFSIZ with
      | (none, fd) => some ({ io with fd := fd }, none)
      | (some [], fd) => some ({ io with fd := fd }, some true)
      | (some bytes, fd) => do
        match ← writeLines lineEnd bytes 0 linesToWrite with
        | .inr linesToWrite =>
          headLoop lineEnd fuel linesToWrite ({ io with fd := fd }.xwriteStdout bytes)
        | .inl bytesToWrite =>
          match fd.seekCur (toInt64 (bytesToWrite - bytes.length)) with
          | none => some ({ io with fd := fd }, some false)
          | some fd =>
            headLoop lineEnd fuel 0
              ({ io with fd := fd }.xwriteStdout (bytes.take bytesToWrite))

/-- `head_lines`, with `num` and `line_end`. -/
def headLines (num : ℤ) (lineEnd : UInt8) (io : Io) (fuel : ℕ) : Option (Io × Option Bool) :=
  headLoop lineEnd fuel num io

/-- `head_bytes`, with `num`. -/
def headBytes (num : ℤ) (io : Io) (fuel : ℕ) : Option (Io × Bool) := copyFd (toUInt64 num) io fuel

/-- The loop `while (n)` of `elide_tail_lines_file` over the delimiters of a block, for at most `fuel`
passes: the position of the last one to be output, or what is left of `n_lines`. -/
def scanTail (lineEnd : UInt8) (buf : List UInt8) : ℕ → ℕ → ℤ → Option (ℕ ⊕ ℤ)
  | 0, _, _ => none
  | fuel + 1, n, nLines =>
    if n = 0 then some (.inr nLines)
    else
      match memrchr lineEnd buf n with
      | none => some (.inr nLines)
      | some i =>
        if nLines = 0 then some (.inl i)
        else do
          let nLines ← addInt nLines (-1)
          scanTail lineEnd buf fuel i nLines

/-- The loop `while (true)` of `elide_tail_lines_file` over the blocks, for at most `fuel` passes,
with the block at `pos` in `buf`. -/
def elideTailLoop (lineEnd : UInt8) : ℕ → ℤ → List UInt8 → ℤ → Io → Option (Io × Bool)
  | 0, _, _, _, _ => none
  | fuel + 1, pos, buf, nLines, io => do
    match ← scanTail lineEnd buf (buf.length + 1) buf.length nLines with
    | .inl n => do
      let (io, ok) ← copyFd (toUInt64 pos) { io with fd := { io.fd with offset := 0 } } fuel
      return if ok then (io.xwriteStdout (buf.take (n + 1)), true) else (io, false)
    | .inr nLines =>
      if pos = 0 then some (io, true)
      else
        let pos ← addInt pos (-BUFSIZ)
        match io.fd.seek pos with
        | none => some (io, false)
        | some fd =>
          match fd.read BUFSIZ with
          | (none, fd) => some ({ io with fd := fd }, false)
          | (some [], fd) => some ({ io with fd := fd }, true)
          | (some buf, fd) => elideTailLoop lineEnd fuel pos buf nLines { io with fd := fd }

/-- `elide_tail_lines_file`, with `num` and `line_end`, and with what it returns. The first `lseek`
may fail unnoticed, and the last byte is compared with a newline, whatever `line_end` is. -/
def elideTailLinesFile (num : ℤ) (lineEnd : UInt8) (io : Io) (fuel : ℕ) : Option (Io × Bool) :=
  let size := io.fd.contents.length
  let pos := toInt32 size
  if num = 0 ∨ size = 0 then copyFd size io fuel
  else
    let bytesRead := size % BUFSIZ
    let pos := toInt32 (pos - bytesRead)
    match ((io.fd.seek pos).getD io.fd).read bytesRead with
    | (none, fd) => some ({ io with fd := fd }, false)
    | (some buf, fd) => do
      let nLines ← if buf ≠ [] ∧ buf.getLast? ≠ some 10 then addInt num (-1) else some num
      elideTailLoop lineEnd fuel pos buf nLines { io with fd := fd }

/-- `elide_tail_bytes_file`, with the value of `num` at its beginning and at its end. -/
def elideTailBytesFile (num : ℤ) (io : Io) (fuel : ℕ) : Option (Io × Bool × ℤ) := do
  let numCopy := toUInt64 num
  let size := io.fd.contents.length
  let io := { io with fd := { io.fd with offset := 0 } }
  let num := toInt32 (size - num)
  let (io, ok) ← if 0 < num then headBytes num io fuel else some (io, true)
  return (io, ok, toInt32 numCopy)

end HeadTail

end Ulsp
