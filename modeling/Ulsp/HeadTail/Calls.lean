import Ulsp.HeadTail.Head
import Mathlib.Data.Nat.Digits.Defs

/-!
# What `head` and `tail` pass to `lseek` and `copy_fd`

The count of an option goes from the `size_t` of `string_to_integer` to the static `int num`, and from
there to the function that is selected; the size of the file goes from a `size_t` to the `int`s in
which positions are kept. Here the functions that compute positions are modelled with the calls that
they make, over any arithmetic (`Arith`): over that of the machine they are the functions of `Tail`
and `Head` (`tailLines_machine` and those like it), over unbounded integers they say what the calls
should be.
-/

namespace Ulsp

open Lib

namespace HeadTail

/-! ## The count -/

/-- `string_to_integer`, for a text of ASCII characters. -/
def stringToInteger (str : List Char) : ℕ :=
  str.foldl (fun res p => toUInt64 (res * 10 + ((p.toNat : ℤ) - '0'.toNat))) 0

/-- The two programs. -/
inductive Program where
  | head
  | tail

/-- The options with a count, `-c` and `-n`. -/
inductive CountOption where
  | bytes
  | lines

/-- The character before a count that makes a program elide. -/
def Program.sign : Program → Char
  | .head => '-'
  | .tail => '+'

/-- What `main` makes of the argument of `-c` or `-n`: `elide_from_end` or `elide_from_begin`, and
`num`. -/
def Program.setNum (program : Program) (optarg : List Char) : Bool × ℤ :=
  let elide := optarg.head? = some program.sign
  let optarg := if elide then optarg.tail else optarg
  (elide, toInt32 (stringToInteger optarg))

/-- The functions that `head` and `tail` select. -/
inductive Selected where
  | headLines
  | headBytes
  | elideTailLinesFile
  | elideTailBytesFile
  | tailLines
  | tailBytes
  | elideHeadLines
  | elideHeadBytes

/-- The functions `head` and `tail`. -/
def Program.select : Program → CountOption → (elide : Bool) → Selected
  | .head, .lines, false => .headLines
  | .head, .bytes, false => .headBytes
  | .head, .lines, true => .elideTailLinesFile
  | .head, .bytes, true => .elideTailBytesFile
  | .tail, .lines, false => .tailLines
  | .tail, .bytes, false => .tailBytes
  | .tail, .lines, true => .elideHeadLines
  | .tail, .bytes, true => .elideHeadBytes

/-! ## Calls -/

/-- The integers of the program. -/
structure Arith where
  /-- The value of an integer as an `int`. -/
  toInt : ℤ → ℤ
  /-- Its value as a `size_t`. -/
  toSize : ℤ → ℤ
  /-- The sum of two `int`s. -/
  add : ℤ → ℤ → Option ℤ

/-- The integers of the machine. -/
def Arith.machine : Arith := ⟨toInt32, fun x => toUInt64 x, addInt⟩

/-- Integers without a bound. -/
def Arith.unbounded : Arith := ⟨id, id, fun a b => some (a + b)⟩

/-- The machine converts to an `int` modulo `2 ^ 32`. -/
@[simp]
theorem machine_toInt (x : ℤ) : Arith.machine.toInt x = toInt32 x := (rfl)

/-- It converts to a `size_t` modulo `2 ^ 64`. -/
@[simp]
theorem machine_toSize (x : ℤ) : Arith.machine.toSize x = toUInt64 x := (rfl)

/-- A sum of `int`s may overflow. -/
@[simp]
theorem machine_add (a b : ℤ) : Arith.machine.add a b = addInt a b := (rfl)

/-- Unbounded integers are not converted to an `int`. -/
@[simp]
theorem unbounded_toInt (x : ℤ) : Arith.unbounded.toInt x = x := (rfl)

/-- Unbounded integers are not converted to a `size_t`. -/
@[simp]
theorem unbounded_toSize (x : ℤ) : Arith.unbounded.toSize x = x := (rfl)

/-- Sums of unbounded integers never overflow. -/
@[simp]
theorem unbounded_add (a b : ℤ) : Arith.unbounded.add a b = some (a + b) := (rfl)

/-- The calls with a position or a byte count. -/
inductive Call where
  | lseek (offset : ℤ)
  | copyFd (nBytes : ℤ)

/-- The calls of a computation, and what it ends with. -/
abbrev Traced (β : Type) := List Call × Option β

/-- A computation after a call. -/
def Call.before {β : Type} (call : Call) (run : Traced β) : Traced β := (call :: run.1, run.2)

/-- `lseek`, and what follows it if it does not fail. -/
def Io.lseek (pos : ℤ) (next : Io → Traced (Io × Bool)) (io : Io) : Traced (Io × Bool) :=
  (Call.lseek pos).before
    (match io.fd.seek pos with
    | none => ([], some (io, false))
    | some fd => next { io with fd := fd })

namespace Arith

variable (A : Arith)

/-- `copy_fd`. -/
def copyFd (nBytes : ℤ) (io : Io) (fuel : ℕ) : Traced (Io × Bool) :=
  ([.copyFd (A.toSize nBytes)], HeadTail.copyFd (A.toSize nBytes).toNat io fuel)

/-- The part of `tail_lines` that `HeadTail.copyFrom` models. -/
def copyFrom (filesize pos : ℤ) (io : Io) (fuel : ℕ) : Traced (Io × Bool) :=
  io.lseek pos fun io =>
    match A.add filesize (-pos) with
    | none => ([], none)
    | some nBytes => A.copyFd nBytes io fuel

/-- The loop of `tail_lines`. -/
def tailLoop (lineEnd : UInt8) (filesize : ℤ) :
    ℕ → ℤ → List UInt8 → ℕ → Io → Traced (Io × Bool)
  | 0, _, _, _, _ => ([], none)
  | fuel + 1, pos, buf, nLines, io =>
    match scanBlock lineEnd buf (buf.length + 1) buf.length nLines with
    | none => ([], none)
    | some (.inl n) => A.copyFrom filesize (A.toInt (pos + (n + 1))) io fuel
    | some (.inr nLines) =>
      if pos = 0 then A.copyFrom filesize pos io fuel
      else
        match A.add pos (-BUFSIZ) with
        | none => ([], none)
        | some pos => io.lseek pos fun io =>
          match io.fd.read BUFSIZ with
          | (none, fd) => ([], some ({ io with fd := fd }, false))
          | (some [], _) => ([], none)
          | (some buf, fd) => tailLoop lineEnd filesize fuel pos buf nLines { io with fd := fd }

/-- `tail_lines`. -/
def tailLines (num : ℤ) (lineEnd : UInt8) (filesize : ℤ) (io : Io) (fuel : ℕ) : Traced (Io × Bool) :=
  let nLines := (A.toSize num).toNat
  if filesize = 0 ∨ nLines = 0 then ([], some (io, true))
  else
    let bytesRead := filesize.tmod BUFSIZ
    let bytesRead := if bytesRead = 0 then (BUFSIZ : ℤ) else bytesRead
    let pos := A.toInt (filesize - bytesRead)
    io.lseek pos fun io =>
      match io.fd.read (A.toSize bytesRead).toNat with
      | (none, fd) => ([], some ({ io with fd := fd }, false))
      | (some buf, fd) =>
        if buf = [] ∨ BUFSIZ < buf.length then ([], none)
        else
          let nLines := if buf.getLast? ≠ some 10 then nLines - 1 else nLines
          A.tailLoop lineEnd filesize fuel pos buf nLines { io with fd := fd }

/-- `tail_bytes`. -/
def tailBytes (num : ℤ) (filesize : ℕ) (io : Io) (fuel : ℕ) : Traced (Io × Bool) :=
  let pos := A.toInt (filesize - num)
  let pos := if pos < 0 then 0 else pos
  io.lseek pos fun io => A.copyFd num io fuel

/-- `elide_head_bytes`, which calls `tail_bytes`. -/
def elideHeadBytes (num : ℤ) (filesize : ℕ) (io : Io) (fuel : ℕ) : Traced (Io × Bool × ℤ) :=
  let numCopy := A.toSize num
  let num := A.toInt (filesize - num + 1)
  let run := A.tailBytes num filesize io fuel
  (run.1, run.2.map fun (io, ok) => (io, ok, A.toInt numCopy))

/-- The loop `while (n)` of `elide_tail_lines_file`. -/
def scanTail (lineEnd : UInt8) (buf : List UInt8) : ℕ → ℕ → ℤ → Option (ℕ ⊕ ℤ)
  | 0, _, _ => none
  | fuel + 1, n, nLines =>
    if n = 0 then some (.inr nLines)
    else
      match memrchr lineEnd buf n with
      | none => some (.inr nLines)
      | some i =>
        if nLines = 0 then some (.inl i)
        else do
          let nLines ← A.add nLines (-1)
          scanTail lineEnd buf fuel i nLines

/-- The loop of `elide_tail_lines_file` over the blocks. -/
def elideTailLoop (lineEnd : UInt8) : ℕ → ℤ → List UInt8 → ℤ → Io → Traced (Io × Bool)
  | 0, _, _, _, _ => ([], none)
  | fuel + 1, pos, buf, nLines, io =>
    match A.scanTail lineEnd buf (buf.length + 1) buf.length nLines with
    | none => ([], none)
    | some (.inl n) => io.lseek 0 fun io =>
      let run := A.copyFd pos io fuel
      (run.1, run.2.map fun (io, ok) =>
        if ok then (io.xwriteStdout (buf.take (n + 1)), true) else (io, false))
    | some (.inr nLines) =>
      if pos = 0 then ([], some (io, true))
      else
        match A.add pos (-BUFSIZ) with
        | none => ([], none)
        | some pos => io.lseek pos fun io =>
          match io.fd.read BUFSIZ with
          | (none, fd) => ([], some ({ io with fd := fd }, false))
          | (some [], fd) => ([], some ({ io with fd := fd }, true))
          | (some buf, fd) => elideTailLoop lineEnd fuel pos buf nLines { io with fd := fd }

/-- `elide_tail_lines_file`. -/
def elideTailLinesFile (num : ℤ) (lineEnd : UInt8) (io : Io) (fuel : ℕ) : Traced (Io × Bool) :=
  let size := io.fd.contents.length
  let pos := A.toInt size
  if num = 0 ∨ size = 0 then A.copyFd size io fuel
  else
    let bytesRead := size % BUFSIZ
    let pos := A.toInt (pos - bytesRead)
    (Call.lseek pos).before
      (match ((io.fd.seek pos).getD io.fd).read bytesRead with
      | (none, fd) => ([], some ({ io with fd := fd }, false))
      | (some buf, fd) =>
        match if buf ≠ [] ∧ buf.getLast? ≠ some 10 then A.add num (-1) else some num with
        | none => ([], none)
        | some nLines => A.elideTailLoop lineEnd fuel pos buf nLines { io with fd := fd })

/-- `elide_tail_bytes_file`: it goes to the end of the file for its size, and back. -/
def elideTailBytesFile (num : ℤ) (io : Io) (fuel : ℕ) : Traced (Io × Bool × ℤ) :=
  let numCopy := A.toSize num
  let size := io.fd.contents.length
  let io := { io with fd := { io.fd with offset := 0 } }
  let num := A.toInt (size - num)
  let run := if 0 < num then A.copyFd num io fuel else ([], some (io, true))
  (Call.lseek 0).before <| (Call.lseek 0).before
    (run.1, run.2.map fun (io, ok) => (io, ok, A.toInt numCopy))

end Arith

/-! ## The machine -/

variable {d : UInt8} {buf : List UInt8} {nLines : ℕ} {num pos filesize : ℤ} {io : Io} {fuel : ℕ}
  {next : Io → Traced (Io × Bool)}

/-- A call before a computation changes nothing of its result. -/
@[simp]
theorem before_snd {β : Type} (call : Call) (run : Traced β) : (call.before run).2 = run.2 := rfl

/-- An `lseek` that fails is the last call. -/
theorem lseek_eq_none (h : io.fd.seek pos = none) :
    io.lseek pos next = ([.lseek pos], some (io, false)) := by
  rw [Io.lseek, h]
  rfl

/-- What follows an `lseek` that does not fail begins at the new position. -/
theorem lseek_eq_some {fd : Fd} (h : io.fd.seek pos = some fd) :
    io.lseek pos next = (Call.lseek pos).before (next { io with fd := fd }) := by
  rw [Io.lseek, h]

/-- On the machine the result of `copy_fd` is that of the function without calls. -/
theorem copyFd_machine (nBytes : ℤ) (io : Io) (fuel : ℕ) :
    (Arith.machine.copyFd nBytes io fuel).2 = copyFd (toUInt64 nBytes) io fuel := rfl

/-- The same for the end of `tail_lines`. -/
theorem copyFrom_machine (filesize pos : ℤ) (io : Io) (fuel : ℕ) :
    (Arith.machine.copyFrom filesize pos io fuel).2 = copyFrom filesize pos io fuel := by
  rw [Arith.copyFrom, copyFrom]
  rcases hseek : io.fd.seek pos with _ | fd
  · rw [lseek_eq_none hseek]
  · rw [lseek_eq_some hseek]
    rcases hadd : addInt filesize (-pos) with _ | nBytes <;> simp [hadd, Arith.copyFd]

/-- The loop of `tail_lines` ends on the machine as the one without calls does: by induction on the
rounds. -/
theorem tailLoop_machine : (Arith.machine.tailLoop d filesize fuel pos buf nLines io).2 =
    tailLoop d filesize fuel pos buf nLines io := by
  induction fuel generalizing pos buf nLines io with
  | zero => rfl
  | succ fuel ih =>
    rw [Arith.tailLoop, tailLoop]
    rcases scanBlock d buf (buf.length + 1) buf.length nLines with _ | n | m
    · rfl
    · exact copyFrom_machine ..
    simp only [Option.bind_eq_bind, Option.bind_some]
    by_cases hpos : pos = 0
    · rw [if_pos hpos, if_pos hpos]
      exact copyFrom_machine ..
    rw [if_neg hpos, if_neg hpos, machine_add]
    rcases addInt pos (-BUFSIZ) with _ | p
    · rfl
    simp only [Option.bind_some]
    rcases hseek : io.fd.seek p with _ | fd
    · rw [lseek_eq_none hseek]
    rw [lseek_eq_some hseek, before_snd]
    simp only
    rcases fd.read BUFSIZ with ⟨_ | _ | ⟨b, bs⟩, fd'⟩
    · rfl
    · rfl
    · exact ih

/-- On the machine the result of `tail_lines` is that of the function without calls. -/
theorem tailLines_machine (num : ℤ) (d : UInt8) (filesize : ℤ) (io : Io) (fuel : ℕ) :
    (Arith.machine.tailLines num d filesize io fuel).2 = tailLines num d filesize io fuel := by
  simp only [Arith.tailLines, tailLines]
  generalize (if filesize.tmod BUFSIZ = 0 then (BUFSIZ : ℤ) else filesize.tmod BUFSIZ) = bytesRead
  by_cases hnone : filesize = 0 ∨ (Arith.machine.toSize num).toNat = 0
  · rw [if_pos hnone, if_pos (show filesize = 0 ∨ toUInt64 num = 0 from hnone)]
  rw [if_neg hnone, if_neg (show ¬(filesize = 0 ∨ toUInt64 num = 0) from hnone), machine_toInt]
  rcases hseek : io.fd.seek (toInt32 (filesize - bytesRead)) with _ | fd
  · rw [lseek_eq_none hseek]
  rw [lseek_eq_some hseek, before_snd]
  simp only [machine_toSize, Int.toNat_natCast]
  rcases fd.read (toUInt64 bytesRead) with ⟨_ | bytes, fd'⟩
  · rfl
  simp only
  split
  · rfl
  · exact tailLoop_machine

/-- The same for `tail_bytes`. -/
theorem tailBytes_machine (num : ℤ) (filesize : ℕ) (io : Io) (fuel : ℕ) :
    (Arith.machine.tailBytes num filesize io fuel).2 = tailBytes num filesize io fuel := by
  unfold Arith.tailBytes tailBytes
  simp only [machine_toInt]
  generalize (if toInt32 (filesize - num) < 0 then 0 else toInt32 (filesize - num)) = pos
  rcases hseek : io.fd.seek pos with _ | fd
  · rw [lseek_eq_none hseek]
  · rw [lseek_eq_some hseek]
    rfl

/-- The same for `elide_head_bytes`. -/
theorem elideHeadBytes_machine (num : ℤ) (filesize : ℕ) (io : Io) (fuel : ℕ) :
    (Arith.machine.elideHeadBytes num filesize io fuel).2 = elideHeadBytes num filesize io fuel := by
  rw [Arith.elideHeadBytes, elideHeadBytes]
  simp only [tailBytes_machine, machine_toInt]
  rcases tailBytes (toInt32 (filesize - num + 1)) filesize io fuel with _ | ⟨io', ok⟩ <;> rfl

/-- The search of `elide_tail_lines_file` in a block only counts, so that only its sums matter. -/
theorem scanTail_machine (fuel n : ℕ) (nLines : ℤ) :
    Arith.machine.scanTail d buf fuel n nLines = scanTail d buf fuel n nLines := by
  induction fuel generalizing n nLines with
  | zero => rfl
  | succ fuel ih =>
    rw [Arith.scanTail, scanTail]
    simp only [ih]
    rfl

/-- The loop of `elide_tail_lines_file` over the blocks ends on the machine as the one without calls
does. -/
theorem elideTailLoop_machine {nLines : ℤ} : (Arith.machine.elideTailLoop d fuel pos buf nLines io).2 =
    elideTailLoop d fuel pos buf nLines io := by
  induction fuel generalizing pos buf nLines io with
  | zero => rfl
  | succ fuel ih =>
    rw [Arith.elideTailLoop, elideTailLoop, scanTail_machine]
    rcases scanTail d buf (buf.length + 1) buf.length nLines with _ | n | m
    · rfl
    · have hseek : io.fd.seek 0 = some { io.fd with offset := 0 } := Fd.seek_natCast 0 io.fd
      simp only [lseek_eq_some hseek, before_snd, copyFd_machine, Option.bind_eq_bind, Option.bind_some]
      rcases copyFd (toUInt64 pos) ⟨{ io.fd with offset := 0 }, io.stdout⟩ fuel with _ | ⟨io', ok⟩
      · rfl
      · rfl
    simp only [Option.bind_eq_bind, Option.bind_some]
    by_cases hpos : pos = 0
    · rw [if_pos hpos, if_pos hpos]
    rw [if_neg hpos, if_neg hpos, machine_add]
    rcases addInt pos (-BUFSIZ) with _ | p
    · rfl
    simp only [Option.bind_some]
    rcases hseek : io.fd.seek p with _ | fd
    · rw [lseek_eq_none hseek]
    rw [lseek_eq_some hseek, before_snd]
    simp only
    rcases fd.read BUFSIZ with ⟨_ | _ | ⟨b, bs⟩, fd'⟩
    · rfl
    · rfl
    · exact ih

/-- On the machine the result of `elide_tail_lines_file` is that of the function without calls, for a
file whose size fits in a `size_t`. -/
theorem elideTailLinesFile_machine (num : ℤ) (d : UInt8) (io : Io) (fuel : ℕ)
    (hlen : io.fd.contents.length < 2 ^ 64) :
    (Arith.machine.elideTailLinesFile num d io fuel).2 = elideTailLinesFile num d io fuel := by
  simp only [Arith.elideTailLinesFile, elideTailLinesFile, machine_toInt, machine_add]
  by_cases hall : num = 0 ∨ io.fd.contents.length = 0
  · rw [if_pos hall, if_pos hall, copyFd_machine, toUInt64_of_range hlen]
  rw [if_neg hall, if_neg hall, before_snd]
  generalize ((io.fd.seek _).getD io.fd).read _ = bytes
  rcases bytes with ⟨_ | bytes, fd⟩
  · rfl
  by_cases hlast : bytes ≠ [] ∧ bytes.getLast? ≠ some 10
  · simp only [if_pos hlast]
    rcases addInt num (-1) with _ | m
    · rfl
    · exact elideTailLoop_machine
  · simp only [if_neg hlast]
    exact elideTailLoop_machine

/-- The same for `elide_tail_bytes_file`. -/
theorem elideTailBytesFile_machine (num : ℤ) (io : Io) (fuel : ℕ) :
    (Arith.machine.elideTailBytesFile num io fuel).2 = elideTailBytesFile num io fuel := by
  simp only [Arith.elideTailBytesFile, elideTailBytesFile, machine_toInt, before_snd]
  by_cases hpos : 0 < toInt32 ((io.fd.contents.length : ℤ) - num)
  · simp only [if_pos hpos, copyFd_machine, headBytes]
    rcases copyFd (toUInt64 (toInt32 ((io.fd.contents.length : ℤ) - num)))
      ⟨{ io.fd with offset := 0 }, io.stdout⟩ fuel with _ | ⟨io', ok⟩ <;> rfl
  · simp only [if_neg hpos]
    rfl

end HeadTail

end Ulsp
