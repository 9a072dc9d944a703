import Ulsp.Base
import Ulsp.Lib.Fuel

/-!
# What `head` and `tail` do to a file (`cmd/src/head.c`, `cmd/src/tail.c`)

The two programs read a file through a descriptor and move its offset. They share `copy_fd`, which
copies from the offset on. A `read` returns what the model says it does, or fails; `fwrite` takes all
that it is given. Messages on `stderr` are left out. A loop takes the passes that it may make, and a
function is undefined (`none`) where the program has no meaning or an assertion fails.
-/

namespace Ulsp

open Lib

namespace HeadTail

/-- `BUFSIZ`. -/
def BUFSIZ : ℕ := 8192

theorem BUFSIZ_pos : 0 < BUFSIZ := by decide

/-- An open regular file: its contents, the offset, and how many bytes each `read` would return, `none`
being an error. After those, a `read` returns what it is asked for. -/
structure Fd where
  contents : List UInt8
  offset : ℕ
  reads : List (Option ℕ)

/-- What is left to read of the file. -/
def Fd.rest (fd : Fd) : List UInt8 := fd.contents.drop fd.offset

/-- A `read` that returns at most `count` bytes. -/
def Fd.take (count : ℕ) (fd : Fd) : List UInt8 × Fd :=
  let bytes := fd.rest.take count
  (bytes, { fd with offset := fd.offset + bytes.length })

/-- `read` of at most `count` bytes: an error, or bytes, none of them only at the end of the file. -/
def Fd.read (count : ℕ) (fd : Fd) : Option (List UInt8) × Fd :=
  match fd.reads with
  | [] => ((fd.take count).1, (fd.take count).2)
  | none :: reads => (none, { fd with reads := reads })
  | some k :: reads =>
    let n := min count (max 1 k)
    ((fd.take n).1, { (fd.take n).2 with reads := reads })

/-- `lseek` with `SEEK_SET`, which fails for a negative offset. -/
def Fd.seek (offset : ℤ) (fd : Fd) : Option Fd :=
  if 0 ≤ offset then some { fd with offset := offset.toNat } else none

/-- `lseek` with `SEEK_CUR`. -/
def Fd.seekCur (offset : ℤ) (fd : Fd) : Option Fd := fd.seek (fd.offset + offset)

/-- What the programs act on: the file, and what is on the standard output. -/
structure Io where
  fd : Fd
  stdout : List UInt8

/-- A file that has been opened, and what is on the standard output by then. -/
def Io.start (contents : List UInt8) (reads : List (Option ℕ)) (stdout : List UInt8) : Io :=
  ⟨⟨contents, 0, reads⟩, stdout⟩

/-- The program ends with the result `r` and with `bytes` on the standard output. -/
def Outputs {β : Type} (run : ℕ → Option (Io × β)) (r : β) (bytes : List UInt8) : Prop :=
  ∃ io, Returns run (io, r) ∧ io.stdout = bytes

theorem Outputs.unique {β : Type} {run : ℕ → Option (Io × β)} {r r' : β} {bytes bytes' : List UInt8}
    (h : Outputs run r bytes) (h' : Outputs run r' bytes') : r = r' ∧ bytes = bytes' := by
  obtain ⟨io, hret, rfl⟩ := h
  obtain ⟨io', hret', rfl⟩ := h'
  obtain ⟨rfl, rfl⟩ := Prod.mk.inj (hret.unique hret')
  exact ⟨rfl, rfl⟩

/-- `xwrite_stdout`. -/
def Io.xwriteStdout (bytes : List UInt8) (io : Io) : Io := { io with stdout := io.stdout ++ bytes }

/-- The loop of `copy_fd`, for at most `fuel` passes. No more is read than is asked for, so that
`n_bytes` does not go below 0. -/
def copyLoop : ℕ → ℕ → ℕ → Io → Option (Io × Bool)
  | 0, _, _, _ => none
  | fuel + 1, bytesToRead, nBytes, io =>
    if nBytes = 0 then some (io, true)
    else
      let bytesToRead := if nBytes < bytesToRead then nBytes else bytesToRead
      match io.fd.read bytesToRead with
      | (none, fd) => some ({ io with fd := fd }, false)
      | (some [], fd) => some ({ io with fd := fd }, true)
      | (some bytes, fd) =>
        copyLoop fuel bytesToRead (nBytes - bytes.length) ({ io with fd := fd }.xwriteStdout bytes)

/-- `copy_fd`, with what it returns. -/
def copyFd (nBytes : ℕ) (io : Io) (fuel : ℕ) : Option (Io × Bool) := copyLoop fuel BUFSIZ nBytes io

@[simp]
theorem Io.start_stdout (contents reads stdout) : (Io.start contents reads stdout).stdout = stdout := rfl

@[simp]
theorem Io.start_contents (contents reads stdout) :
    (Io.start contents reads stdout).fd.contents = contents := rfl

@[simp]
theorem Io.start_rest (contents reads stdout) :
    (Io.start contents reads stdout).fd.rest = contents := rfl

/-! ## Reads without errors -/

variable {fd : Fd} {count : ℕ}

@[simp]
theorem Fd.seek_natCast (n : ℕ) (fd : Fd) : fd.seek n = some { fd with offset := n } := by
  simp [seek]

/-- A `read` that returns what it is asked for. -/
theorem Fd.read_full (fd : Fd) (count : ℕ) (h : fd.reads = []) :
    fd.read count =
      (some (fd.rest.take count), { fd with offset := fd.offset + (fd.rest.take count).length }) := by
  simp [read, h, Fd.take]

/-- What a `read` returns: an error, nothing at the end of the file, or a piece of what is left. -/
theorem Fd.read_spec (fd : Fd) (hcount : 0 < count) :
    (∃ fd', fd.read count = (none, fd') ∧ none ∈ fd.reads) ∨
    (∃ fd', fd.read count = (some [], fd') ∧ fd.rest = [] ∧ fd'.contents = fd.contents ∧
      fd'.offset = fd.offset) ∨
    ∃ b bs fd', fd.read count = (some (b :: bs), fd') ∧ (b :: bs).length ≤ count ∧
      fd.rest = b :: bs ++ fd'.rest ∧ fd'.contents = fd.contents ∧
      fd'.offset = fd.offset + (b :: bs).length ∧ fd'.reads ⊆ fd.reads := by
  have hread : (∃ fd', fd.read count = (none, fd') ∧ none ∈ fd.reads) ∨ ∃ n fd', 0 < n ∧ n ≤ count ∧
      fd.read count = (some (fd.rest.take n), fd') ∧ fd'.contents = fd.contents ∧
      fd'.offset = fd.offset + (fd.rest.take n).length ∧ fd'.reads ⊆ fd.reads := by
    obtain ⟨contents, offset, reads⟩ := fd
    match reads with
    | [] => exact .inr ⟨count, _, hcount, le_rfl, rfl, rfl, rfl, List.Subset.refl _⟩
    | none :: reads => exact .inl ⟨_, rfl, List.mem_cons_self⟩
    | some k :: reads =>
      exact .inr ⟨min count (max 1 k), _, by omega, by omega, rfl, rfl, rfl, List.subset_cons_self ..⟩
  obtain ⟨fd', hread, herror⟩ | ⟨n, fd', hn, hle, hread, hc, ho, hreads⟩ := hread
  · exact .inl ⟨fd', hread, herror⟩
  rcases hbytes : fd.rest.take n with _ | ⟨b, bs⟩
  · have hrest : fd.rest = [] := (List.take_eq_nil_iff.mp hbytes).resolve_left hn.ne'
    rw [hbytes] at hread ho
    exact .inr (.inl ⟨fd', hread, hrest, hc, ho⟩)
  · have hrest : fd'.rest = fd.rest.drop (fd.rest.take n).length := by
      rw [Fd.rest, hc, ho, Fd.rest, List.drop_drop]
    have hsplit : fd.rest = fd.rest.take n ++ fd'.rest := by
      rw [hrest]
      exact (List.prefix_iff_eq_append.mp (List.take_prefix n fd.rest)).symm
    rw [hbytes] at hread ho hsplit
    have hlen : (b :: bs).length ≤ n := hbytes ▸ List.length_take_le n fd.rest
    exact .inr (.inr ⟨b, bs, fd', hread, hlen.trans hle, hsplit, hc, ho, hreads⟩)

/-- A `read` that does not fail: the end of the file, or a piece of what is left. -/
theorem Fd.read_cases (h : none ∉ fd.reads) (hcount : 0 < count) :
    (∃ fd', fd.read count = (some [], fd') ∧ fd.rest = [] ∧ fd'.contents = fd.contents ∧
      fd'.offset = fd.offset) ∨
    ∃ b bs fd', fd.read count = (some (b :: bs), fd') ∧ (b :: bs).length ≤ count ∧
      fd.rest = b :: bs ++ fd'.rest ∧ fd'.contents = fd.contents ∧
      fd'.offset = fd.offset + (b :: bs).length ∧ none ∉ fd'.reads := by
  rcases fd.read_spec hcount with ⟨-, -, herror⟩ | hend |
    ⟨b, bs, fd', hread, hlen, hrest, hc, ho, hreads⟩
  · exact absurd herror h
  · exact .inl hend
  · exact .inr ⟨b, bs, fd', hread, hlen, hrest, hc, ho, fun hmem => h (hreads hmem)⟩

/-- Where no `read` fails, `copy_fd` outputs the bytes it is asked for, as far as there are any, and
leaves the offset behind them, however the reads split them. -/
theorem copyLoop_spec (bytesToRead nBytes : ℕ) (io : Io) (h : none ∉ io.fd.reads)
    (hpos : 0 < bytesToRead) :
    ∃ io', Returns (fun fuel => copyLoop fuel bytesToRead nBytes io) (io', true) ∧
      io'.stdout = io.stdout ++ io.fd.rest.take nBytes ∧ io'.fd.contents = io.fd.contents ∧
      io'.fd.offset = io.fd.offset + (io.fd.rest.take nBytes).length := by
  induction nBytes using Nat.strongRecOn generalizing bytesToRead io with
  | ind nBytes ih =>
    rcases Nat.eq_zero_or_pos nBytes with rfl | hwanted
    · exact ⟨io, .succ (k := 0) fun fuel _ => by simp [copyLoop], by simp⟩
    have hwant : 0 < if nBytes < bytesToRead then nBytes else bytesToRead := by split <;> omega
    rcases Fd.read_cases h hwant with
      ⟨fd', hread, hrest, hc, ho⟩ | ⟨b, bs, fd', hread, hle, hrest, hc, ho, hreads⟩
    · refine ⟨{ io with fd := fd' }, .succ (k := 0) ?_, by simp [hrest], hc, ?_⟩
      · intro fuel _
        simp [copyLoop, hwanted.ne', hread]
      · rw [ho, hrest]
        simp
    · have hnb : (b :: bs).length ≤ nBytes := by split at hle <;> omega
      have hless : nBytes - (b :: bs).length < nBytes := by
        rw [List.length_cons]
        omega
      obtain ⟨io', ⟨k, hk⟩, hout, hc', ho'⟩ := ih _ hless _ ⟨fd', io.stdout ++ b :: bs⟩ hreads hwant
      have htake :
          io.fd.rest.take nBytes = (b :: bs) ++ fd'.rest.take (nBytes - (b :: bs).length) := by
        rw [hrest, List.take_append, List.take_of_length_le hnb]
      refine ⟨io', .succ (k := k) ?_, ?_, hc'.trans hc, ?_⟩
      · intro fuel hf
        simp only [copyLoop, hwanted.ne', if_false, hread]
        exact hk fuel hf
      · rw [hout, htake, List.append_assoc]
      · rw [ho', htake, List.length_append, ← Nat.add_assoc, ← ho]

theorem copyFd_outputs (nBytes : ℕ) (io : Io) (h : none ∉ io.fd.reads) :
    Outputs (copyFd nBytes io) true (io.stdout ++ io.fd.rest.take nBytes) := by
  obtain ⟨io', hret, hout, -⟩ := copyLoop_spec BUFSIZ nBytes io h BUFSIZ_pos
  exact ⟨io', hret, hout⟩

/-- The copying of a whole file. -/
theorem copyFd_file (text out : List UInt8) :
    Outputs (copyFd text.length (.start text [] out)) true (out ++ text) := by
  have hcopy := copyFd_outputs text.length (.start text [] out) List.not_mem_nil
  rwa [Io.start_rest, List.take_length, Io.start_stdout] at hcopy

end HeadTail

end Ulsp
