import Ulsp.HeadTail.File

/-!
# The reads of `copy_fd` (`cmd/src/head.c`, `cmd/src/tail.c`)

The loop of `copy_fd` with the calls of `read` that it makes (`copyLoopReads`; without them it is
`copyLoop`). A `read` may return less than it is asked for, and it may fail: what the loop asks for
depends on what the reads before returned (`Reads`).
-/

namespace Ulsp

open Lib

namespace HeadTail

/-- A call of `read`: how many bytes it asks for, and those that it returns, or an error. -/
structure ReadCall where
  count : ℕ
  result : Option (List UInt8)

/-- The bytes that calls of `read` have returned. -/
def bytesRead (calls : List ReadCall) : List UInt8 := calls.flatMap fun c => c.result.getD []

/-- The loop of `copy_fd`, with the calls of `read`. -/
def copyLoopReads : ℕ → ℕ → ℕ → Io → Option (Io × Bool × List ReadCall)
  | 0, _, _, _ => none
  | fuel + 1, bytesToRead, nBytes, io =>
    if nBytes = 0 then some (io, true, [])
    else
      let bytesToRead := if nBytes < bytesToRead then nBytes else bytesToRead
      match io.fd.read bytesToRead with
      | (none, fd) => some ({ io with fd := fd }, false, [⟨bytesToRead, none⟩])
      | (some [], fd) => some ({ io with fd := fd }, true, [⟨bytesToRead, some []⟩])
      | (some bytes, fd) =>
        (copyLoopReads fuel bytesToRead (nBytes - bytes.length)
          ({ io with fd := fd }.xwriteStdout bytes)).map fun (io, ok, calls) =>
            (io, ok, ⟨bytesToRead, some bytes⟩ :: calls)

/-- `copy_fd`, with the calls of `read`. -/
def copyFdReads (nBytes : ℕ) (io : Io) (fuel : ℕ) : Option (Io × Bool × List ReadCall) :=
  copyLoopReads fuel BUFSIZ nBytes io

/-- Without the calls it is `copy_fd`. -/
theorem copyLoopReads_fst (fuel bytesToRead nBytes : ℕ) (io : Io) :
    (copyLoopReads fuel bytesToRead nBytes io).map (fun r => (r.1, r.2.1)) =
      copyLoop fuel bytesToRead nBytes io := by
  induction fuel generalizing bytesToRead nBytes io with
  | zero => rfl
  | succ fuel ih =>
    rw [copyLoopReads, copyLoop]
    split
    · rfl
    · rcases hread : io.fd.read (if nBytes < bytesToRead then nBytes else bytesToRead) with
        ⟨_ | _ | ⟨b, bs⟩, fd⟩
      · simp only [hread, Option.map_some]
      · simp only [hread, Option.map_some]
      · simp only [hread, ← ih, Option.map_map]
        rfl

/-- The calls of `read` by which at most `n` bytes of `rest` are copied, `bytesToRead` at a time at
most, and whether none failed. Each asks for no more than are wanted yet. The last one fails, or is at
the end of the file, or returns the last bytes wanted. -/
inductive Reads (bytesToRead : ℕ) : ℕ → List UInt8 → List ReadCall → Bool → Prop
  | done (rest : List UInt8) : Reads bytesToRead 0 rest [] true
  | error (n count : ℕ) (rest : List UInt8) : count ≤ min bytesToRead n →
    Reads bytesToRead n rest [⟨count, none⟩] false
  | eof (n count : ℕ) : count ≤ min bytesToRead n → Reads bytesToRead n [] [⟨count, some []⟩] true
  | read (n count : ℕ) (bytes rest : List UInt8) (calls : List ReadCall) (ok : Bool) :
    count ≤ min bytesToRead n → bytes.length ≤ count →
    Reads bytesToRead (n - bytes.length) rest calls ok →
    Reads bytesToRead n (bytes ++ rest) (⟨count, some bytes⟩ :: calls) ok

/-- What is asked for shrinks, so that a bound on it stays one. -/
theorem Reads.mono {bytesToRead bytesToRead' n : ℕ} {rest : List UInt8} {calls : List ReadCall}
    {ok : Bool} (hle : bytesToRead ≤ bytesToRead') (h : Reads bytesToRead n rest calls ok) :
    Reads bytesToRead' n rest calls ok := by
  induction h with
  | done rest => exact .done rest
  | error n count rest hcount => exact .error n count rest (by omega)
  | eof n count hcount => exact .eof n count (by omega)
  | read n count bytes rest calls ok hcount hlen _ ih =>
    exact .read n count bytes rest calls ok (by omega) hlen ih

/-- The loop of `copy_fd` ends, and what it has read is on the standard output. -/
theorem copyLoopReads_spec (bytesToRead n : ℕ) (io : Io) (hpos : 0 < bytesToRead) :
    ∃ io' ok calls, Returns (fun fuel => copyLoopReads fuel bytesToRead n io) (io', ok, calls) ∧
      Reads bytesToRead n io.fd.rest calls ok ∧ io'.stdout = io.stdout ++ bytesRead calls := by
  induction n using Nat.strongRecOn generalizing bytesToRead io with
  | ind n ih =>
    rcases Nat.eq_zero_or_pos n with rfl | hwanted
    · exact ⟨io, true, [], .succ (k := 0) fun fuel _ => by simp [copyLoopReads], .done _,
        (List.append_nil _).symm⟩
    have hask : 0 < if n < bytesToRead then n else bytesToRead := by split <;> omega
    have hle : (if n < bytesToRead then n else bytesToRead) ≤ min bytesToRead n := by split <;> omega
    rcases io.fd.read_spec hask with ⟨fd', hread, -⟩ | ⟨fd', hread, hrest, -⟩ |
      ⟨b, bs, fd', hread, hlen, hrest, -⟩
    · -- an error
      refine ⟨{ io with fd := fd' }, false, [⟨_, none⟩], .succ (k := 0) ?_, .error n _ _ hle,
        (List.append_nil _).symm⟩
      intro fuel _
      simp [copyLoopReads, hwanted.ne', hread]
    · rw [hrest]
      refine ⟨{ io with fd := fd' }, true, [⟨_, some []⟩], .succ (k := 0) ?_, .eof n _ hle,
        (List.append_nil _).symm⟩
      intro fuel _
      simp [copyLoopReads, hwanted.ne', hread]
    · have hless : n - (b :: bs).length < n := by
        rw [List.length_cons]
        omega
      obtain ⟨io', ok, calls, ⟨k, hk⟩, hreads, hout⟩ :=
        ih _ hless _ ⟨fd', io.stdout ++ b :: bs⟩ hask
      rw [hrest]
      refine ⟨io', ok, ⟨_, some (b :: bs)⟩ :: calls, .succ (k := k) ?_,
        .read n _ _ _ calls ok hle hlen (hreads.mono (by omega)), ?_⟩
      · intro fuel hf
        simp only [copyLoopReads, hwanted.ne', if_false, hread, Io.xwriteStdout, hk fuel hf,
          Option.map_some]
      · rw [hout, List.append_assoc]
        rfl

variable {bytesToRead n : ℕ} {rest : List UInt8} {calls : List ReadCall} {ok : Bool}

/-- Each `read` asks for no more than the bytes wanted yet. -/
theorem Reads.count_le (h : Reads bytesToRead n rest calls ok) {before after : List ReadCall}
    {c : ReadCall} (hcalls : calls = before ++ c :: after) :
    c.count ≤ min bytesToRead (n - (bytesRead before).length) := by
  induction h generalizing before with
  | done => simp at hcalls
  | error n count rest hcount | eof n count hcount =>
    obtain ⟨rfl, rfl, -⟩ : before = [] ∧ _ = c ∧ after = [] := by
      rcases before with _ | ⟨b, before⟩
      · simpa [eq_comm] using hcalls
      · simp at hcalls
    exact hcount
  | read n count bytes rest calls ok hcount hlen _ ih =>
    rcases before with _ | ⟨b, before⟩
    · obtain ⟨rfl, -⟩ := List.cons.inj hcalls
      exact hcount
    · obtain ⟨rfl, hrest⟩ := List.cons.inj hcalls
      have hbytes : bytesRead (⟨count, some bytes⟩ :: before) = bytes ++ bytesRead before := rfl
      rw [hbytes, List.length_append, ← Nat.sub_sub]
      exact ih hrest

/-- Where no `read` fails, the bytes read are those wanted, as far as there are any. -/
theorem Reads.all (h : Reads bytesToRead n rest calls ok) (hok : ∀ c ∈ calls, c.result ≠ none) :
    ok = true ∧ bytesRead calls = rest.take n := by
  induction h with
  | done => exact ⟨rfl, rfl⟩
  | error n count rest hcount => exact absurd rfl (hok _ (List.mem_singleton_self _))
  | eof n count hcount => exact ⟨rfl, List.take_nil.symm⟩
  | read n count bytes rest calls ok hcount hlen _ ih =>
    obtain ⟨rfl, hbytes⟩ := ih fun c hc => hok c (List.mem_cons_of_mem _ hc)
    refine ⟨rfl, ?_⟩
    rw [List.take_append, List.take_of_length_le (by omega), ← hbytes]
    rfl

/-- A `read` that fails is the last one. -/
theorem Reads.fails (h : Reads bytesToRead n rest calls ok) {before after : List ReadCall}
    {c : ReadCall} (hcalls : calls = before ++ c :: after) (hc : c.result = none) :
    ok = false ∧ after = [] := by
  induction h generalizing before with
  | done => simp at hcalls
  | error n count rest hcount =>
    rcases before with _ | ⟨b, before⟩
    · exact ⟨rfl, (List.cons.inj hcalls).2.symm⟩
    · simp at hcalls
  | eof n count hcount =>
    rcases before with _ | ⟨b, before⟩
    · obtain ⟨rfl, -⟩ := List.cons.inj hcalls
      cases hc
    · simp at hcalls
  | read n count bytes rest calls ok hcount hlen _ ih =>
    rcases before with _ | ⟨b, before⟩
    · obtain ⟨rfl, -⟩ := List.cons.inj hcalls
      cases hc
    · exact ih (List.cons.inj hcalls).2

/-- `copy_fd` ends and copies exactly what it is asked for, for every number of bytes, every rest of the
file and all that the calls of `read` may return: what is output is what they returned; none asks for
more than `BUFSIZ` or for more than the bytes that are wanted yet; if none fails, `copy_fd` returns
true and the output is the first `n` bytes of the rest, or all; and one that fails is the last, with
which `copy_fd` returns false, and the output is what the calls before it returned. -/
theorem copyFd_exact (n : ℕ) (io : Io) : ∃ io' ok calls,
    Returns (copyFd n io) (io', ok) ∧ Returns (copyFdReads n io) (io', ok, calls) ∧
      io'.stdout = io.stdout ++ bytesRead calls ∧
      (∀ before c after, calls = before ++ c :: after →
        c.count ≤ min BUFSIZ (n - (bytesRead before).length)) ∧
      ((∀ c ∈ calls, c.result ≠ none) → ok = true ∧ io'.stdout = io.stdout ++ io.fd.rest.take n) ∧
      ∀ before c after, calls = before ++ c :: after → c.result = none →
        ok = false ∧ io'.stdout = io.stdout ++ bytesRead before := by
  obtain ⟨io', ok, calls, hret, hreads, hout⟩ := copyLoopReads_spec BUFSIZ n io BUFSIZ_pos
  have hcopy : Returns (copyFd n io) (io', ok) := by
    obtain ⟨k, hk⟩ := hret.map fun r => (r.1, r.2.1)
    exact ⟨k, fun fuel hf => (copyLoopReads_fst fuel BUFSIZ n io).symm.trans (hk fuel hf)⟩
  refine ⟨io', ok, calls, hcopy, hret, hout, fun _ _ _ hcalls => hreads.count_le hcalls, ?_, ?_⟩
  · intro hok
    obtain ⟨rfl, hbytes⟩ := hreads.all hok
    exact ⟨rfl, hbytes ▸ hout⟩
  · intro before c after hcalls hc
    obtain ⟨rfl, rfl⟩ := hreads.fails hcalls hc
    have hbytes : bytesRead (before ++ [c]) = bytesRead before := by
      simp [bytesRead, hc]
    exact ⟨rfl, by rw [hout, hcalls, hbytes]⟩

end HeadTail

end Ulsp
