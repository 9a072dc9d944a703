import Ulsp.Cat.Cat

/-!
# The flush of the output buffer of `cat`

The flush writes as many whole blocks of `outsize` bytes as are pending (`Out.writeOut_spec`) and
moves the bytes behind them to the front with `strncpy`, which copies a string: behind a zero byte it
stores zeros. So the flush loses bytes where another byte than zero follows a zero byte among those it
moves (`flush_iff`).
-/

namespace Ulsp

open Lib

namespace Cat

variable {outsize : ℕ} {o : Out}

/-- The bytes that are pending: those before `bpout`. -/
def Out.pending (o : Out) : List UInt8 := o.outbuf.take o.bpout

/-- What the flush is for: what it writes and what it leaves in the buffer, less than `outsize` bytes,
are the bytes that were pending. -/
def KeepsPending (outsize : ℕ) (o : Out) : Prop :=
  ∃ written, (o.flush outsize).stdout = o.stdout ++ written ∧
    written ++ (o.flush outsize).pending = o.pending ∧ (o.flush outsize).bpout < outsize

/-- The loop of the flush writes the whole blocks. -/
theorem Out.writeOut_spec (hsize : 0 < outsize) (fuel wout rem : ℕ) (o : Out) (hle : outsize ≤ rem)
    (hfuel : rem ≤ fuel) :
    o.writeOut outsize fuel wout rem = (wout + outsize * (rem / outsize), rem % outsize,
      { o with stdout := o.stdout ++ o.outbuf.slice wout (outsize * (rem / outsize)) }) := by
  induction fuel generalizing wout rem o with
  | zero => omega
  | succ fuel ih =>
    have hdiv := Nat.div_eq_sub_div hsize hle
    have hmod := Nat.mod_eq_sub_mod hle
    rw [Out.writeOut]
    by_cases hmore : outsize ≤ rem - outsize
    · have hmul : outsize * ((rem - outsize) / outsize + 1) =
          outsize + outsize * ((rem - outsize) / outsize) := by
        rw [Nat.mul_succ, Nat.add_comm]
      rw [if_pos hmore, ih _ _ _ hmore (by omega), hdiv, hmod, hmul, Buffer.slice_add,
        List.append_assoc, Nat.add_assoc]
    · have hzero : (rem - outsize) / outsize = 0 := Nat.div_eq_of_lt (by omega)
      rw [if_neg hmore, hdiv, hmod, hzero, Nat.mod_eq_of_lt (by omega), Nat.zero_add, Nat.mul_one]

/-- What the flush writes, and what it leaves in the buffer. -/
theorem Out.flush_spec (hsize : 0 < outsize) (o : Out) (hle : outsize ≤ o.bpout) :
    (o.flush outsize).stdout = o.stdout ++ o.pending.take (outsize * (o.bpout / outsize)) ∧
    (o.flush outsize).pending =
      Buffer.strncpy (o.pending.drop (outsize * (o.bpout / outsize))) ∧
    (o.flush outsize).bpout = o.bpout % outsize := by
  have hblocks := Nat.mul_div_le o.bpout outsize
  have hrem : o.bpout - outsize * (o.bpout / outsize) = o.bpout % outsize := by
    have hdivmod := Nat.div_add_mod o.bpout outsize
    omega
  have hfirst : o.pending.take (outsize * (o.bpout / outsize)) =
      o.outbuf.slice 0 (outsize * (o.bpout / outsize)) := by
    rw [Out.pending, Buffer.take_take hblocks]
    simp [Buffer.slice]
  have hlast : o.pending.drop (outsize * (o.bpout / outsize)) =
      o.outbuf.slice (outsize * (o.bpout / outsize)) (o.bpout % outsize) := by
    rw [Out.pending, Buffer.drop_take hblocks, hrem]
  have hlen : (Buffer.strncpy (o.pending.drop (outsize * (o.bpout / outsize)))).length =
      o.bpout % outsize := by
    rw [Buffer.length_strncpy, hlast, Buffer.slice, Buffer.length_take]
  rw [Out.flush, if_pos hle, Out.writeOut_spec hsize _ _ _ _ hle le_rfl, hfirst]
  simp only [Nat.zero_add, ← hlast]
  refine ⟨trivial, ?_, trivial⟩
  -- the bytes behind the blocks are stored at the front
  generalize Buffer.strncpy (o.pending.drop (outsize * (o.bpout / outsize))) = kept at hlen
  have hstore : Buffer.take (0 + kept.length) (o.outbuf.store 0 kept) = o.outbuf.take 0 ++ kept :=
    Buffer.take_store
  rwa [Nat.zero_add, hlen, show o.outbuf.take 0 = [] from rfl, List.nil_append] at hstore

/-- The flush of the pending bytes, for every `outsize` of at least 1 and all bytes, `outsize` of them
at least: it loses none and leaves less than `outsize` if and only if, among those behind the whole
blocks, only zeros follow a zero byte. -/
theorem flush_iff (hsize : 0 < outsize) (hle : outsize ≤ o.bpout) :
    KeepsPending outsize o ↔
      ∀ c ∈ (o.pending.drop (outsize * (o.bpout / outsize))).dropWhile (· ≠ 0), c = 0 := by
  obtain ⟨hstdout, hpending, hbpout⟩ := Out.flush_spec hsize o hle
  rw [KeepsPending, hstdout, hpending, hbpout, ← Buffer.strncpy_eq_self]
  have hsplit := List.take_append_drop (outsize * (o.bpout / outsize)) o.pending
  refine ⟨?_, ?_⟩
  · rintro ⟨written, hwritten, hkept, -⟩
    rw [← List.append_cancel_left hwritten] at hkept
    exact List.append_cancel_left (hkept.trans hsplit.symm)
  · intro heq
    exact ⟨_, rfl, by rw [heq, hsplit], Nat.mod_lt _ hsize⟩

/-- The flush of a block and of two bytes behind it. -/
theorem flush_text : KeepsPending 4 ⟨fun k => k.toUInt8 + 1, 6, [], []⟩ :=
  (flush_iff (by decide) (by decide)).mpr fun c hc =>
    absurd (show c ∈ ([] : List UInt8) from hc) List.not_mem_nil

/-- The flush of a block, and of a byte behind it that follows a zero byte and becomes one. -/
theorem flush_nul : ¬KeepsPending 4 ⟨fun k => if k = 4 then 0 else k.toUInt8, 6, [], []⟩ := by
  rintro ⟨written, hstdout, hkept, -⟩
  obtain rfl : written = [0, 1, 2, 3] := hstdout.symm
  exact absurd hkept (by decide)

end Cat

end Ulsp
