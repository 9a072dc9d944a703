import Ulsp.HeadTail.Head

/-!
# Bytes

`tail -c +K` and `head -c -K` assign the static variable `num` what is left of the file without `K`
bytes and call the function of the other option. Where the file is shorter that is negative:
`tail_bytes` then goes behind the end of the file, and `head_bytes` is not called. Both set `num`
back, however they return.
-/

namespace Ulsp

open Lib

namespace HeadTail

variable {text : List UInt8} {io : Io} {K : ℕ}

/-- The conversion of an `int` to `size_t` and back. -/
theorem toInt32_toUInt64 {x : ℤ} (h₁ : -2 ^ 31 ≤ x) (h₂ : x < 2 ^ 31) :
    toInt32 (toUInt64 x) = x := by
  unfold toInt32 toUInt64
  rw [Int.bmod_eq_iff (by omega)]
  omega

/-- `head_bytes` outputs the first bytes. -/
theorem headBytes_spec (num : ℤ) (io : Io) (hreads : none ∉ io.fd.reads) :
    ∃ io', Returns (headBytes num io) (io', true) ∧
      io'.stdout = io.stdout ++ io.fd.rest.take (toUInt64 num) :=
  copyFd_outputs (toUInt64 num) io hreads

/-- `tail_bytes` outputs `num` bytes from `pos` on. -/
theorem tailBytes_spec (num : ℤ) (io : Io) (hreads : none ∉ io.fd.reads) {filesize pos : ℕ}
    (hpos : max (toInt32 (filesize - num)) 0 = pos) :
    ∃ io', Returns (tailBytes num filesize io) (io', true) ∧
      io'.stdout = io.stdout ++ (io.fd.contents.drop pos).take (toUInt64 num) := by
  have hclamp : (if toInt32 (filesize - num) < 0 then 0 else toInt32 (filesize - num)) = (pos : ℤ) := by
    rw [← hpos]
    split <;> omega
  obtain ⟨io', ⟨k, hk⟩, hout⟩ :=
    headBytes_spec num ⟨{ io.fd with offset := pos }, io.stdout⟩ hreads
  refine ⟨io', ⟨k, ?_⟩, hout⟩
  intro fuel hf
  unfold tailBytes
  simp only [hclamp, Fd.seek_natCast]
  exact hk fuel hf

/-- `elide_head_bytes` outputs what follows the first `K` bytes, for the option `+(K + 1)`. -/
theorem elideHeadBytes_spec (io : Io) (hreads : none ∉ io.fd.reads)
    (hlen : io.fd.contents.length < 2 ^ 31 - 1) (hK : K < 2 ^ 31 - 1) :
    ∃ io', Returns (elideHeadBytes (K + 1) io.fd.contents.length io) (io', true, (K : ℤ) + 1) ∧
      io'.stdout = io.stdout ++ io.fd.contents.drop K := by
  have hnum : toInt32 ((io.fd.contents.length : ℤ) - (K + 1) + 1) = io.fd.contents.length - K := by
    rw [toInt32_of_range (by omega) (by omega)]
    omega
  have hback : toInt32 (toUInt64 ((K : ℤ) + 1)) = K + 1 := toInt32_toUInt64 (by omega) (by omega)
  have hpos : max (toInt32 ((io.fd.contents.length : ℤ) - (io.fd.contents.length - K))) 0 = K := by
    rw [toInt32_of_range (by omega) (by omega)]
    omega
  obtain ⟨io', ⟨k, hk⟩, hout⟩ :=
    tailBytes_spec (io.fd.contents.length - K : ℤ) io hreads hpos
  refine ⟨io', ⟨k, ?_⟩, ?_⟩
  · intro fuel hf
    simp only [elideHeadBytes, hnum, hback, hk fuel hf, Option.bind_eq_bind, Option.bind_some,
      Option.pure_def]
  · -- behind the end of the file there is nothing to copy, whatever the number of bytes is
    rw [hout, List.take_of_length_le]
    rw [List.length_drop]
    unfold toUInt64
    omega

/-- `elide_tail_bytes_file` outputs all but the last `K` bytes. -/
theorem elideTailBytesFile_spec (io : Io) (hreads : none ∉ io.fd.reads)
    (hlen : io.fd.contents.length < 2 ^ 31 - 1) (hK : K < 2 ^ 31 - 1) :
    ∃ io', Returns (elideTailBytesFile K io) (io', true, (K : ℤ)) ∧
      io'.stdout = io.stdout ++ io.fd.contents.take (io.fd.contents.length - K) := by
  have hnum : toInt32 ((io.fd.contents.length : ℤ) - K) = io.fd.contents.length - K :=
    toInt32_of_range (by omega) (by omega)
  have hback : toInt32 (toUInt64 (K : ℤ)) = K := toInt32_toUInt64 (by omega) (by omega)
  rcases Nat.lt_or_ge K io.fd.contents.length with hlt | hge
  · obtain ⟨io', ⟨k, hk⟩, hout⟩ := headBytes_spec (io.fd.contents.length - K : ℤ)
      ⟨{ io.fd with offset := 0 }, io.stdout⟩ hreads
    refine ⟨io', ⟨k, ?_⟩, ?_⟩
    · intro fuel hf
      have hif : (0 : ℤ) < io.fd.contents.length - K := by omega
      simp only [elideTailBytesFile, hnum, hback, hif, if_true, hk fuel hf, Option.bind_eq_bind,
        Option.bind_some, Option.pure_def]
    · have hconv : toUInt64 ((io.fd.contents.length : ℤ) - K) = io.fd.contents.length - K := by
        unfold toUInt64
        omega
      rw [hout, hconv]
      rfl
  · refine ⟨⟨{ io.fd with offset := 0 }, io.stdout⟩, ⟨0, ?_⟩, ?_⟩
    · intro fuel _
      have hif : ¬(0 : ℤ) < io.fd.contents.length - K := by omega
      simp only [elideTailBytesFile, hnum, hback, hif, if_false, Option.bind_eq_bind, Option.bind_some,
        Option.pure_def]
    · rw [Nat.sub_eq_zero_of_le hge, List.take_zero, List.append_nil]

/-- Whatever `elide_head_bytes` and `elide_tail_bytes_file` return, `num` is then what it was. -/
theorem elideBytes_num {num : ℤ} (h₁ : -2 ^ 31 ≤ num) (h₂ : num < 2 ^ 31) (io io' : Io) (ok : Bool)
    (filesize fuel : ℕ) (num' : ℤ) (hret : elideHeadBytes num filesize io fuel = some (io', ok, num') ∨
      elideTailBytesFile num io fuel = some (io', ok, num')) : num' = num := by
  -- it is set back behind the call of the other function
  have hback (called : Option (Io × Bool))
      (h : (called.bind fun r => some (r.1, r.2, toInt32 (toUInt64 num))) = some (io', ok, num')) :
      num' = num := by
    obtain ⟨_, -, heq⟩ := Option.bind_eq_some_iff.mp h
    simp only [Option.some.injEq, Prod.mk.injEq] at heq
    rw [← heq.2.2, toInt32_toUInt64 h₁ h₂]
  rcases hret with hret | hret
  · exact hback _ hret
  · simp only [elideTailBytesFile] at hret
    split at hret
    · exact hback _ hret
    · exact hback _ hret

/-- `head -c` and `tail -c` are complementary, for every `K` below `2 ^ 31 - 1`, every regular file of
less bytes and all reads that do not fail: `head -c K` outputs the first `K` bytes, or all if they are
fewer, and `tail -c +(K + 1)` the rest of the file; `tail -c K` outputs the last `K` bytes, or all,
and `head -c -K` the file up to them; and none of them leaves `num` changed, not even where a `read`
fails. -/
theorem bytes_complementary (text out : List UInt8) (hlen : text.length < 2 ^ 31 - 1)
    (hK : K < 2 ^ 31 - 1) {reads reads' : List (Option ℕ)} (hreads : none ∉ reads)
    (hreads' : none ∉ reads') :
    (∃ io io', Returns (headBytes K (.start text reads out)) (io, true) ∧
      io.stdout = out ++ text.take K ∧
      Returns (elideHeadBytes (K + 1) text.length (.start text reads' io.stdout))
        (io', true, (K : ℤ) + 1) ∧ io'.stdout = out ++ text) ∧
    (∃ io, Returns (tailBytes K text.length (.start text reads out)) (io, true) ∧
      io.stdout = out ++ text.drop (text.length - K)) ∧
    (∃ io io', Returns (elideTailBytesFile K (.start text reads out)) (io, true, (K : ℤ)) ∧
      Returns (tailBytes K text.length (.start text reads' io.stdout)) (io', true) ∧
      io'.stdout = out ++ text) ∧
    ∀ (num : ℤ) (io io' : Io) (ok : Bool) (filesize fuel : ℕ) (num' : ℤ), -2 ^ 31 ≤ num →
      num < 2 ^ 31 → elideHeadBytes num filesize io fuel = some (io', ok, num') ∨
      elideTailBytesFile num io fuel = some (io', ok, num') → num' = num := by
  have hconv : toUInt64 (K : ℤ) = K := toUInt64_of_range (by omega)
  have hpos : max (toInt32 ((text.length : ℤ) - K)) 0 = (text.length - K : ℕ) := by
    rw [toInt32_of_range (by omega) (by omega)]
    omega
  -- the last `K` bytes, or all
  have hall : (text.drop (text.length - K)).take K = text.drop (text.length - K) := by
    apply List.take_of_length_le
    rw [List.length_drop]
    omega
  refine ⟨?_, ?_, ?_, fun num io io' ok filesize fuel num' h₁ h₂ =>
    elideBytes_num h₁ h₂ io io' ok filesize fuel num'⟩
  · obtain ⟨io, hret, hout⟩ := headBytes_spec K (.start text reads out) hreads
    obtain ⟨io', hret', hout'⟩ :=
      elideHeadBytes_spec (.start text reads' io.stdout) hreads' hlen hK
    rw [hconv, Io.start_stdout, Io.start_rest] at hout
    rw [Io.start_stdout, Io.start_contents, hout, List.append_assoc, List.take_append_drop] at hout'
    exact ⟨io, io', hret, hout, hret', hout'⟩
  · obtain ⟨io, hret, hout⟩ := tailBytes_spec K (.start text reads out) hreads hpos
    rw [hconv, Io.start_stdout, Io.start_contents, hall] at hout
    exact ⟨io, hret, hout⟩
  · obtain ⟨io, hret, hout⟩ := elideTailBytesFile_spec (.start text reads out) hreads hlen hK
    obtain ⟨io', hret', hout'⟩ := tailBytes_spec K (.start text reads' io.stdout) hreads' hpos
    rw [Io.start_stdout, Io.start_contents] at hout
    rw [hconv, Io.start_stdout, Io.start_contents, hall, hout, List.append_assoc,
      List.take_append_drop] at hout'
    exact ⟨io, io', hret, hret', hout'⟩

/-- `head -c 2` and `tail -c +3`, with a first read of one byte. -/
theorem bytes_complementary_two :
    ∃ io io', Returns (headBytes 2 (.start [97, 98, 99] [some 1] [])) (io, true) ∧
      io.stdout = [97, 98] ∧
      Returns (elideHeadBytes 3 3 (.start [97, 98, 99] [] io.stdout)) (io', true, 3) ∧
      io'.stdout = [97, 98, 99] :=
  (bytes_complementary (K := 2) [97, 98, 99] [] (by decide) (by decide)
    (show none ∉ [some 1] by decide) List.not_mem_nil).1

end HeadTail

end Ulsp
