import Ulsp.HeadTail.Head

/-!
# The first lines

`head_lines` counts the delimiters of what each `read` returns. While there are fewer than lines to be
written the whole of it is output; else the output ends behind the last of these lines, and so does the
offset after the `lseek`, which goes back by what has been read and not written (`headLoop_spec`).
-/

namespace Ulsp

open Lib

namespace HeadTail

variable {d : UInt8} {buf : List UInt8} {m : ℕ} {io : Io}

/-- The pass over what a `read` has returned, with `m` lines to be written: they end in it, or it lowers
`m` by its delimiters. -/
theorem writeLines_spec (hm : 0 < m) (hm' : m < 2 ^ 31) (p : ℕ) :
    writeLines d buf p m =
      if m ≤ buf.count d then some (.inl (p + (firstLines d m buf).length))
      else some (.inr ((m - buf.count d : ℕ) : ℤ)) := by
  induction buf generalizing m p with
  | nil =>
    rw [if_neg (by simpa using hm.ne')]
    rfl
  | cons b bs ih =>
    obtain ⟨m, rfl⟩ := Nat.exists_eq_succ_of_ne_zero hm.ne'
    rcases eq_or_ne b d with rfl | hb
    · have hadd : addInt ((m + 1 : ℕ) : ℤ) (-1) = some (m : ℤ) := addInt_sub (b := 1) (by omega) hm'
      rw [writeLines, if_pos rfl, hadd, firstLines_cons_self, List.count_cons_self, List.length_cons,
        Option.bind_eq_bind, Option.bind_some]
      rcases Nat.eq_zero_or_pos m with rfl | hpos
      · simp
      · rw [if_neg (by omega), ih hpos (by omega)]
        simp only [Nat.succ_le_succ_iff, Nat.succ_sub_succ, Nat.add_assoc, Nat.add_comm 1]
    · rw [writeLines, if_neg hb, ih hm hm', firstLines_cons_of_ne hb, List.count_cons_of_ne hb,
        List.length_cons]
      simp only [Nat.add_assoc, Nat.add_comm 1]

/-- A pass that ends in the middle of what has been read goes back to behind the last line. -/
theorem seekCur_back (fd : Fd) {written : ℕ} (hle : written ≤ buf.length) (hlen : buf.length ≤ BUFSIZ)
    (ho : buf.length ≤ fd.offset) :
    fd.seekCur (toInt64 ((written : ℤ) - buf.length)) =
      some { fd with offset := fd.offset - buf.length + written } := by
  have hsize : BUFSIZ = 8192 := rfl
  have hto : (fd.offset : ℤ) + ((written : ℤ) - buf.length) =
      ((fd.offset - buf.length + written : ℕ) : ℤ) := by omega
  rw [toInt64_of_range (by omega) (by omega), Fd.seekCur, hto, Fd.seek_natCast]

/-- The loop of `head_lines` outputs the first `m` lines of what is left of the file, and leaves the
offset behind them, however the reads split them. -/
theorem headLoop_spec (io : Io) (hreads : none ∉ io.fd.reads) (hm : m < 2 ^ 31) :
    ∃ io', Returns (fun fuel => headLoop d fuel m io) (io', some true) ∧
      io'.stdout = io.stdout ++ firstLines d m io.fd.rest ∧
      io'.fd.offset = io.fd.offset + (firstLines d m io.fd.rest).length := by
  -- induction on what is left of the file, of which every pass but the last reads something
  induction hrest : io.fd.rest.length using Nat.strongRecOn generalizing io m with
  | ind len ih =>
    rcases Nat.eq_zero_or_pos m with rfl | hpos
    · exact ⟨io, .succ (k := 0) fun fuel _ => by simp [headLoop], by simp, by simp⟩
    have hm0 : (m : ℤ) ≠ 0 := by omega
    rcases Fd.read_cases hreads BUFSIZ_pos with
      ⟨fd', hread, hnil, -, ho⟩ | ⟨b, bs, fd', hread, hle, hsplit, hc, ho, hreads'⟩
    · refine ⟨{ io with fd := fd' }, .succ (k := 0) ?_, by simp [hnil], by simp [ho, hnil]⟩
      intro fuel _
      simp [headLoop, hpos.ne', hread]
    have hwrite : writeLines d (b :: bs) 0 m = _ := writeLines_spec hpos hm 0
    by_cases hmany : m ≤ (b :: bs).count d
    · -- the last of the lines ends in what has been read
      rw [if_pos hmany, Nat.zero_add] at hwrite
      have hprefix : (firstLines d m (b :: bs)).length ≤ (b :: bs).length := by
        rw [← take_length_firstLines]
        exact List.length_take_le' ..
      have hseek := seekCur_back fd' hprefix hle (by omega)
      rw [hsplit, firstLines_append_of_le hmany]
      refine ⟨⟨{ fd' with offset := io.fd.offset + (firstLines d m (b :: bs)).length },
        io.stdout ++ firstLines d m (b :: bs)⟩, .succ (k := 1) ?_, rfl, rfl⟩
      intro fuel hf
      obtain ⟨fuel, rfl⟩ := Nat.exists_eq_add_of_le' hf
      simp only [headLoop, hm0, hread, hwrite, hseek, if_false, Option.bind_eq_bind, Option.bind_some,
        if_true, Io.xwriteStdout, take_length_firstLines, ho, Nat.add_sub_cancel]
    · rw [if_neg hmany] at hwrite
      push Not at hmany
      have hless : fd'.rest.length < len := by
        rw [← hrest, hsplit, List.length_append, List.length_cons]
        omega
      obtain ⟨io', ⟨k, hk⟩, hout, ho'⟩ := @ih _ hless
        (m - (b :: bs).count d) ⟨fd', io.stdout ++ b :: bs⟩ hreads' (by omega) rfl
      refine ⟨io', .succ (k := k) ?_, ?_, ?_⟩
      · intro fuel hf
        simp only [headLoop, hm0, hread, hwrite, if_false, Option.bind_eq_bind, Option.bind_some]
        exact hk fuel hf
      · rw [hout, hsplit, firstLines_append hmany, List.append_assoc]
      · rw [ho', hsplit, firstLines_append hmany, List.length_append, ← Nat.add_assoc, ← ho]

/-- `head -n N`, for every `N`, either delimiter and every regular file, however the reads split it:
if none of them fails, `head_lines` ends and outputs exactly the first `N` lines of the file, or all
of them if they are fewer, and the offset is then the number of bytes output. -/
theorem head_lines_first {num : ℤ} (hnum : 0 ≤ num) (hnum' : num < 2 ^ 31) (d : UInt8)
    (text out : List UInt8) {reads : List (Option ℕ)} (hreads : none ∉ reads) :
    ∃ io', Returns (headLines num d (Io.start text reads out)) (io', some true) ∧
      io'.stdout = out ++ firstLines d num.toNat text ∧
      io'.fd.offset = (firstLines d num.toNat text).length := by
  obtain ⟨N, rfl⟩ := Int.eq_ofNat_of_zero_le hnum
  obtain ⟨io', hret, hout, ho⟩ :=
    headLoop_spec (d := d) (m := N) (Io.start text reads out) hreads (by omega)
  exact ⟨io', hret, hout, ho.trans (Nat.zero_add _)⟩

/-- `head -n 1`, with reads of two bytes. -/
theorem head_lines_first_one :
    ∃ io', Returns (headLines 1 10 (Io.start [97, 10, 98, 10] [some 2, some 2] [])) (io', some true) ∧
      io'.stdout = [97, 10] ∧ io'.fd.offset = 2 := by
  obtain ⟨io', hret, hout, ho⟩ := head_lines_first (show (0 : ℤ) ≤ 1 by decide) (by decide) 10
    [97, 10, 98, 10] [] (show none ∉ [some 2, some 2] by decide)
  exact ⟨io', hret, hout.trans (by decide), ho.trans (by decide)⟩

end HeadTail

end Ulsp
