import Ulsp.HeadTail.Head
import Ulsp.HeadTail.TailLines

/-!
# All but the last lines

`elide_tail_lines_file` searches the blocks as `tail_lines` does, so that the count of the delimiters
it has passed is kept in the same way (`scanTail_eq`, `elideTailLoop_spec`). Its first block, which is
what follows the last full one, is empty where the size is a multiple of `BUFSIZ`; there an unended
last line is not counted as one of those to be left out, and one line too many is
(`elide_tail_lines_iff`).
-/

namespace Ulsp

open Lib

namespace HeadTail

variable {d : UInt8} {text buf : List UInt8} {pos n m fuel N : ℕ} {io : Io}

/-- The scan of `elide_tail_lines_file` is that of `tail_lines`, with an `int` for the count. -/
theorem scanTail_eq (hm : m < 2 ^ 31) :
    scanTail d buf fuel n m = (scanBlock d buf fuel n m).map (Sum.map id Nat.cast) := by
  induction fuel generalizing n m with
  | zero => rfl
  | succ fuel ih =>
    rw [scanTail, scanBlock]
    rcases Nat.eq_zero_or_pos n with rfl | hn
    · rfl
    rw [if_neg hn.ne', if_neg hn.ne']
    rcases memrchr d buf n with _ | i
    · rfl
    rcases Nat.eq_zero_or_pos m with rfl | hpos
    · rfl
    have hadd : addInt (m : ℤ) (-1) = some ((m - 1 : ℕ) : ℤ) := addInt_sub (b := 1) (by omega) hm
    have hne : (m : ℤ) ≠ 0 := by omega
    simp only [hne, hpos.ne', if_false, hadd, Option.bind_eq_bind, Option.bind_some]
    exact ih (by omega)

/-! ## The loop over the blocks -/

/-- A pass that finds where the last lines begin. -/
theorem elideTailLoop_found_eq {i : ℕ} {p : ℤ} {io' : Io}
    (hscan : scanTail d buf (buf.length + 1) buf.length m = some (.inl i))
    (hcopy : copyFd (toUInt64 p) { io with fd := { io.fd with offset := 0 } } fuel =
      some (io', true)) :
    elideTailLoop d (fuel + 1) p buf m io = some (io'.xwriteStdout (buf.take (i + 1)), true) := by
  simp only [elideTailLoop, hscan, Option.bind_eq_bind, Option.bind_some, hcopy, if_true,
    Option.pure_def]

/-- A pass over the first block. -/
theorem elideTailLoop_first_eq {m' : ℤ}
    (hscan : scanTail d buf (buf.length + 1) buf.length m = some (.inr m')) :
    elideTailLoop d (fuel + 1) 0 buf m io = some (io, true) := by
  simp only [elideTailLoop, hscan, Option.bind_eq_bind, Option.bind_some, if_true]

/-- A pass over another block, and the reading of the one before it. -/
theorem elideTailLoop_back_eq {p p' m' : ℤ} {fd fd' : Fd} {bytes : List UInt8}
    (hscan : scanTail d buf (buf.length + 1) buf.length m = some (.inr m')) (hp : p ≠ 0)
    (hadd : addInt p (-BUFSIZ) = some p') (hseek : io.fd.seek p' = some fd)
    (hread : fd.read BUFSIZ = (some bytes, fd')) (hne : bytes ≠ []) :
    elideTailLoop d (fuel + 1) p buf m io =
      elideTailLoop d fuel p' bytes m' { io with fd := fd' } := by
  obtain ⟨b, bs, rfl⟩ := List.exists_cons_of_ne_nil hne
  simp only [elideTailLoop, hscan, Option.bind_eq_bind, Option.bind_some, hp, if_false, hadd, hseek,
    hread]

/-- The loop has found the delimiter before the last `N` lines, at `i` in the block. -/
theorem elideTailLoop_found {i : ℕ} (hc : io.fd.contents = text) (hreads : io.fd.reads = [])
    (hpos : pos < 2 ^ 31) (hbuf : buf <+: text.drop pos) (hi : i < buf.length)
    (hscan : scanTail d buf (buf.length + 1) buf.length m = some (.inl i))
    (hd : text[pos + i]? = some d)
    (hcount : (text.drop (pos + i + 1)).count d + unended d text = N) :
    Outputs (fun fuel => elideTailLoop d fuel pos buf m io) true
      (io.stdout ++ butLastLines d N text) := by
  have hconv : toUInt64 (pos : ℤ) = pos := toUInt64_of_range (by omega)
  obtain ⟨io', ⟨k, hk⟩, hout⟩ :=
    copyFd_outputs pos ⟨{ io.fd with offset := 0 }, io.stdout⟩ (by simp [hreads])
  refine ⟨io'.xwriteStdout (buf.take (i + 1)), .succ (k := k) ?_, ?_⟩
  · intro fuel hf
    exact elideTailLoop_found_eq hscan (by rw [hconv]; exact hk fuel hf)
  · -- what precedes the block, and the block up to the delimiter
    have hblock : buf.take (i + 1) = (text.drop pos).take (i + 1) := by
      obtain ⟨rest, hrest⟩ := hbuf
      rw [← hrest, List.take_append_of_le_length hi]
    have hsplit : text.take (pos + (i + 1)) = text.take pos ++ (text.drop pos).take (i + 1) :=
      List.take_add
    show io'.stdout ++ buf.take (i + 1) = _
    rw [butLastLines_eq_take hd hcount, hout, hblock, Nat.add_assoc, hsplit, Fd.rest, List.drop_zero, hc,
      List.append_assoc]

/-- The loop over the blocks, with `N` lines to leave out, outputs all but the last `N` lines. -/
theorem elideTailLoop_spec (buf : List UInt8) (io : Io) {k : ℕ} (hm : m < 2 ^ 31)
    (hc : io.fd.contents = text) (hreads : io.fd.reads = []) (hlen : text.length < 2 ^ 31)
    (hpos : pos = BUFSIZ * k) (hbuf : buf <+: text.drop pos) (hn : pos + buf.length ≤ text.length)
    (hcount : (text.drop (pos + buf.length)).count d + m + unended d text = N) :
    Outputs (fun fuel => elideTailLoop d fuel pos buf m io) true
      (io.stdout ++ butLastLines d N text) := by
  induction k generalizing pos m buf io with
  | zero =>
    obtain rfl : pos = 0 := by simpa using hpos
    rcases scanBlock_spec (d := d) (m := m) (block_getElem? hbuf) hn (Nat.lt_succ_self _) with
      ⟨i, hscan, hi, hd, hcnt⟩ | ⟨m', hscan, hcnt⟩
    · have hscan' := (scanTail_eq hm).trans (congrArg _ hscan)
      exact elideTailLoop_found hc hreads (by omega) hbuf hi hscan' hd (by omega)
    · -- the beginning of the file: there are no more lines than are to be left out
      have hscan' := (scanTail_eq hm).trans (congrArg _ hscan)
      rw [List.drop_zero] at hcnt
      refine ⟨io, .succ (k := 0) fun fuel _ => elideTailLoop_first_eq hscan', ?_⟩
      rw [butLastLines_eq_nil (by omega), List.append_nil]
  | succ k ih =>
    rcases scanBlock_spec (d := d) (m := m) (block_getElem? hbuf) hn (Nat.lt_succ_self _) with
      ⟨i, hscan, hi, hd, hcnt⟩ | ⟨m', hscan, hcnt⟩
    · have hscan' := (scanTail_eq hm).trans (congrArg _ hscan)
      exact elideTailLoop_found hc hreads (by omega) hbuf hi hscan' hd (by omega)
    · -- the block before
      have hscan' := (scanTail_eq hm).trans (congrArg _ hscan)
      obtain rfl : pos = BUFSIZ * k + BUFSIZ := hpos.trans (Nat.mul_succ BUFSIZ k)
      have hsize := BUFSIZ_pos
      have hm' : m' ≤ m := by
        have hmono := List.Sublist.count_le d
          (List.drop_sublist_drop_left text (Nat.le_add_right (BUFSIZ * k + BUFSIZ) buf.length))
        omega
      obtain ⟨hadd, block, fd', hread, hc', hreads', hblock, hbuf'⟩ :=
        read_block_before (k := k) hc hreads hlen (by omega)
      obtain ⟨io', ⟨j, hj⟩, hout⟩ := ih (m := m') block ⟨fd', io.stdout⟩ (by omega) hc' hreads' rfl
        hbuf' (by omega) (by rw [hblock]; omega)
      refine ⟨io', .succ (k := j) ?_, hout⟩
      intro fuel hf
      rw [elideTailLoop_back_eq hscan' (by omega) hadd (Fd.seek_natCast _ _) hread
        (List.ne_nil_of_length_pos (by omega))]
      exact hj fuel hf

/-! ## `elide_tail_lines_file` -/

/-- `elide_tail_lines_file` of an empty file, or without lines to leave out. -/
theorem elideTailLinesFile_all (text out : List UInt8) (h : N = 0 ∨ text = []) :
    Outputs (elideTailLinesFile N d (.start text [] out)) true (out ++ text) := by
  have hcond : (N : ℤ) = 0 ∨ (Io.start text [] out).fd.contents.length = 0 := by simpa using h
  have hrun : elideTailLinesFile N d (.start text [] out) = copyFd text.length (.start text [] out) := by
    funext fuel
    simp only [elideTailLinesFile, if_pos hcond]
    rfl
  exact hrun ▸ copyFd_file text out

/-- The beginning of `elide_tail_lines_file`, up to the loop. -/
theorem elideTailLinesFile_eq {num nLines p : ℤ} {size : ℕ} {fd' : Fd} {bytes : List UInt8}
    (hsize : io.fd.contents.length = size) (hcond : ¬(num = 0 ∨ size = 0))
    (hp : toInt32 (toInt32 size - (size % BUFSIZ : ℕ)) = p)
    (hread : ((io.fd.seek p).getD io.fd).read (size % BUFSIZ) = (some bytes, fd'))
    (hlines : (if bytes ≠ [] ∧ bytes.getLast? ≠ some 10 then addInt num (-1) else some num) =
      some nLines) :
    elideTailLinesFile num d io fuel = elideTailLoop d fuel p bytes nLines { io with fd := fd' } := by
  simp only [elideTailLinesFile, hsize, if_neg hcond, hp, hread, Option.bind_eq_bind]
  split at hlines
  · next hlast => rw [if_pos hlast, hlines, Option.bind_some]
  · next hlast => rw [if_neg hlast, hlines, Option.bind_some]

/-- `elide_tail_lines_file`, for any delimiter: it leaves out one line less where its first block is not
empty and the last byte is no newline. -/
theorem elideTailLinesFile_spec (text out : List UInt8) (hN0 : 0 < N) (hN : N < 2 ^ 31)
    (hne : text ≠ []) (hlen : text.length < 2 ^ 31) :
    Outputs (elideTailLinesFile N d (.start text [] out)) true (out ++ butLastLines d
      ((if ¬BUFSIZ ∣ text.length ∧ text.getLast? ≠ some 10 then N - 1 else N) + unended d text)
      text) := by
  have hdiv := Nat.div_add_mod text.length BUFSIZ
  have hmod : text.length % BUFSIZ < BUFSIZ := Nat.mod_lt _ BUFSIZ_pos
  have hpos : toInt32 (toInt32 (text.length : ℤ) - (text.length % BUFSIZ : ℕ)) =
      ((BUFSIZ * (text.length / BUFSIZ) : ℕ) : ℤ) := by
    rw [toInt32_of_range (x := text.length) (by omega) (by omega),
      toInt32_of_range (by omega) (by omega)]
    omega
  generalize hk : text.length / BUFSIZ = k at hdiv hpos
  -- the first block is what follows the last full one
  have hread := Fd.read_full ⟨text, BUFSIZ * k, []⟩ (text.length % BUFSIZ) rfl
  have hbytes : (⟨text, BUFSIZ * k, []⟩ : Fd).rest.take (text.length % BUFSIZ) =
      text.drop (BUFSIZ * k) :=
    List.take_of_length_le (by rw [Fd.rest, List.length_drop]; show text.length - BUFSIZ * k ≤ _; omega)
  have hb : (text.drop (BUFSIZ * k)).length = text.length % BUFSIZ := by
    rw [List.length_drop]
    omega
  rw [hbytes] at hread
  have hlines : (if text.drop (BUFSIZ * k) ≠ [] ∧ (text.drop (BUFSIZ * k)).getLast? ≠ some 10 then
      addInt (N : ℤ) (-1) else some (N : ℤ)) =
      some (((if ¬BUFSIZ ∣ text.length ∧ text.getLast? ≠ some 10 then N - 1 else N : ℕ)) : ℤ) := by
    have hnil : text.drop (BUFSIZ * k) ≠ [] ↔ ¬BUFSIZ ∣ text.length := by
      rw [Nat.dvd_iff_mod_eq_zero, ← hb, ne_eq, ← List.length_eq_zero_iff]
    by_cases hdvd : BUFSIZ ∣ text.length
    · rw [if_neg (by simp [hnil, hdvd]), if_neg (by simp [hdvd])]
    · have hlast : (text.drop (BUFSIZ * k)).getLast? = text.getLast? := by
        rw [List.getLast?_drop, if_neg]
        have hzero : text.length % BUFSIZ ≠ 0 := mt Nat.dvd_of_mod_eq_zero hdvd
        omega
      have hadd : addInt (N : ℤ) (-1) = some ((N - 1 : ℕ) : ℤ) := addInt_sub (b := 1) hN0 hN
      simp only [hnil, hdvd, hlast, hadd, not_false_eq_true, true_and]
      split <;> rfl
  let io : Io := ⟨⟨text, BUFSIZ * k + (text.drop (BUFSIZ * k)).length, []⟩, out⟩
  have hc : io.fd.contents = text := rfl
  obtain ⟨io', ⟨j, hj⟩, hout⟩ := elideTailLoop_spec (d := d) (k := k) (text.drop (BUFSIZ * k)) io
    (m := if ¬BUFSIZ ∣ text.length ∧ text.getLast? ≠ some 10 then N - 1 else N) (by split <;> omega)
    hc rfl hlen rfl (List.prefix_refl _) (by omega) (by
      rw [hb, hdiv, List.drop_length, List.count_nil, Nat.zero_add])
  refine ⟨io', ⟨j, ?_⟩, hout⟩
  intro fuel hf
  have hcond : ¬((N : ℤ) = 0 ∨ text.length = 0) := by
    rw [List.length_eq_zero_iff]
    simp [hne, hN0.ne']
  have hrun : elideTailLinesFile N d (.start text [] out) fuel = _ :=
    elideTailLinesFile_eq rfl hcond hpos hread hlines
  rw [hrun]
  exact hj fuel hf

/-! ## The purpose of `head -n -N` -/

/-- What `head -n -N` is for: it outputs all but the last `N` lines, so that `tail -n N` behind it
completes the file. -/
def OmitsLastLines (text out : List UInt8) (N : ℕ) : Prop :=
  Outputs (elideTailLinesFile N 10 (.start text [] out)) true (out ++ butLastLines 10 N text) ∧
  Outputs (tailLines N 10 text.length (.start text [] (out ++ butLastLines 10 N text))) true
    (out ++ text)

/-- The second part of it needs no condition. -/
theorem tailLines_completes (text out : List UInt8) (hN : N < 2 ^ 31) (hlen : text.length < 2 ^ 31) :
    Outputs (tailLines N 10 text.length (.start text [] (out ++ butLastLines 10 N text))) true
      (out ++ text) := by
  have htail := tailLines_newline (.start text [] (out ++ butLastLines 10 N text)) hN rfl hlen
  rwa [Io.start_stdout, Io.start_contents, List.append_assoc, butLastLines_append_lastLines] at htail

/-- How many lines are left out decides it. -/
theorem omitsLastLines_iff (text out : List UInt8) (hN0 : 0 < N) (hN : N < 2 ^ 31) (hne : text ≠ [])
    (hlen : text.length < 2 ^ 31) : OmitsLastLines text out N ↔
      min ((if ¬BUFSIZ ∣ text.length ∧ text.getLast? ≠ some 10 then N - 1 else N) + unended 10 text)
        (lines 10 text).length = min N (lines 10 text).length := by
  have hspec := elideTailLinesFile_spec (d := 10) text out hN0 hN hne hlen
  rw [OmitsLastLines, and_iff_left (tailLines_completes text out hN hlen), ← butLastLines_inj]
  refine ⟨?_, ?_⟩
  · intro h
    exact List.append_cancel_left (hspec.unique h).2
  · intro heq
    rwa [← heq]

/-- `head -n -N`, for every `N` and every regular file of less than 2 GiB, where each `read` returns
what it is asked for: it leaves out exactly the last `N` lines if and only if the size is no multiple
of `BUFSIZ`, or the last line is ended, or there is nothing to leave out or nothing to be left. -/
theorem elide_tail_lines_iff (text out : List UInt8) (hN : N < 2 ^ 31) (hlen : text.length < 2 ^ 31) :
    OmitsLastLines text out N ↔
      N = 0 ∨ ¬BUFSIZ ∣ text.length ∨ text.getLast? = some 10 ∨ (lines 10 text).length ≤ N := by
  by_cases hall : N = 0 ∨ text = []
  · have hbut : butLastLines 10 N text = text := by
      rcases hall with rfl | rfl
      · simp [butLastLines, flatten_lines]
      · simp [butLastLines, lines]
    rw [OmitsLastLines, and_iff_left (tailLines_completes text out hN hlen), hbut]
    refine iff_of_true (elideTailLinesFile_all text out hall) ?_
    rcases hall with rfl | rfl
    · exact .inl rfl
    · exact .inr (.inr (.inr (Nat.zero_le N)))
  obtain ⟨hN0, hne⟩ := not_or.mp hall
  rw [omitsLastLines_iff text out (Nat.pos_of_ne_zero hN0) hN hne hlen, unended_of_ne_nil hne]
  by_cases hlast : text.getLast? = some 10
  · simp [hlast]
  by_cases hdvd : BUFSIZ ∣ text.length
  · -- the last line is not counted
    simp only [hdvd, hlast, hN0, not_true_eq_false, false_and, if_false, false_or]
    omega
  · simp only [hdvd, hlast, ne_eq, not_false_eq_true, and_self, if_true, if_false, true_or, or_true,
      iff_true]
    omega

/-- `head -n -1` of the two lines of a file of three bytes, the second unended. -/
theorem elide_tail_lines_short : OmitsLastLines [97, 10, 98] [] 1 :=
  (elide_tail_lines_iff [97, 10, 98] [] (by decide) (by decide)).mpr (.inr (.inl (by decide)))

/-- `head -n -1` of two lines that fill a block, the second unended: it outputs neither. -/
theorem elide_tail_lines_block : ¬OmitsLastLines (10 :: List.replicate 8191 97) [] 1 := by
  have hdvd : BUFSIZ ∣ (10 :: List.replicate 8191 (97 : UInt8)).length := by
    rw [List.length_cons, List.length_replicate]
    exact dvd_refl 8192
  have hlast : (10 :: List.replicate 8191 (97 : UInt8)).getLast? = some 97 := by
    rw [List.getLast?_cons, List.getLast?_replicate, if_neg (by decide), Option.getD_some]
  have hcount : (10 :: List.replicate 8191 (97 : UInt8)).count 10 = 1 := by
    rw [List.count_cons_self, List.count_replicate, if_neg (by decide)]
  have hunended : unended 10 (10 :: List.replicate 8191 (97 : UInt8)) = 1 := by
    rw [unended_of_ne_nil (List.cons_ne_nil _ _), hlast, if_neg (by decide)]
  rw [omitsLastLines_iff _ _ Nat.one_pos (by decide) (List.cons_ne_nil _ _)
    (by rw [List.length_cons, List.length_replicate]; decide), length_lines, hcount, hunended,
    if_neg (fun h => h.1 hdvd)]
  decide

end HeadTail

end Ulsp
