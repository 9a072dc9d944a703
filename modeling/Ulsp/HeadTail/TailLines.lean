import Ulsp.HeadTail.Tail

/-!
# The last lines

What the search of `tail_lines` has passed is counted against what is left of `n_lines`: the
delimiters behind the position it is at and `n_lines` are together the number asked for, less one for
an unended last line (`scanBlock_spec`, `tailLoop_spec`). The count goes over the blocks, whatever
their boundaries.
-/

namespace Ulsp

open Lib

namespace HeadTail

variable {d : UInt8} {text buf : List UInt8} {pos n m fuel N : ℕ} {io : Io}

/-- The search finds the last delimiter of the block at `pos` before its position `n`. -/
theorem memrchr_spec (hbuf : ∀ k < n, buf[k]? = text[pos + k]?) (hn : pos + n ≤ text.length) :
    (memrchr d buf n = none ∧ (text.drop pos).count d = (text.drop (pos + n)).count d) ∨
    ∃ i, memrchr d buf n = some i ∧ i < n ∧ text[pos + i]? = some d ∧
      (text.drop (pos + i + 1)).count d = (text.drop (pos + n)).count d := by
  induction n with
  | zero => exact .inl ⟨rfl, rfl⟩
  | succ n ih =>
    have hlt : pos + n < text.length := by omega
    have hget : text[pos + n]? = some text[pos + n] := List.getElem?_eq_getElem hlt
    rw [memrchr, hbuf n (Nat.lt_succ_self n), hget]
    have hcount := count_drop (d := d) hget
    rcases eq_or_ne text[pos + n] d with heq | hne
    · exact .inr ⟨n, by rw [heq, if_pos rfl], Nat.lt_succ_self n, by rw [hget, heq], rfl⟩
    · rw [if_neg hne, Nat.add_zero] at hcount
      rw [if_neg (by simpa using hne), ← Nat.add_assoc, ← hcount]
      rcases ih (fun k hk => hbuf k (by omega)) (by omega) with hnone | ⟨i, hi, hin, hd, hcnt⟩
      · exact .inl hnone
      · exact .inr ⟨i, hi, by omega, hd, hcnt⟩

/-- The scan of the block at `pos`, before its position `n`: it stops at a delimiter behind which there
are `m` more than behind `n`, or lowers `m` by the delimiters of the block. -/
theorem scanBlock_spec (hbuf : ∀ k < n, buf[k]? = text[pos + k]?) (hn : pos + n ≤ text.length)
    (hf : n < fuel) :
    (∃ i, scanBlock d buf fuel n m = some (.inl i) ∧ i < n ∧ text[pos + i]? = some d ∧
      (text.drop (pos + i + 1)).count d = (text.drop (pos + n)).count d + m) ∨
    ∃ m', scanBlock d buf fuel n m = some (.inr m') ∧
      (text.drop pos).count d + m' = (text.drop (pos + n)).count d + m := by
  induction fuel generalizing n m with
  | zero => omega
  | succ fuel ih =>
    rw [scanBlock]
    rcases Nat.eq_zero_or_pos n with rfl | hpos
    · exact .inr ⟨m, rfl, rfl⟩
    rw [if_neg hpos.ne']
    rcases memrchr_spec (d := d) hbuf hn with ⟨hnone, hcount⟩ | ⟨i, hi, hin, hd, hcount⟩
    · exact .inr ⟨m, by rw [hnone], by rw [hcount]⟩
    rcases Nat.eq_zero_or_pos m with rfl | hm
    · exact .inl ⟨i, by simp [hi], hin, hd, hcount⟩
    have hhere := count_drop (d := d) hd
    rw [if_pos rfl, hcount] at hhere
    simp only [hi, if_neg hm.ne']
    rcases ih (n := i) (m := m - 1) (fun k hk => hbuf k (by omega)) (by omega) (by omega) with
      ⟨j, hj, hji, hdj, hcnt⟩ | ⟨m', hm', hcnt⟩
    · exact .inl ⟨j, hj, by omega, hdj, by omega⟩
    · exact .inr ⟨m', hm', by omega⟩

/-- The copying of what follows a position. -/
theorem copyFrom_spec (pos : ℕ) (hc : io.fd.contents = text) (hreads : io.fd.reads = [])
    (hlen : text.length < 2 ^ 31) (hpos : pos ≤ text.length) :
    ∃ io', Returns (copyFrom text.length pos io) (io', true) ∧
      io'.stdout = io.stdout ++ text.drop pos := by
  have hsub := addInt_sub hpos hlen
  have hconv : toUInt64 ((text.length - pos : ℕ) : ℤ) = text.length - pos :=
    toUInt64_of_range (by omega)
  obtain ⟨io', ⟨k, hk⟩, hout⟩ := copyFd_outputs (text.length - pos)
    ⟨⟨io.fd.contents, pos, io.fd.reads⟩, io.stdout⟩ (by simp [hreads])
  refine ⟨io', ⟨k, ?_⟩, ?_⟩
  · intro fuel hf
    simp only [copyFrom, Fd.seek_natCast, hsub, Option.bind_eq_bind, Option.bind_some, hconv]
    exact hk fuel hf
  · rw [hout, Fd.rest, hc, List.take_of_length_le (by simp)]

/-! ## The loop over the blocks -/

/-- A pass that finds where the lines begin. -/
theorem tailLoop_found_eq {i : ℕ} {p filesize : ℤ}
    (hscan : scanBlock d buf (buf.length + 1) buf.length m = some (.inl i)) :
    tailLoop d filesize (fuel + 1) p buf m io =
      copyFrom filesize (toInt32 (p + (i + 1))) io fuel := by
  simp only [tailLoop, hscan, Option.bind_eq_bind, Option.bind_some]

/-- A pass over the first block. -/
theorem tailLoop_first_eq {m' : ℕ} {filesize : ℤ}
    (hscan : scanBlock d buf (buf.length + 1) buf.length m = some (.inr m')) :
    tailLoop d filesize (fuel + 1) 0 buf m io = copyFrom filesize 0 io fuel := by
  simp only [tailLoop, hscan, Option.bind_eq_bind, Option.bind_some, if_true]

/-- A pass over another block, and the reading of the one before it. -/
theorem tailLoop_back_eq {m' : ℕ} {p p' filesize : ℤ} {fd fd' : Fd} {bytes : List UInt8}
    (hscan : scanBlock d buf (buf.length + 1) buf.length m = some (.inr m')) (hp : p ≠ 0)
    (hadd : addInt p (-BUFSIZ) = some p') (hseek : io.fd.seek p' = some fd)
    (hread : fd.read BUFSIZ = (some bytes, fd')) (hne : bytes ≠ []) :
    tailLoop d filesize (fuel + 1) p buf m io =
      tailLoop d filesize fuel p' bytes m' { io with fd := fd' } := by
  obtain ⟨b, bs, rfl⟩ := List.exists_cons_of_ne_nil hne
  simp only [tailLoop, hscan, Option.bind_eq_bind, Option.bind_some, hp, if_false, hadd, hseek, hread]

/-- The loop has found the delimiter before the last `N` lines, at `i` in the block. -/
theorem tailLoop_found {i : ℕ} (hc : io.fd.contents = text) (hreads : io.fd.reads = [])
    (hlen : text.length < 2 ^ 31)
    (hscan : scanBlock d buf (buf.length + 1) buf.length m = some (.inl i))
    (hd : text[pos + i]? = some d)
    (hcount : (text.drop (pos + i + 1)).count d + unended d text = N) :
    ∃ io', Returns (fun fuel => tailLoop d text.length fuel pos buf m io) (io', true) ∧
      io'.stdout = io.stdout ++ lastLines d N text := by
  have hlt : pos + i < text.length := (List.getElem?_eq_some_iff.mp hd).1
  have hconv : toInt32 ((pos : ℤ) + ((i : ℤ) + 1)) = ((pos + i + 1 : ℕ) : ℤ) := by
    rw [toInt32_of_range (by omega) (by omega)]
    omega
  obtain ⟨io', ⟨k, hk⟩, hout⟩ := copyFrom_spec (pos + i + 1) hc hreads hlen hlt
  refine ⟨io', .succ (k := k) ?_, by rw [hout, lastLines_eq_drop hd hcount]⟩
  intro fuel hf
  rw [tailLoop_found_eq hscan, hconv]
  exact hk fuel hf

/-- The bytes of a block, by their positions in the file. -/
theorem block_getElem? (hbuf : buf <+: text.drop pos) :
    ∀ i < buf.length, buf[i]? = text[pos + i]? := by
  intro i hi
  obtain ⟨rest, hrest⟩ := hbuf
  rw [← List.getElem?_drop, ← hrest, List.getElem?_append_left hi]

/-- The block before the one at `BUFSIZ * (k + 1)`. -/
theorem read_block_before {fd : Fd} {k : ℕ} (hc : fd.contents = text) (hreads : fd.reads = [])
    (hlen : text.length < 2 ^ 31) (hle : BUFSIZ * k + BUFSIZ ≤ text.length) :
    addInt ((BUFSIZ * k + BUFSIZ : ℕ) : ℤ) (-BUFSIZ) = some ((BUFSIZ * k : ℕ) : ℤ) ∧
    ∃ block fd', ({ fd with offset := BUFSIZ * k } : Fd).read BUFSIZ = (some block, fd') ∧
      fd'.contents = text ∧ fd'.reads = [] ∧ block.length = BUFSIZ ∧
      block <+: text.drop (BUFSIZ * k) := by
  have hread := Fd.read_full { fd with offset := BUFSIZ * k } BUFSIZ hreads
  refine ⟨?_, _, _, hread, hc, hreads, ?_, ?_⟩
  · rw [addInt_sub (by omega) (by omega), Nat.add_sub_cancel]
  · rw [Fd.rest, hc, List.length_take, List.length_drop]
    show min BUFSIZ (text.length - BUFSIZ * k) = BUFSIZ
    omega
  · rw [Fd.rest, hc]
    exact List.take_prefix _ _

/-- The loop over the blocks, with `N` lines to output, outputs the last `N` lines. -/
theorem tailLoop_spec (buf : List UInt8) (io : Io) {k : ℕ} (hc : io.fd.contents = text)
    (hreads : io.fd.reads = []) (hlen : text.length < 2 ^ 31) (hpos : pos = BUFSIZ * k)
    (hbuf : buf <+: text.drop pos) (hn : pos + buf.length ≤ text.length)
    (hcount : (text.drop (pos + buf.length)).count d + m + unended d text = N) :
    ∃ io', Returns (fun fuel => tailLoop d text.length fuel pos buf m io) (io', true) ∧
      io'.stdout = io.stdout ++ lastLines d N text := by
  induction k generalizing pos m buf io with
  | zero =>
    obtain rfl : pos = 0 := by simpa using hpos
    rcases scanBlock_spec (d := d) (m := m) (block_getElem? hbuf) hn (Nat.lt_succ_self _) with
      ⟨i, hscan, -, hd, hcnt⟩ | ⟨m', hscan, hcnt⟩
    · exact tailLoop_found hc hreads hlen hscan hd (by omega)
    · -- the beginning of the file: there are no more lines than are asked for
      rw [List.drop_zero] at hcnt
      obtain ⟨io', ⟨j, hj⟩, hout⟩ := copyFrom_spec 0 hc hreads hlen (Nat.zero_le _)
      refine ⟨io', .succ (k := j) ?_, ?_⟩
      · intro fuel hf
        rw [Nat.cast_zero, tailLoop_first_eq hscan]
        exact hj fuel hf
      · rw [hout, List.drop_zero, lastLines_eq_self (by omega)]
  | succ k ih =>
    rcases scanBlock_spec (d := d) (m := m) (block_getElem? hbuf) hn (Nat.lt_succ_self _) with
      ⟨i, hscan, -, hd, hcnt⟩ | ⟨m', hscan, hcnt⟩
    · exact tailLoop_found hc hreads hlen hscan hd (by omega)
    · -- the block before
      obtain rfl : pos = BUFSIZ * k + BUFSIZ := hpos.trans (Nat.mul_succ BUFSIZ k)
      have hsize := BUFSIZ_pos
      obtain ⟨hadd, block, fd', hread, hc', hreads', hblock, hbuf'⟩ :=
        read_block_before (k := k) hc hreads hlen (by omega)
      obtain ⟨io', ⟨j, hj⟩, hout⟩ := ih (m := m') block ⟨fd', io.stdout⟩ hc' hreads' rfl hbuf'
        (by omega) (by rw [hblock]; omega)
      refine ⟨io', .succ (k := j) ?_, hout⟩
      intro fuel hf
      rw [tailLoop_back_eq hscan (by omega) hadd (Fd.seek_natCast _ _) hread
        (List.ne_nil_of_length_pos (by omega))]
      exact hj fuel hf

/-! ## `tail_lines` -/

/-- The last block of a file: full, where the size is a multiple of `BUFSIZ`. -/
theorem exists_lastBlock {size : ℕ} (h : 0 < size) :
    ∃ k b, 0 < b ∧ b ≤ BUFSIZ ∧ size = BUFSIZ * k + b ∧
    (if (size : ℤ).tmod BUFSIZ = 0 then (BUFSIZ : ℤ) else (size : ℤ).tmod BUFSIZ) = b := by
  have hmod : (size : ℤ).tmod BUFSIZ = ((size % BUFSIZ : ℕ) : ℤ) := (Int.ofNat_tmod ..).symm
  have hdiv := Nat.div_add_mod size BUFSIZ
  have hsize := BUFSIZ_pos
  rw [hmod]
  rcases Nat.eq_zero_or_pos (size % BUFSIZ) with hzero | hpos
  · have hquot : 0 < size / BUFSIZ := Nat.pos_of_ne_zero fun hq => by
      rw [hq, hzero] at hdiv
      omega
    obtain ⟨k, hk⟩ := Nat.exists_eq_succ_of_ne_zero hquot.ne'
    refine ⟨k, BUFSIZ, hsize, le_rfl, ?_, by rw [hzero]; rfl⟩
    rw [hzero, hk, Nat.mul_succ] at hdiv
    exact hdiv.symm
  · refine ⟨size / BUFSIZ, size % BUFSIZ, hpos, (Nat.mod_lt _ hsize).le, hdiv.symm, if_neg ?_⟩
    omega

/-- What `tail_lines` is to pass, without the unended last line. -/
theorem passed_add_unended {n : ℕ} (hn : 0 < n) (hc : text ≠ []) :
    (if text.getLast? ≠ some d then n - 1 else n) + unended d text = n := by
  rw [unended_of_ne_nil hc]
  by_cases hlast : text.getLast? = some d
  · simp [hlast]
  · simp only [ne_eq, hlast, not_false_eq_true, if_true, if_false]
    omega

/-- The beginning of `tail_lines`, up to the loop. -/
theorem tailLines_eq {num filesize b : ℤ} {fd fd' : Fd} {bytes : List UInt8}
    (hcond : ¬(filesize = 0 ∨ toUInt64 num = 0))
    (hblock : (if filesize.tmod BUFSIZ = 0 then (BUFSIZ : ℤ) else filesize.tmod BUFSIZ) = b)
    (hseek : io.fd.seek (toInt32 (filesize - b)) = some fd)
    (hread : fd.read (toUInt64 b) = (some bytes, fd')) (hne : bytes ≠ [])
    (hle : bytes.length ≤ BUFSIZ) : tailLines num d filesize io fuel =
      tailLoop d filesize fuel (toInt32 (filesize - b)) bytes
        (if bytes.getLast? ≠ some 10 then toUInt64 num - 1 else toUInt64 num)
        { io with fd := fd' } := by
  have hfits : ¬(bytes = [] ∨ BUFSIZ < bytes.length) := not_or.mpr ⟨hne, hle.not_gt⟩
  simp only [tailLines, hcond, hblock, hseek, hread, hfits, if_false]

/-- `tail_lines` of an empty file, or without lines to output. -/
theorem tailLines_none (hN : N < 2 ^ 31) (h : io.fd.contents = [] ∨ N = 0) :
    tailLines N d io.fd.contents.length io fuel = some (io, true) := by
  have hconv : toUInt64 (N : ℤ) = N := toUInt64_of_range (by omega)
  have hcond : (io.fd.contents.length : ℤ) = 0 ∨ toUInt64 (N : ℤ) = 0 := by
    rw [hconv]
    simpa using h
  simp only [tailLines, if_pos hcond]

/-- `tail_lines`, for any delimiter: it passes one delimiter less where the last byte is no newline. -/
theorem tailLines_spec (io : Io) (hN0 : 0 < N) (hN : N < 2 ^ 31) (hreads : io.fd.reads = [])
    (hne : io.fd.contents ≠ []) (hlen : io.fd.contents.length < 2 ^ 31) :
    Outputs (tailLines N d io.fd.contents.length io) true (io.stdout ++ lastLines d
      ((if io.fd.contents.getLast? ≠ some 10 then N - 1 else N) + unended d io.fd.contents)
      io.fd.contents) := by
  have hconv : toUInt64 (N : ℤ) = N := toUInt64_of_range (by omega)
  generalize hc : io.fd.contents = text at hlen hne ⊢
  obtain ⟨k, b, hb, hle, hsize, hread⟩ := exists_lastBlock (List.length_pos_of_ne_nil hne)
  have hpos : toInt32 ((text.length : ℤ) - b) = ((BUFSIZ * k : ℕ) : ℤ) := by
    rw [toInt32_of_range (by omega) (by omega)]
    omega
  let fd : Fd := { io.fd with offset := BUFSIZ * k }
  have hseek : io.fd.seek (toInt32 ((text.length : ℤ) - b)) = some fd := by
    rw [hpos]
    exact Fd.seek_natCast _ _
  have hfull := Fd.read_full fd b hreads
  have hbytes : fd.rest.take b = text.drop (BUFSIZ * k) := by
    rw [Fd.rest, hc]
    exact List.take_of_length_le (by rw [List.length_drop]; show text.length - BUFSIZ * k ≤ b; omega)
  have hb' : (text.drop (BUFSIZ * k)).length = b := by
    rw [List.length_drop]
    omega
  have hconvb : toUInt64 (b : ℤ) = b := toUInt64_of_range (by omega)
  rw [hbytes, ← hconvb] at hfull
  have hne' : text.drop (BUFSIZ * k) ≠ [] := List.ne_nil_of_length_pos (by omega)
  have hlast : (text.drop (BUFSIZ * k)).getLast? = text.getLast? := by
    rw [List.getLast?_drop, if_neg (by omega)]
  obtain ⟨io', ⟨j, hj⟩, hout⟩ := tailLoop_spec (d := d) (k := k) (text.drop (BUFSIZ * k))
    ⟨{ fd with offset := fd.offset + (text.drop (BUFSIZ * k)).length }, io.stdout⟩
    (m := if text.getLast? ≠ some 10 then N - 1 else N) hc hreads hlen rfl
    (List.prefix_refl _) (by omega) (by
      rw [hb', ← hsize, List.drop_length, List.count_nil, Nat.zero_add])
  refine ⟨io', ⟨j, ?_⟩, hout⟩
  intro fuel hf
  have hcond : ¬((text.length : ℤ) = 0 ∨ toUInt64 (N : ℤ) = 0) := by
    rw [hconv]
    omega
  rw [tailLines_eq hcond hread hseek hfull hne' (by omega), hpos, hconv, hlast]
  exact hj fuel hf

/-- `tail_lines` outputs the last lines, where newlines end them. -/
theorem tailLines_newline (io : Io) (hN : N < 2 ^ 31) (hreads : io.fd.reads = [])
    (hlen : io.fd.contents.length < 2 ^ 31) :
    Outputs (tailLines N 10 io.fd.contents.length io) true
      (io.stdout ++ lastLines 10 N io.fd.contents) := by
  by_cases hnone : io.fd.contents = [] ∨ N = 0
  · refine ⟨io, ⟨0, fun fuel _ => tailLines_none hN hnone⟩, ?_⟩
    rcases hnone with hnil | rfl
    · simp [hnil, lastLines, lines]
    · simp [lastLines]
  obtain ⟨hne, hN0⟩ := not_or.mp hnone
  have hspec := tailLines_spec (d := 10) io (Nat.pos_of_ne_zero hN0) hN hreads hne hlen
  rwa [passed_add_unended (Nat.pos_of_ne_zero hN0) hne] at hspec

/-- `tail -n N`, for every `N` and every regular file of less than 2 GiB: where each `read` returns
what it is asked for, `tail_lines` ends and outputs exactly the last `N` lines of the file, or all of
them if they are fewer. -/
theorem tail_lines_last {num : ℤ} (hnum : 0 ≤ num) (hnum' : num < 2 ^ 31) (hreads : io.fd.reads = [])
    (hlen : io.fd.contents.length < 2 ^ 31) :
    ∃ io', Returns (tailLines num 10 io.fd.contents.length io) (io', true) ∧
      io'.stdout = io.stdout ++ lastLines 10 num.toNat io.fd.contents := by
  obtain ⟨N, rfl⟩ := Int.eq_ofNat_of_zero_le hnum
  exact tailLines_newline io (by omega) hreads hlen

/-- `tail -n 1` of a file of two lines, of which the second is unended. -/
theorem tail_lines_last_one :
    ∃ io', Returns (tailLines 1 10 3 ⟨⟨[97, 10, 98], 0, []⟩, []⟩) (io', true) ∧
      io'.stdout = [98] := by
  have hreads : (⟨⟨[97, 10, 98], 0, []⟩, []⟩ : Io).fd.reads = [] := rfl
  obtain ⟨io', hret, hout⟩ :=
    tail_lines_last (show (0 : ℤ) ≤ 1 by decide) (by decide) hreads (by decide)
  exact ⟨io', hret, hout.trans (by decide)⟩

end HeadTail

end Ulsp
