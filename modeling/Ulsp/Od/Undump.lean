import Mathlib.Data.List.DropRight
import Ulsp.Od.Dump
import Ulsp.Od.Limit

/-!
# Reading a dump back

`usage` promises an unambiguous representation of the input. What `od` prints is not the standard dump,
as words from 2^15 on are printed as negative numbers and the rows of an odd width are not that wide,
but it keeps the promise: `undump` reads the bytes off a dump, without being told the width of its
rows, how many bytes were skipped or what the limit was (`unambiguous`).
-/

namespace Ulsp

open Lib

namespace Od

/-! ## The reader -/

/-- The octal number a text starts with. -/
def number (text : List Char) : ℕ := Nat.ofDigitChars 8 (text.takeWhile Char.isDigit) 0

/-- The numbers behind blanks. -/
def fields : List Char → List ℕ
  | [] => []
  | c :: text => if c = ' ' then number text :: fields text else fields text

/-- The bytes of a word. -/
def wordBytes (v : ℕ) : List UInt8 := [UInt8.ofNat v, UInt8.ofNat (v / 256)]

/-- The number at the end of the last line. -/
def lastNumber (text : List Char) : ℕ :=
  Nat.ofDigitChars 8 (text.dropLast.rtakeWhile Char.isDigit) 0

/-- The bytes of a dump: as many as its last address is behind its first. -/
def undump (text : List Char) : List UInt8 :=
  ((fields text).flatMap wordBytes).take (lastNumber text - number text)

/-- What `od` is to dump. -/
def dumped (limit : Option ℕ) (S : ℕ) (fs : List File) : List UInt8 :=
  let bytes := (concat fs).drop S
  limit.elim bytes bytes.take

variable {width S k n : ℕ} {ws : List UInt8} {odd : Option UInt8} {lo hi b : UInt8} {x : ℤ}
  {text rest digits : List Char}

/-! ## Numbers -/

/-- The text does not go on with a digit. -/
def Ended (text : List Char) : Prop := ∀ c ∈ text.head?, c.isDigit = false

/-- Padded octal digits are digits. -/
theorem isDigit_leftpad {m : ℕ} : ∀ c ∈ List.leftpad m '0' (Nat.toDigits 8 n), c.isDigit = true := by
  intro c hc
  rw [List.leftpad, List.mem_append] at hc
  rcases hc with hmem | hmem
  · rw [List.eq_of_mem_replicate hmem]
    rfl
  · exact Nat.isDigit_of_mem_toDigits (by decide) (by decide) hmem

/-- Padded octal digits have the value they were made from. -/
theorem ofDigitChars_leftpad {m : ℕ} :
    Nat.ofDigitChars 8 (List.leftpad m '0' (Nat.toDigits 8 n)) 0 = n := by
  rw [List.leftpad, Nat.ofDigitChars_append, Nat.ofDigitChars_replicate_zero, Nat.mul_zero,
    Nat.ofDigitChars_toDigits (by decide) (by decide)]

/-- Digits are taken up to where they end. -/
theorem takeWhile_digits (hdigits : ∀ c ∈ digits, c.isDigit = true) (hrest : Ended rest) :
    (digits ++ rest).takeWhile Char.isDigit = digits := by
  rw [List.takeWhile_append_of_pos hdigits]
  cases rest with
  | nil => rw [List.takeWhile_nil, List.append_nil]
  | cons c rest =>
    rw [List.takeWhile_cons_of_neg (by simp [hrest c rfl]), List.append_nil]

theorem number_leftpad {m : ℕ} (hrest : Ended rest) :
    number (List.leftpad m '0' (Nat.toDigits 8 n) ++ rest) = n := by
  rw [number, takeWhile_digits isDigit_leftpad hrest, ofDigitChars_leftpad]

/-- Digits are no field. -/
theorem fields_digits (hdigits : ∀ c ∈ digits, c.isDigit = true) :
    fields (digits ++ rest) = fields rest := by
  induction digits with
  | nil => rfl
  | cons c digits ih =>
    obtain ⟨hc, hdigits⟩ := List.forall_mem_cons.mp hdigits
    have hne : c ≠ ' ' := by
      rintro rfl
      exact absurd hc (by decide)
    rw [List.cons_append, fields, if_neg hne, ih hdigits]

/-- A word is one field. -/
theorem fields_octal (hrest : Ended rest) :
    fields (' ' :: octal 6 x ++ rest) = toUInt32 x :: fields rest := by
  rw [List.cons_append, fields, if_pos rfl, octal, number_leftpad hrest,
    fields_digits isDigit_leftpad]

/-! ## Words -/

/-- A word of two bytes, printed as a `short`, has these bytes. -/
theorem wordBytes_short : wordBytes (toUInt32 (short lo hi)) = [lo, hi] := by
  have hlo := lo.toNat_lt
  have hhi := hi.toNat_lt
  have hmod : toUInt32 (short lo hi) % 2 ^ 16 = lo.toNat + 256 * hi.toNat := by
    unfold toUInt32 short
    rw [Int.bmod_def]
    split <;> omega
  have hlow : UInt8.ofNat (toUInt32 (short lo hi)) = lo := by
    rw [← UInt8.toNat_inj, UInt8.toNat_ofNat']
    omega
  have hhigh : UInt8.ofNat (toUInt32 (short lo hi) / 256) = hi := by
    rw [← UInt8.toNat_inj, UInt8.toNat_ofNat']
    omega
  rw [wordBytes, hlow, hhigh]

/-- A byte, printed as a `char`, is the first of its word. -/
theorem wordBytes_char : ∃ b', wordBytes (toUInt32 (char b)) = [b, b'] := by
  have hb := b.toNat_lt
  have hmod : toUInt32 (char b) % 2 ^ 8 = b.toNat := by
    unfold toUInt32 char
    rw [Int.bmod_def]
    split <;> omega
  have hlow : UInt8.ofNat (toUInt32 (char b)) = b := by
    rw [← UInt8.toNat_inj, UInt8.toNat_ofNat']
    omega
  exact ⟨_, by rw [wordBytes, hlow]⟩

/-- What stands before a word is no field. -/
theorem fields_rowStart : fields (rowStart width S k ++ rest) = fields rest := by
  unfold rowStart
  split
  · rw [List.append_assoc]
    split
    · rw [List.nil_append, addressText, fields_digits isDigit_leftpad]
    · rw [List.singleton_append, fields, if_neg (by decide), addressText,
        fields_digits isDigit_leftpad]
  · rw [List.nil_append]

theorem ended_cons {c : Char} (hc : c.isDigit = false) : Ended (c :: text) := by
  rintro _ ⟨⟩
  exact hc

/-- A word ends the one before it, wherever its row starts. -/
theorem ended_word (hk : k ≠ 0) : Ended (rowStart width S k ++ ' ' :: text) := by
  unfold rowStart
  simp only [if_neg hk]
  split
  · exact ended_cons rfl
  · exact ended_cons rfl

/-- Words end what stands before them. -/
theorem ended_wordsText (hk : k ≠ 0) (hrest : Ended rest) : Ended (wordsText width S k ws ++ rest) := by
  fun_cases wordsText width S k ws with
  | case1 lo hi ws =>
    rw [List.append_assoc, List.append_assoc, List.cons_append]
    exact ended_word hk
  | case2 => exact hrest

/-- So does a last byte. -/
theorem ended_oddText (hk : k ≠ 0) (hrest : Ended rest) : Ended (oddText width S k odd ++ rest) := by
  cases odd with
  | none => exact hrest
  | some b =>
    rw [oddText, List.append_assoc, List.cons_append]
    exact ended_word hk

/-- The fields of words have their bytes. -/
theorem flatMap_wordsText (heven : 2 ∣ ws.length) (hrest : ws ≠ [] → Ended rest) :
    (fields (wordsText width S k ws ++ rest)).flatMap wordBytes =
      ws ++ (fields rest).flatMap wordBytes := by
  fun_induction wordsText width S k ws with
  | case1 k lo hi ws ih =>
    have heven' : 2 ∣ ws.length := by
      simp only [List.length_cons] at heven
      omega
    have hrest' : Ended rest := hrest (List.cons_ne_nil _ _)
    have hended : Ended (wordsText width S (k + 2) ws ++ rest) :=
      ended_wordsText (Nat.succ_ne_zero _) hrest'
    rw [List.append_assoc, List.append_assoc, fields_rowStart, fields_octal hended,
      List.flatMap_cons, wordBytes_short, ih heven' fun _ => hrest']
    rfl
  | case2 ws k hshort =>
    rcases ws with _ | ⟨lo, _ | ⟨hi, ws⟩⟩
    · rfl
    · simp at heven
    · exact absurd rfl (hshort lo hi ws)

/-- The field of a last byte has this byte, and another one. -/
theorem flatMap_oddText (width S k : ℕ) (odd : Option UInt8) (hrest : Ended rest) :
    ∃ more, (fields (oddText width S k odd ++ rest)).flatMap wordBytes =
      odd.toList ++ more ++ (fields rest).flatMap wordBytes := by
  cases odd with
  | none => exact ⟨[], rfl⟩
  | some b =>
    obtain ⟨b', hb⟩ := wordBytes_char (b := b)
    refine ⟨[b'], ?_⟩
    rw [oddText, List.append_assoc, fields_rowStart, fields_octal hrest, List.flatMap_cons, hb]
    rfl

/-! ## The dump -/

/-- The last address of a dump. -/
theorem lastNumber_addressText : lastNumber (text ++ '\n' :: addressText n ++ ['\n']) = n := by
  have hreverse : ((text ++ '\n' :: addressText n).reverse).takeWhile Char.isDigit =
      (addressText n).reverse := by
    rw [List.reverse_append, List.reverse_cons, List.append_assoc]
    refine takeWhile_digits (fun c hc => isDigit_leftpad c (List.mem_reverse.mp hc)) ?_
    rintro c ⟨⟩
    rfl
  rw [lastNumber, List.dropLast_concat, List.rtakeWhile, hreverse, List.reverse_reverse, addressText,
    ofDigitChars_leftpad]

theorem rowStart_zero : rowStart width S 0 = addressText S := by
  rw [rowStart, if_pos (Nat.dvd_zero width), if_pos rfl, List.nil_append, Nat.zero_add]

/-- The address before the first word. -/
theorem number_rowStart : number (rowStart width S 0 ++ ' ' :: rest) = S := by
  have hended : Ended (' ' :: rest) := ended_cons rfl
  rw [rowStart_zero, addressText, number_leftpad hended]

/-- The first address of a dump, if it is one of any bytes. -/
theorem number_dump (heven : 2 ∣ ws.length) (hne : ws ++ odd.toList ≠ []) :
    number (dump width S (ws ++ odd.toList)) = S := by
  rw [dump_odd heven]
  rcases ws with _ | ⟨lo, _ | ⟨hi, ws⟩⟩
  · cases odd with
    | none => exact absurd rfl hne
    | some b =>
      have hnil : wordsText width S 0 [] = [] := rfl
      rw [hnil, oddText, List.nil_append, List.append_assoc, List.append_assoc, List.cons_append]
      exact number_rowStart
  · simp at heven
  · rw [wordsText, List.append_assoc, List.append_assoc, List.append_assoc, List.append_assoc,
      List.cons_append]
    exact number_rowStart

/-- The last line has no fields. -/
theorem fields_lastLine : fields ('\n' :: addressText n ++ ['\n']) = [] := by
  rw [List.cons_append, fields, if_neg (by decide), addressText, fields_digits isDigit_leftpad]
  rfl

/-- The fields of a dump have its bytes, and maybe another one. -/
theorem flatMap_dump (width S : ℕ) (odd : Option UInt8) (heven : 2 ∣ ws.length) :
    ∃ more, (fields (dump width S (ws ++ odd.toList))).flatMap wordBytes =
      ws ++ odd.toList ++ more := by
  have hend : Ended ('\n' :: addressText (S + (ws.length + odd.toList.length)) ++ ['\n']) :=
    ended_cons rfl
  obtain ⟨more, hmore⟩ := flatMap_oddText width S ws.length odd hend
  refine ⟨more, ?_⟩
  rw [dump_odd heven, List.append_assoc, List.append_assoc, flatMap_wordsText heven ?_, hmore,
    fields_lastLine, List.flatMap_nil, List.append_nil, List.append_assoc]
  intro hws
  exact ended_oddText (mt List.length_eq_zero_iff.mp hws) hend

/-- Reading a dump gives what was dumped. -/
theorem undump_dump (width S : ℕ) (bs : List UInt8) : undump (dump width S bs) = bs := by
  rcases eq_or_ne bs [] with rfl | hne
  · have hnil : dump width S [] = '\n' :: addressText S ++ ['\n'] := by
      simp [dump, wordsText, oddText]
    rw [undump, hnil, fields_lastLine, List.flatMap_nil, List.take_nil]
  · obtain ⟨ws, odd, heven, rfl⟩ : ∃ ws odd, 2 ∣ ws.length ∧ bs = ws ++ Option.toList odd := by
      refine ⟨bs.take (bs.length / 2 * 2), bs[bs.length / 2 * 2]?, ?_, ?_⟩
      · rw [List.length_take]
        omega
      · rw [← List.take_add_one, List.take_of_length_le (by omega)]
    obtain ⟨more, hmore⟩ := flatMap_dump width S odd heven
    have hlast : lastNumber (dump width S (ws ++ odd.toList)) = S + (ws ++ odd.toList).length := by
      rw [dump_odd heven, lastNumber_addressText, List.length_append]
    rw [undump, hmore, hlast, number_dump heven hne, Nat.add_sub_cancel_left, List.take_left]

/-! ## The program -/

variable {limit : Option ℕ} {fs : List File}

/-- For all readable files, every positive width and every skip count and limit: if `od` ends, it
succeeds, and reading its output back gives the bytes that it was to dump. -/
theorem unambiguous (hfs : ∀ f ∈ fs, f.Readable) (hwidth : 0 < width) {r : List Char × Bool}
    (hrun : Returns (main ⟨limit.map (↑), width, S⟩ fs) r) :
    r.2 = true ∧ undump r.1 = dumped limit S fs := by
  obtain ⟨k, hk⟩ := hrun
  have hmain := hk (max k ((concat fs).length + 1)) (Nat.le_max_left _ _)
  have hfuel : (concat fs).length < max k ((concat fs).length + 1) := Nat.le_max_right _ _
  cases limit with
  | none =>
    obtain ⟨rfl, -⟩ := (mainWith_ends hfs hwidth hfuel).result r hmain
    exact ⟨rfl, undump_dump ..⟩
  | some M =>
    rw [Option.map_some, main, mainWith_limit hfs hwidth hfuel] at hmain
    split at hmain
    · have hfs' := limitFiles_readable (s := S) (n := M) hfs
      obtain ⟨rfl, -⟩ :=
        (mainWith_ends hfs' hwidth (length_concat_limitFiles.trans_lt hfuel)).result r hmain
      exact ⟨rfl, by rw [undump_dump, concat_limitFiles]; rfl⟩
    · cases hmain

/-- Behind a byte that is skipped there are a negative word and an odd byte, and one too many. -/
theorem unambiguous_three :
    Returns (main ⟨some 3, 3, 1⟩ [⟨true, [1, 0], []⟩, ⟨true, [128, 7, 9], [some 1]⟩])
      ("0000001 37777700000 000007\n0000004\n".toList, true) ∧
    undump "0000001 37777700000 000007\n0000004\n".toList = [0, 128, 7] := by
  have hfs : ∀ f ∈ ([⟨true, [1, 0], []⟩, ⟨true, [128, 7, 9], [some 1]⟩] : List File), f.Readable := by
    simp [File.Readable]
  have hrun : Returns (main ⟨some (3 : ℕ), (3 : ℕ), (1 : ℕ)⟩
      [⟨true, [1, 0], []⟩, ⟨true, [128, 7, 9], [some 1]⟩])
      ("0000001 37777700000 000007\n0000004\n".toList, true) := by
    have hfs' := limitFiles_readable (s := 1) (n := 3) hfs
    obtain ⟨k, hk⟩ := @mainWith_returns BUFSIZ 3 1 _ hfs' (by decide) (by decide) (by decide)
    refine ⟨max k 6, fun fuel hfuel => ?_⟩
    rw [main, @mainWith_limit fuel BUFSIZ 3 1 3 _ hfs (by decide) (show 5 < fuel by omega),
      if_pos (by decide),
      hk fuel (by omega)]
    decide
  exact ⟨hrun, (@unambiguous 3 1 (some 3) _ hfs (by decide) _ hrun).2⟩

end Od

end Ulsp
