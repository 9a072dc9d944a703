import Mathlib.Data.Nat.Prime.Defs
import Ulsp.Lib.Lines
import Ulsp.Od.Stream

/-!
# The dump of `od` against the standard one

A standard dump has rows of `width` bytes. Each starts with its address and gives its bytes in pairs,
as unsigned words of six octal digits, and the address of the end stands on a last line (`reference`).
What `od` prints has rows too (`dump_eq_listing`), but it prints words as the signed values that they
are after the conversion to `int`, and it moves on by pairs, so that an odd `width` does not end a row.
-/

namespace Ulsp

open Lib

namespace Od

/-! ## The standard dump -/

/-- The value of bytes, the least significant one first. -/
def value : List UInt8 → ℕ
  | [] => 0
  | b :: bs => b.toNat + 256 * value bs

/-- An unsigned word, in octal. -/
def wordText (w : List UInt8) : List Char := List.leftpad 6 '0' (Nat.toDigits 8 (value w))

/-- The words of a row, by how a word is printed. -/
def words (text : List UInt8 → List Char) : List UInt8 → List Char
  | lo :: hi :: bs => ' ' :: text [lo, hi] ++ words text bs
  | [b] => ' ' :: text [b]
  | [] => []

/-- Rows of `width` bytes, the first with address `k`. -/
def rows (text : List UInt8 → List Char) (width : ℕ) : ℕ → ℕ → List UInt8 → List Char
  | 0, _, _ => []
  | n + 1, k, bs =>
    addressText k ++ words text (bs.take width) ++
      '\n' :: rows text width n (k + width) (bs.drop width)

/-- How many rows `n` bytes make. -/
def rowCount (width n : ℕ) : ℕ := (n + width - 1) / width

/-- A dump, by how a word is printed. -/
def listing (text : List UInt8 → List Char) (width : ℕ) (bs : List UInt8) : List Char :=
  rows text width (rowCount width bs.length) 0 bs ++ (addressText bs.length ++ ['\n'])

/-- The standard dump. -/
def reference : ℕ → List UInt8 → List Char := listing wordText

example : reference 4 [1, 2, 255, 255, 3] =
    "0000000 001001 177777\n0000004 000003\n0000005\n".toList := by decide

variable {width k n q i : ℕ} {as bs bs' : List UInt8} {text : List UInt8 → List Char}

/-- No bytes make up no rows. -/
theorem rowCount_zero (hwidth : 0 < width) : rowCount width 0 = 0 :=
  Nat.div_eq_of_lt (by omega)

/-- A row is taken off. -/
theorem rowCount_pos (hwidth : 0 < width) (hn : 0 < n) :
    rowCount width n = rowCount width (n - width) + 1 := by
  unfold rowCount
  rcases Nat.le_total n width with hle | hle
  · rw [Nat.sub_eq_zero_of_le hle, Nat.div_eq_of_lt (by omega : 0 + width - 1 < width)]
    exact Nat.div_eq_of_lt_le (by omega) (by omega)
  · have hsum : n + width - 1 = n - width + width - 1 + width := by omega
    rw [hsum, Nat.add_div_right _ hwidth]

/-! ## Digits -/

/-- Padded octal digits are no line ends. -/
theorem newline_not_mem_leftpad {m : ℕ} : '\n' ∉ List.leftpad m '0' (Nat.toDigits 8 n) := by
  rw [List.leftpad, List.mem_append]
  rintro (hmem | hmem)
  · exact absurd (List.eq_of_mem_replicate hmem) (by decide)
  · exact absurd (Nat.isDigit_of_mem_toDigits (by decide) (by decide) hmem) (by decide)

/-- Padded octal digits give the number. -/
theorem leftpad_injective {m : ℕ} :
    Function.Injective fun n => List.leftpad m '0' (Nat.toDigits 8 n) := by
  intro n n' h
  have hval : ∀ n, Nat.ofDigitChars 8 (List.leftpad m '0' (Nat.toDigits 8 n)) 0 = n := by
    intro n
    rw [List.leftpad, Nat.ofDigitChars_append, Nat.ofDigitChars_replicate_zero, Nat.mul_zero,
      Nat.ofDigitChars_toDigits (by decide) (by decide)]
  rw [← hval n, ← hval n']
  exact congrArg (fun text => Nat.ofDigitChars 8 text 0) h

/-- The value of `n` bytes is less than `256 ^ n`. -/
theorem value_lt : value bs < 256 ^ bs.length := by
  induction bs with
  | nil => exact Nat.one_pos
  | cons b bs ih =>
    have hb := b.toNat_lt
    rw [value, List.length_cons, Nat.pow_succ]
    omega

/-- Bytes of one number have different values if they differ. -/
theorem value_injective (hlen : bs.length = bs'.length) (h : value bs = value bs') : bs = bs' := by
  induction bs generalizing bs' with
  | nil => exact (List.length_eq_zero_iff.mp hlen.symm).symm
  | cons b bs ih =>
    obtain ⟨b', bs', rfl⟩ := List.exists_cons_of_length_eq_add_one hlen.symm
    have hb := b.toNat_lt
    have hb' := b'.toNat_lt
    rw [value, value] at h
    rw [UInt8.toNat_inj.mp (show b.toNat = b'.toNat by omega),
      ih (by simpa using hlen) (by omega)]

/-- A word of two bytes at most has six digits. -/
theorem length_wordText (hlen : bs.length ≤ 2) : (wordText bs).length = 6 := by
  have hval : value bs < 8 ^ 6 :=
    calc value bs < 256 ^ bs.length := value_lt
      _ ≤ 256 ^ 2 := Nat.pow_le_pow_right (by decide) hlen
      _ ≤ 8 ^ 6 := by decide
  have hle := (Nat.length_toDigits_le_iff (by decide) (by decide : 0 < 6)).mpr hval
  rw [wordText, List.length_leftpad]
  exact Nat.max_eq_left hle

/-- Words of one length have different texts if they differ. -/
theorem wordText_injective (hlen : bs.length = bs'.length) (h : wordText bs = wordText bs') :
    bs = bs' :=
  value_injective hlen (leftpad_injective h)

/-! ## The input, recovered -/

/-- Bytes of one number have different words if they differ. -/
theorem words_injective (hlen : bs.length = bs'.length)
    (h : words wordText bs = words wordText bs') : bs = bs' := by
  fun_induction words wordText bs generalizing bs' with
  | case1 lo hi bs ih =>
    match bs', hlen with
    | lo' :: hi' :: bs', hlen =>
      rw [words] at h
      obtain ⟨hword, hrest⟩ := List.append_inj (List.cons.inj h).2
        (by rw [length_wordText (by simp), length_wordText (by simp)])
      have hpair : [lo, hi] = [lo', hi'] := wordText_injective rfl hword
      rw [ih (by simpa using hlen) hrest]
      simp_all
  | case2 b =>
    obtain ⟨b', rfl⟩ := List.length_eq_one_iff.mp hlen.symm
    exact wordText_injective rfl (List.cons.inj h).2
  | case3 => exact (List.length_eq_zero_iff.mp hlen.symm).symm

/-- A printing of words that ends no line. -/
def OneLine (text : List UInt8 → List Char) : Prop := ∀ w, '\n' ∉ text w

/-- A word is on one line. -/
theorem wordText_oneLine : OneLine wordText := fun _ => newline_not_mem_leftpad

/-- Words that are on one line each have no newline. -/
theorem newline_not_mem_words (htext : OneLine text) : '\n' ∉ words text bs := by
  fun_induction words text bs with
  | case1 lo hi bs ih => simpa [ih] using htext [lo, hi]
  | case2 b => simpa using htext [b]
  | case3 => simp

/-- A row has no line end but the one behind it. -/
theorem newline_not_mem_row (htext : OneLine text) : '\n' ∉ addressText k ++ words text bs := by
  rw [List.mem_append, not_or]
  exact ⟨newline_not_mem_leftpad, newline_not_mem_words htext⟩

/-- There are as many lines as rows, and one more. -/
theorem count_listing (htext : OneLine text) :
    (listing text width bs).count '\n' = rowCount width bs.length + 1 := by
  have hrows : ∀ n k bs, (rows text width n k bs).count '\n' = n := by
    intro n
    induction n with
    | zero => exact fun _ _ => rfl
    | succ n ih =>
      intro k bs
      rw [rows, List.count_append, List.count_eq_zero.mpr (newline_not_mem_row htext),
        List.count_cons_self, ih, Nat.zero_add]
  have hlast : '\n' ∉ addressText bs.length := newline_not_mem_leftpad
  rw [listing, List.count_append, hrows, List.count_append, List.count_eq_zero.mpr hlast]
  rfl

/-- Dumps with as many rows have one last line. -/
theorem lastLine_eq {m m' k' : ℕ} (h : rows wordText width n k bs ++ (addressText m ++ ['\n']) =
    rows wordText width n k' bs' ++ (addressText m' ++ ['\n'])) : m = m' := by
  induction n generalizing k k' bs bs' with
  | zero => exact leftpad_injective (List.append_cancel_right h)
  | succ n ih =>
    simp only [rows, List.append_assoc (addressText _ ++ _), List.cons_append] at h
    exact ih (append_cons_inj (newline_not_mem_row wordText_oneLine)
      (newline_not_mem_row wordText_oneLine) h).2

/-- Rows that look the same have the same bytes. -/
theorem rows_injective (hlen : bs.length = bs'.length) (hle : bs.length ≤ n * width)
    (h : rows wordText width n k bs = rows wordText width n k bs') : bs = bs' := by
  induction n generalizing k bs bs' with
  | zero =>
    have hnil : bs = [] := List.length_eq_zero_iff.mp (by omega)
    have hnil' : bs' = [] := List.length_eq_zero_iff.mp (by omega)
    rw [hnil, hnil']
  | succ n ih =>
    obtain ⟨hrow, hrest⟩ := append_cons_inj (newline_not_mem_row wordText_oneLine)
      (newline_not_mem_row wordText_oneLine) h
    have htake : bs.take width = bs'.take width :=
      words_injective (by simp [hlen]) (List.append_cancel_left hrow)
    have hdrop : bs.drop width = bs'.drop width := by
      refine ih (by simp [hlen]) ?_ hrest
      rw [List.length_drop]
      rw [Nat.succ_mul] at hle
      omega
    rw [← List.take_append_drop width bs, htake, hdrop, List.take_append_drop]

/-- The input can be recovered from its standard dump. -/
theorem reference_injective (hwidth : 0 < width) : Function.Injective (reference width) := by
  intro bs bs' h
  have hcount : rowCount width bs.length = rowCount width bs'.length := by
    have hlines := congrArg (List.count '\n') h
    rw [reference, count_listing wordText_oneLine, count_listing wordText_oneLine] at hlines
    exact Nat.succ.inj hlines
  rw [reference, listing, listing, hcount] at h
  have hlen := lastLine_eq h
  rw [hlen] at h
  refine rows_injective hlen ?_ (List.append_cancel_right h)
  rw [← hcount, rowCount, Nat.mul_comm]
  have hmod := Nat.lt_mul_div_succ (bs.length + width - 1) hwidth
  rw [Nat.mul_add] at hmod
  omega

/-! ## What `od` prints -/

/-- A word, as `od` prints it. -/
def printedWord : List UInt8 → List Char
  | [lo, hi] => octal 6 (short lo hi)
  | [b] => octal 6 (char b)
  | _ => []

/-- What `od` prints of the bytes from the `k`th on, without the last line. -/
def printed (width k : ℕ) (bs : List UInt8) : List Char :=
  let even := bs.length / 2 * 2
  wordsText width 0 k bs ++ oddText width 0 (k + even) bs[even]?

/-- Nothing is printed for no bytes. -/
@[simp]
theorem printed_nil : printed width k [] = [] := rfl

/-- A byte that is left over is printed as a `char`. -/
theorem printed_one {b : UInt8} :
    printed width k [b] = rowStart width 0 k ++ ' ' :: octal 6 (char b) := by
  simp [printed, wordsText, oddText]

/-- Two bytes are printed as a `short`. -/
theorem printed_cons {lo hi : UInt8} : printed width k (lo :: hi :: bs) =
    rowStart width 0 k ++ ' ' :: octal 6 (short lo hi) ++ printed width (k + 2) bs := by
  have heven : (lo :: hi :: bs).length / 2 * 2 = bs.length / 2 * 2 + 2 := by
    simp only [List.length_cons]
    omega
  have hget : (lo :: hi :: bs)[bs.length / 2 * 2 + 2]? = bs[bs.length / 2 * 2]? := rfl
  simp only [printed, heven, hget, wordsText, List.append_assoc]
  rw [Nat.add_right_comm k 2, Nat.add_assoc k]

/-- Within a row two bytes are printed without an address. -/
theorem printed_inside {lo hi : UInt8} (h : rowStart width 0 k = []) :
    printed width k (lo :: hi :: bs) =
      ' ' :: printedWord [lo, hi] ++ printed width (k + 2) bs := by
  rw [printed_cons, h, List.nil_append, printedWord]

/-- Within a row a byte that is left over is printed without an address. -/
theorem printed_one_inside {b : UInt8} (h : rowStart width 0 k = []) :
    printed width k [b] = ' ' :: printedWord [b] := by
  rw [printed_one, h, List.nil_append, printedWord]

/-- Inside a row nothing starts. -/
theorem printed_within (as bs : List UInt8) (heven : 2 ∣ width) (hq : width ∣ q) (hi : 2 ∣ i)
    (hpos : 0 < i) (hlen : i + as.length ≤ width) (hbs : i + as.length = width ∨ bs = []) :
    printed width (q + i) (as ++ bs) = words printedWord as ++ printed width (q + width) bs := by
  have hinside : ∀ j, 0 < j → j < width → rowStart width 0 (q + j) = [] := by
    intro j hj hlt
    refine if_neg fun hdvd => ?_
    exact absurd (Nat.le_of_dvd hj ((Nat.dvd_add_right hq).mp hdvd)) (by omega)
  fun_induction words printedWord as generalizing i with
  | case1 lo hi' as ih =>
    simp only [List.length_cons] at hlen hbs
    have hrest := ih (i := i + 2) (by omega) (by omega) (by omega)
      (hbs.imp_left fun hwidth => by omega)
    rw [List.cons_append, List.cons_append, printed_inside (hinside i hpos (by omega)),
      Nat.add_assoc q, hrest, List.append_assoc]
  | case2 b =>
    simp only [List.length_singleton] at hlen hbs
    obtain rfl : bs = [] := hbs.resolve_left (by omega)
    rw [List.append_nil, printed_one_inside (hinside i hpos (by omega)), printed_nil,
      List.append_nil]
  | case3 =>
    rcases hbs with hwidth | rfl
    · rw [List.length_nil, Nat.add_zero] at hwidth
      rw [hwidth, List.nil_append, List.nil_append]
    · rw [List.append_nil, printed_nil, printed_nil, List.append_nil]

/-- A row. -/
theorem printed_row (bs : List UInt8) (heven : 2 ∣ width) (hq : width ∣ q) (has : as ≠ [])
    (hlen : as.length ≤ width) (hbs : as.length = width ∨ bs = []) : printed width q (as ++ bs) =
      (if q = 0 then [] else ['\n']) ++ addressText q ++ words printedWord as ++
        printed width (q + width) bs := by
  have hstart : rowStart width 0 q = (if q = 0 then [] else ['\n']) ++ addressText q := if_pos hq
  match as with
  | [] => exact absurd rfl has
  | [b] =>
    simp only [List.length_singleton] at hlen hbs
    obtain rfl : bs = [] := hbs.resolve_left (by omega)
    have hwords : words printedWord [b] = ' ' :: octal 6 (char b) := by rw [words, printedWord]
    rw [List.append_nil, printed_one, hstart, hwords, printed_nil, List.append_nil]
  | lo :: hi :: as =>
    simp only [List.length_cons] at hlen hbs
    have hrest := printed_within as bs heven hq (Nat.dvd_refl 2) Nat.two_pos
      (by omega) (hbs.imp_left fun hwidth => by omega)
    have hwords : words printedWord (lo :: hi :: as) =
        ' ' :: octal 6 (short lo hi) ++ words printedWord as := by
      rw [words, printedWord]
    rw [List.cons_append, List.cons_append, printed_cons, hstart, hrest, hwords]
    simp only [List.append_assoc]

/-- The rows, with the line end of each behind it instead of before the next. -/
theorem printed_rows (heven : 2 ∣ width) (hwidth : 0 < width) (hq : width ∣ q) (hbs : bs ≠ []) :
    printed width q bs ++ ['\n'] =
      (if q = 0 then [] else ['\n']) ++ rows printedWord width (rowCount width bs.length) q bs := by
  induction hn : bs.length using Nat.strongRecOn generalizing q bs with
  | ind n ih =>
    have hpos := List.length_pos_iff.mpr hbs
    have hsplit : bs = bs.take width ++ bs.drop width := (List.take_append_drop _ _).symm
    have htake : bs.take width ≠ [] := by
      rw [Ne, List.take_eq_nil_iff, not_or]
      exact ⟨by omega, hbs⟩
    have hrow := printed_row (bs.drop width) heven hq htake (by simp) (by
      rw [List.drop_eq_nil_iff, List.length_take]
      omega)
    rw [rowCount_pos hwidth (by omega), rows]
    rw [← hsplit] at hrow
    rw [hrow]
    rcases eq_or_ne (bs.drop width) [] with hnil | hne
    · have hle : n ≤ width := hn ▸ List.drop_eq_nil_iff.mp hnil
      rw [hnil, Nat.sub_eq_zero_of_le hle, rowCount_zero hwidth]
      simp [rows]
    · have hlt := List.length_pos_iff.mpr hne
      rw [List.length_drop] at hlt
      have hrest := ih (n - width) (by omega) (q := q + width)
        (Nat.dvd_add hq (Nat.dvd_refl _)) hne (by rw [List.length_drop, hn])
      have hq' : q + width ≠ 0 := by omega
      rw [if_neg hq'] at hrest
      rw [List.append_assoc, hrest]
      simp only [List.append_assoc, List.singleton_append]

/-- For an even width, what `od` prints has the rows of a dump. -/
theorem dump_eq_listing (heven : 2 ∣ width) (hwidth : 0 < width) (hbs : bs ≠ []) :
    dump width 0 bs = listing printedWord width bs := by
  have hdump : dump width 0 bs =
      printed width 0 bs ++ '\n' :: addressText bs.length ++ ['\n'] := by
    simp [dump, printed]
  have hrows := printed_rows heven hwidth (Nat.dvd_zero width) hbs
  rw [hdump, listing, ← List.nil_append (rows _ _ _ _ _)]
  rw [if_pos rfl] at hrows
  rw [← hrows]
  simp

/-! ## When the two are the same -/

/-- No word is negative as a `short`, and no last byte as a `char`. -/
def Unsigned : List UInt8 → Prop
  | _ :: hi :: bs => hi.toNat < 128 ∧ Unsigned bs
  | [b] => b.toNat < 128
  | [] => True

/-- Whether all words are unsigned can be computed. -/
instance Unsigned.decidable : DecidablePred Unsigned
  | _ :: _ :: bs => @instDecidableAnd _ _ _ (Unsigned.decidable bs)
  | [b] => inferInstanceAs (Decidable (b.toNat < 128))
  | [] => isTrue trivial

/-- The words of two lists of bytes are those of both, if the first list has an even number. -/
theorem unsigned_append (as : List UInt8) (has : 2 ∣ as.length) :
    Unsigned (as ++ bs) ↔ Unsigned as ∧ Unsigned bs := by
  fun_induction Unsigned as with
  | case1 lo hi as ih =>
    simp only [List.length_cons] at has
    simp only [List.cons_append, Unsigned, ih (by omega), and_assoc]
  | case2 b => simp at has
  | case3 => simp

/-- A value that is not negative is printed as it is. -/
theorem octal_natCast {m n : ℕ} (h : n < 2 ^ 32) :
    octal m n = List.leftpad m '0' (Nat.toDigits 8 n) := by
  have hn : toUInt32 (n : ℤ) = n := by
    unfold toUInt32
    omega
  rw [octal, hn]

/-- A negative value takes more than six digits. -/
theorem length_octal_neg {x : ℤ} (h₁ : -2 ^ 16 ≤ x) (h₂ : x < 0) : 6 < (octal 6 x).length := by
  have hbig : 8 ^ 6 ≤ toUInt32 x := by
    unfold toUInt32
    omega
  have hdigits : ¬ (Nat.toDigits 8 (toUInt32 x)).length ≤ 6 := by
    rw [Nat.length_toDigits_le_iff (by decide) (by decide)]
    omega
  rw [octal, List.length_leftpad]
  omega

/-- A negative word is longer than six digits. -/
theorem length_printedWord_neg {w : List UInt8} (hlen : w.length = 1 ∨ w.length = 2)
    (h : ¬ Unsigned w) : 6 < (printedWord w).length := by
  have hrange : ∀ (x : ℤ) (m : ℕ), 0 < m → x < m → m ≤ 2 * x → x.bmod m < 0 ∧ -(m : ℤ) ≤ x.bmod m := by
    intro x m hm hlt hge
    rw [Int.bmod_def, Int.emod_eq_of_lt (by omega) hlt, if_neg (by omega)]
    omega
  match w, hlen with
  | [b], _ =>
    have hb : 128 ≤ b.toNat := Nat.not_lt.mp h
    have hlt := b.toNat_lt
    have hchar := hrange b.toNat (2 ^ 8) (by decide) (by omega) (by omega)
    exact length_octal_neg (by unfold char; omega) hchar.1
  | [lo, hi], _ =>
    have hhi : 128 ≤ hi.toNat := Nat.not_lt.mp fun hlt => h ⟨hlt, trivial⟩
    have hlt := lo.toNat_lt
    have hlt' := hi.toNat_lt
    have hshort := hrange (lo.toNat + 256 * hi.toNat : ℕ) (2 ^ 16) (by decide) (by omega) (by omega)
    exact length_octal_neg (by unfold short; omega) hshort.1

/-- A word that is not negative is printed as the reference has it. -/
theorem printedWord_unsigned {w : List UInt8} (hlen : w.length = 1 ∨ w.length = 2)
    (h : Unsigned w) : printedWord w = wordText w := by
  match w, hlen with
  | [b], _ =>
    have hb : b.toNat < 128 := h
    have hchar : char b = (value [b] : ℕ) := by
      simp only [value]
      exact Int.bmod_eq_of_le (by omega) (by omega)
    rw [printedWord, hchar, octal_natCast (by simp only [value]; omega), wordText]
  | [lo, hi], _ =>
    have hhi : hi.toNat < 128 := h.1
    have hlo := lo.toNat_lt
    have hshort : short lo hi = (value [lo, hi] : ℕ) := by
      simp only [value]
      exact Int.bmod_eq_of_le (by omega) (by omega)
    rw [printedWord, hshort, octal_natCast (by simp only [value]; omega), wordText]

/-- The words of two bytes more. -/
theorem words_cons {lo hi : UInt8} :
    words text (lo :: hi :: bs) = ' ' :: text [lo, hi] ++ words text bs := by
  rw [words]

/-- The length of the words of two bytes more. -/
theorem length_words_cons {lo hi : UInt8} : (words text (lo :: hi :: bs)).length =
    (text [lo, hi]).length + 1 + (words text bs).length := by
  rw [words_cons, List.length_append, List.length_cons]

/-- The length of the word of one byte. -/
theorem length_words_one {b : UInt8} : (words text [b]).length = (text [b]).length + 1 := by
  rw [words, List.length_cons]

/-- Words in which no value is negative are printed as the standard ones, others take more space. -/
theorem length_words (bs : List UInt8) :
    (words wordText bs).length ≤ (words printedWord bs).length ∧
      ((words printedWord bs).length = (words wordText bs).length → Unsigned bs) ∧
      (Unsigned bs → words printedWord bs = words wordText bs) := by
  induction bs using words.induct with
  | case1 lo hi bs ih =>
    obtain ⟨hle, heq, hsame⟩ := ih
    have hsplit : Unsigned (lo :: hi :: bs) ↔ Unsigned [lo, hi] ∧ Unsigned bs :=
      unsigned_append [lo, hi] (Nat.dvd_refl 2)
    have hword : (wordText [lo, hi]).length = 6 := length_wordText le_rfl
    rw [length_words_cons, length_words_cons, hsplit]
    by_cases hun : Unsigned [lo, hi]
    · have hpair : printedWord [lo, hi] = wordText [lo, hi] := printedWord_unsigned (.inr rfl) hun
      rw [hpair]
      refine ⟨by omega, fun h => ⟨hun, heq (by omega)⟩, ?_⟩
      intro h
      rw [words_cons, words_cons, hpair, hsame h.2]
    · have hlong := length_printedWord_neg (.inr rfl) hun
      exact ⟨by omega, fun h => absurd h (by omega), fun h => absurd h.1 hun⟩
  | case2 b =>
    have hword : (wordText [b]).length = 6 := length_wordText (by simp)
    rw [length_words_one, length_words_one]
    by_cases hun : Unsigned [b]
    · have hone : printedWord [b] = wordText [b] := printedWord_unsigned (.inl rfl) hun
      rw [hone]
      refine ⟨le_rfl, fun _ => hun, ?_⟩
      intro _
      rw [words, words, hone]
    · have hlong := length_printedWord_neg (.inl rfl) hun
      exact ⟨by omega, fun h => absurd h (by omega), fun h => absurd h hun⟩
  | case3 => exact ⟨le_rfl, fun _ => trivial, fun _ => rfl⟩

/-- So are rows of words. -/
theorem length_rows (heven : 2 ∣ width) (hle : bs.length ≤ n * width) :
    (rows wordText width n k bs).length ≤ (rows printedWord width n k bs).length ∧
      ((rows printedWord width n k bs).length = (rows wordText width n k bs).length →
        Unsigned bs) ∧
      (Unsigned bs → rows printedWord width n k bs = rows wordText width n k bs) := by
  induction n generalizing k bs with
  | zero =>
    obtain rfl : bs = [] := List.length_eq_zero_iff.mp (by omega)
    exact ⟨le_rfl, fun _ => trivial, fun _ => rfl⟩
  | succ n ih =>
    rw [Nat.succ_mul] at hle
    obtain ⟨hle₁, heq₁, hsame₁⟩ := length_words (bs.take width)
    have hdrop : (bs.drop width).length ≤ n * width := by
      rw [List.length_drop]
      omega
    obtain ⟨hle₂, heq₂, hsame₂⟩ := ih (k := k + width) hdrop
    have hsplit : Unsigned bs ↔ Unsigned (bs.take width) ∧ Unsigned (bs.drop width) := by
      rcases Nat.le_total width bs.length with hfull | hshort
      · conv_lhs => rw [← List.take_append_drop width bs]
        refine unsigned_append _ ?_
        rwa [List.length_take_of_le hfull]
      · rw [List.take_of_length_le hshort, List.drop_of_length_le hshort]
        exact (and_iff_left trivial).symm
    simp only [rows, hsplit, List.length_append, List.length_cons]
    refine ⟨by omega, fun h => ⟨heq₁ (by omega), heq₂ (by omega)⟩, ?_⟩
    rintro ⟨h₁, h₂⟩
    rw [hsame₁ h₁, hsame₂ h₂]

/-- All bytes are in the rows. -/
theorem le_rowCount (hwidth : 0 < width) : n ≤ rowCount width n * width := by
  have hmod := Nat.lt_mul_div_succ (n + width - 1) hwidth
  rw [Nat.mul_add] at hmod
  rw [rowCount, Nat.mul_comm]
  omega

/-- For an even width, what `od` prints is the standard dump if no word is negative. -/
theorem dump_eq_reference_even (heven : 2 ∣ width) (hwidth : 0 < width) (hbs : bs ≠ []) :
    dump width 0 bs = reference width bs ↔ Unsigned bs := by
  obtain ⟨-, heq, hsame⟩ := length_rows (k := 0) heven (le_rowCount hwidth (n := bs.length))
  rw [dump_eq_listing heven hwidth hbs, reference, listing, listing, List.append_left_inj]
  exact ⟨fun h => heq (congrArg List.length h), hsame⟩

/-- If all bytes are in one row, the width does not matter. -/
theorem listing_one {width' : ℕ} (hbs : bs ≠ []) (hle : bs.length ≤ width)
    (hle' : bs.length ≤ width') : listing text width bs = listing text width' bs := by
  have hpos := List.length_pos_iff.mpr hbs
  have hone : ∀ w, bs.length ≤ w → rowCount w bs.length = 1 := by
    intro w hw
    rw [rowCount_pos (by omega) hpos, Nat.sub_eq_zero_of_le hw, rowCount_zero (by omega)]
  simp only [listing, hone width hle, hone width' hle', rows, List.take_of_length_le hle,
    List.take_of_length_le hle']

/-- Rows twice as long are fewer, if there are two at least. -/
theorem rowCount_two_mul (hwidth : 0 < width) (hn : width < n) :
    rowCount (2 * width) n < rowCount width n := by
  have hdiv := Nat.div_mul_le_self (n + 2 * width - 1) (2 * width)
  have hassoc : rowCount (2 * width) n * (2 * width) = 2 * (rowCount (2 * width) n * width) := by
    rw [Nat.mul_left_comm]
  rw [← rowCount, hassoc] at hdiv
  refine (Nat.le_div_iff_mul_le hwidth).mpr ?_
  rw [Nat.succ_mul]
  rcases Nat.lt_or_ge (2 * width) n with hlong | hshort
  · omega
  · have hone : rowCount (2 * width) n = 1 := by
      rw [rowCount_pos (by omega) (by omega), Nat.sub_eq_zero_of_le hshort,
        rowCount_zero (by omega)]
    rw [hone]
    omega

/-- For an odd width, `od` prints rows of twice the width. -/
theorem dump_two_mul (hodd : ¬ 2 ∣ width) : dump width 0 bs = dump (2 * width) 0 bs := by
  have hstart : ∀ k, 2 ∣ k → rowStart width 0 k = rowStart (2 * width) 0 k := by
    intro k hk
    have hdvd : width ∣ k ↔ 2 * width ∣ k := by
      have hcop : Nat.Coprime 2 width := Nat.prime_two.coprime_iff_not_dvd.mpr hodd
      exact ⟨hcop.mul_dvd_of_dvd_of_dvd hk, fun h => (Nat.dvd_mul_left _ _).trans h⟩
    simp only [rowStart, hdvd]
  have hwords : ∀ k, 2 ∣ k → wordsText width 0 k bs = wordsText (2 * width) 0 k bs := by
    intro k hk
    fun_induction wordsText width 0 k bs with
    | case1 k lo hi bs ih => rw [wordsText, ih (by omega), hstart k hk]
    | case2 bs k hshort => rw [wordsText]; exact hshort
  have heven : 2 ∣ bs.length / 2 * 2 := Nat.dvd_mul_left 2 _
  have hodd' : oddText width 0 (bs.length / 2 * 2) bs[bs.length / 2 * 2]? =
      oddText (2 * width) 0 (bs.length / 2 * 2) bs[bs.length / 2 * 2]? := by
    cases bs[bs.length / 2 * 2]? with
    | none => rfl
    | some b => rw [oddText, oddText, hstart _ heven]
  rw [dump, dump, hwords 0 (Nat.dvd_zero 2), hodd']

/-- When what `od` prints is the standard dump. -/
theorem dump_eq_reference_iff (hwidth : 0 < width) (hbs : bs ≠ []) :
    dump width 0 bs = reference width bs ↔
      (2 ∣ width ∨ bs.length ≤ width) ∧ Unsigned bs := by
  by_cases heven : 2 ∣ width
  · rw [dump_eq_reference_even heven hwidth hbs]
    exact (and_iff_right (.inl heven)).symm
  have hdouble : 2 ∣ 2 * width := Nat.dvd_mul_right 2 width
  rw [dump_two_mul heven, or_iff_right heven]
  rcases Nat.lt_or_ge width bs.length with hlong | hshort
  · refine iff_of_false ?_ fun h => absurd h.1 (by omega)
    intro h
    rw [dump_eq_listing hdouble (by omega) hbs] at h
    have hprinted : OneLine printedWord := by
      intro w
      unfold printedWord
      split
      · exact newline_not_mem_leftpad
      · exact newline_not_mem_leftpad
      · exact List.not_mem_nil
    have hlines := congrArg (List.count '\n') h
    rw [reference, count_listing hprinted, count_listing wordText_oneLine] at hlines
    exact absurd (rowCount_two_mul hwidth hlong) (by omega)
  · have hone : reference width bs = reference (2 * width) bs :=
      listing_one hbs hshort (by omega)
    rw [hone, dump_eq_reference_even hdouble (by omega) hbs]
    exact (and_iff_right hshort).symm

/-! ## The program -/

/-- `od -w` prints the standard dump of the files, from which their bytes can be recovered. -/
def PrintsReference (W : ℤ) (fs : List File) : Prop :=
  ∃ width : ℕ, W = width ∧ 0 < width ∧
    Returns (main ⟨none, W, 0⟩ fs) (reference width (concat fs), true) ∧
    ∀ bs, reference width bs = reference width (concat fs) → bs = concat fs

/-- The dump of no bytes starts with an empty line. -/
theorem dump_nil_ne (width : ℕ) : dump width 0 [] ≠ reference width [] := by
  intro h
  have hcount : rowCount width 0 = 0 ∨ width = 0 := by
    rcases Nat.eq_zero_or_pos width with hzero | hpos
    · exact .inr hzero
    · exact .inl (rowCount_zero hpos)
  have hnone : rows wordText width (rowCount width 0) 0 [] = [] := by
    rcases hcount with hzero | rfl
    · rw [hzero, rows]
    · rfl
  have hdump : dump width 0 [] = '\n' :: addressText 0 ++ ['\n'] := by
    simp [dump, wordsText, oddText]
  rw [hdump, reference, listing, List.length_nil, hnone] at h
  exact absurd h (by decide)

/-- For every content of its files and every `-w`, `od` prints the standard dump if and only if the
width is positive, and even or not smaller than the content, the content is not empty and has fewer
than 2^31 bytes, none of its words is 2^15 or more, and no last odd byte 2^7 or more, and no `read`
returns `BUFSIZ` bytes behind an odd number of bytes. -/
theorem prints_reference_iff {W : ℤ} {fs : List File} (hfs : ∀ f ∈ fs, f.Readable) :
    PrintsReference W fs ↔ 0 < W ∧ (2 ∣ W ∨ (concat fs).length ≤ W) ∧ concat fs ≠ [] ∧
      (concat fs).length < 2 ^ 31 ∧ Unsigned (concat fs) ∧ Fit BUFSIZ 0 (sizes 0 fs) := by
  have hdrop : (concat fs).drop 0 = concat fs := List.drop_zero
  constructor
  · rintro ⟨width, rfl, hwidth, hrun, -⟩
    obtain ⟨hlt, hfit⟩ := of_mainWith_returns (S := 0) hfs hwidth hrun
    have hends := mainWith_returns (S := 0) hfs hwidth hlt hfit
    rw [hdrop] at hlt hends
    have hdump : dump width 0 (concat fs) = reference width (concat fs) :=
      congrArg Prod.fst (hends.unique hrun)
    have hbs : concat fs ≠ [] := by
      intro hnil
      rw [hnil] at hdump
      exact dump_nil_ne width hdump
    obtain ⟨heven, hun⟩ := (dump_eq_reference_iff hwidth hbs).mp hdump
    exact ⟨by omega, by omega, hbs, by omega, hun, hfit⟩
  · rintro ⟨hW, heven, hbs, hlt, hun, hfit⟩
    obtain ⟨width, rfl⟩ := Int.eq_ofNat_of_zero_le hW.le
    have hwidth : 0 < width := by omega
    have hdump := (dump_eq_reference_iff hwidth hbs).mpr ⟨by omega, hun⟩
    have hends := mainWith_returns (S := 0) hfs hwidth (by rw [hdrop]; omega) hfit
    rw [hdrop, hdump] at hends
    exact ⟨width, rfl, hwidth, hends, fun bs h => reference_injective hwidth h⟩

/-- Three bytes at width 2, the second of them in another file than the first. -/
theorem prints_reference_three : PrintsReference 2 [⟨true, [1], []⟩, ⟨true, [2, 3], [some 1]⟩] :=
  (prints_reference_iff (by simp [File.Readable])).mpr
    ⟨by decide, .inl (by decide), by decide, by decide, by decide, by decide⟩

/-- The bytes 0 and 128 make a negative word, and a width of zero is a divisor. -/
theorem prints_negative : ¬ PrintsReference 16 [⟨true, [0, 128], []⟩] ∧
    main ⟨none, 16, 0⟩ [⟨true, [0, 128], []⟩] 9 =
      some ("0000000 37777700000\n0000002\n".toList, true) ∧
    ∀ fuel, main ⟨none, 0, 0⟩ [⟨true, [1, 2], []⟩] fuel = none := by
  refine ⟨?_, by decide, ?_⟩
  · rintro ⟨width, hW, -, hrun, -⟩
    obtain rfl : width = 16 := by omega
    have hends : Returns (main ⟨none, 16, 0⟩ [⟨true, [0, 128], []⟩]) (dump 16 0 _, true) :=
      mainWith_returns (by simp [File.Readable]) (by decide) (by decide) (by decide)
    exact absurd (congrArg Prod.fst (hends.unique hrun)) (by decide)
  · intro fuel
    cases fuel <;> rfl

end Od

end Ulsp
