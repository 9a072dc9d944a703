import Mathlib.Algebra.Order.Ring.Int
import Mathlib.Logic.Function.Iterate
import Ulsp.Lib.Buffer

/-!
# The line numbers of `cat` (`cmd/src/cat.c`)

`line_buf` holds the line number as text, which `next_line_num` counts up in place. As long as there is
room, the text is the decimal numeral (`counts`).
-/

namespace Ulsp

open Lib

namespace Cat

/-- `line_buf`, with the positions `line_num_print` and `line_num_start`. -/
structure LineNum where
  buf : Buffer
  print : ℕ
  start : ℕ

namespace LineNum

/-- `LINE_COUNTER_BUF_LEN`. -/
def bufLen : ℕ := 20

/-- `line_num_end`. -/
def last : ℕ := bufLen - 3

/-- `line_buf` with a blank up to the last digit, which is a zero, a tab and the terminator. -/
def init : LineNum where
  buf := fun k => if k < last then 32 else if k = last then 48 else if k = last + 1 then 9 else 0
  print := bufLen - 8
  start := bufLen - 3

/-- The loop of `next_line_num` from the digit at `endp` on down, and whether it returned: a digit
below nine is counted up, and a nine becomes a zero. -/
def carry (start : ℕ) : ℕ → Buffer → Buffer × Bool
  | 0, buf =>
    if buf 0 < 57 then (Function.update buf 0 (buf 0 + 1), true) else (Function.update buf 0 48, false)
  | endp + 1, buf =>
    if buf (endp + 1) < 57 then (Function.update buf (endp + 1) (buf (endp + 1) + 1), true)
    else
      let buf := Function.update buf (endp + 1) 48
      if start ≤ endp then carry start endp buf else (buf, false)

/-- `next_line_num`. -/
def next (n : LineNum) : LineNum :=
  match carry n.start last n.buf with
  | (buf, true) => { n with buf }
  | (buf, false) =>
    let (buf, start) :=
      if 0 < n.start then (Function.update buf (n.start - 1) 49, n.start - 1)
      else (Function.update buf 0 62, n.start)
    ⟨buf, if start < n.print then n.print - 1 else n.print, start⟩

/-- The string at `line_num_print`. -/
def text (n : LineNum) : List UInt8 := ((n.buf.take bufLen).drop n.print).takeWhile (· ≠ 0)

example : init.next.text = [32, 32, 32, 32, 32, 49, 9] := by decide

/-! ## Numerals -/

/-- The decimal numeral of a number. -/
def numeral (k : ℕ) : List UInt8 := (Nat.toDigits 10 k).map Char.toUInt8

/-- A digit. -/
def digit (d : ℕ) : UInt8 := d.digitChar.toUInt8

theorem digit_lt : ∀ d < 9, digit d < 57 ∧ digit d + 1 = digit (d + 1) := by decide

theorem digit_ne_zero : ∀ d < 10, digit d ≠ 0 := by decide

variable {k : ℕ}

theorem numeral_of_lt (h : k < 10) : numeral k = [digit k] := by
  rw [numeral, Nat.toDigits_of_lt_base h]
  rfl

theorem numeral_of_le (h : 10 ≤ k) : numeral k = numeral (k / 10) ++ [digit (k % 10)] := by
  rw [numeral, Nat.toDigits_of_base_le (by decide) h, List.map_append]
  rfl

/-- Each byte of a numeral is a digit. -/
theorem exists_of_mem_numeral {c : UInt8} (h : c ∈ numeral k) : ∃ d < 10, c = digit d := by
  induction k using Nat.strongRecOn with
  | ind k ih =>
    rcases Nat.lt_or_ge k 10 with hlt | hge
    · rw [numeral_of_lt hlt, List.mem_singleton] at h
      exact ⟨k, hlt, h⟩
    · rw [numeral_of_le hge, List.mem_append, List.mem_singleton] at h
      rcases h with h | h
      · exact ih (k / 10) (by omega) h
      · exact ⟨k % 10, by omega, h⟩

/-- The last digit of a numeral, and those before it. -/
theorem numeral_eq_concat {ds : List UInt8} {c : UInt8} (h : numeral k = ds ++ [c]) :
    c = digit (k % 10) ∧ (k < 10 ∧ ds = [] ∨ 10 ≤ k ∧ ds = numeral (k / 10)) := by
  rcases Nat.lt_or_ge k 10 with hk | hk
  · rw [numeral_of_lt hk, ← List.nil_append [digit k]] at h
    obtain ⟨rfl, hc⟩ := List.append_inj' h rfl
    rw [Nat.mod_eq_of_lt hk]
    exact ⟨(List.singleton_inj.mp hc).symm, .inl ⟨hk, rfl⟩⟩
  · rw [numeral_of_le hk] at h
    obtain ⟨rfl, hc⟩ := List.append_inj' h rfl
    exact ⟨(List.singleton_inj.mp hc).symm, .inr ⟨hk, rfl⟩⟩

/-- The numeral of the next number, where the last digit is no nine. -/
theorem numeral_succ {ds : List UInt8} {c : UInt8} (h : numeral k = ds ++ [c]) (hlt : k % 10 < 9) :
    numeral (k + 1) = ds ++ [c + 1] := by
  obtain ⟨rfl, hds⟩ := numeral_eq_concat h
  rw [(digit_lt _ hlt).2]
  rcases hds with ⟨hk, rfl⟩ | ⟨hk, rfl⟩
  · rw [numeral_of_lt (by omega), Nat.mod_eq_of_lt hk, List.nil_append]
  · rw [numeral_of_le (by omega), show (k + 1) / 10 = k / 10 by omega,
      show (k + 1) % 10 = k % 10 + 1 by omega]

/-- The numeral of the next number, where the last digit is a nine. -/
theorem numeral_carry (h : k % 10 = 9) : numeral (k + 1) = numeral (k / 10 + 1) ++ [48] := by
  rw [numeral_of_le (by omega), show (k + 1) / 10 = k / 10 + 1 by omega,
    show (k + 1) % 10 = 0 by omega]
  rfl

theorem carry_eq (start endp : ℕ) (buf : Buffer) : carry start endp buf =
    if buf endp < 57 then (Function.update buf endp (buf endp + 1), true)
    else if start < endp then carry start (endp - 1) (Function.update buf endp 48)
    else (Function.update buf endp 48, false) := by
  cases endp with
  | zero => rfl
  | succ endp => simp only [carry, Nat.lt_succ_iff, Nat.add_sub_cancel]

/-- The loop of `next_line_num` on a numeral of `n` digits: it becomes that of the next number, but for
the first digit of that, a one, where the loop did not return. -/
theorem carry_spec {start endp n : ℕ} {buf buf' : Buffer} {done : Bool}
    (hcarry : carry start endp buf = (buf', done)) (h : buf.slice start n = numeral k)
    (hend : start + n = endp + 1) :
    numeral (k + 1) = (if done then [] else [49]) ++ buf'.slice start n ∧
      ∀ j, j < start ∨ endp < j → buf' j = buf j := by
  induction n generalizing k endp buf with
  | zero => exact absurd (congrArg List.length h).symm (by simp [numeral])
  | succ n ih =>
    obtain rfl : endp = start + n := by omega
    have hset (c : UInt8) :
        Buffer.slice start n (Function.update buf (start + n) c) = buf.slice start n :=
      Buffer.slice_congr fun j _ hj => Function.update_of_ne (by omega) _ _
    have hkeep (c : UInt8) (j : ℕ) (hj : j < start ∨ start + n < j) :
        Function.update buf (start + n) c j = buf j := Function.update_of_ne (by omega) _ _
    rw [Buffer.slice_concat] at h ⊢
    obtain ⟨hlast, hds⟩ := numeral_eq_concat h.symm
    rw [carry_eq, hlast] at hcarry
    rcases Nat.lt_or_ge (k % 10) 9 with hlt | hge
    · -- the digit is counted up
      rw [if_pos (digit_lt _ hlt).1] at hcarry
      obtain ⟨rfl, rfl⟩ := Prod.mk.inj hcarry
      refine ⟨?_, hkeep _⟩
      rw [hset, Function.update_self, ← hlast]
      exact numeral_succ h.symm hlt
    · have hnine : k % 10 = 9 := by omega
      rw [hnine, if_neg (by decide)] at hcarry
      rw [numeral_carry hnine]
      rcases hds with ⟨hk, hnil⟩ | ⟨hk, hds⟩
      · -- the only digit
        obtain rfl : n = 0 := by simpa using congrArg List.length hnil
        rw [if_neg (by omega)] at hcarry
        obtain ⟨rfl, rfl⟩ := Prod.mk.inj hcarry
        refine ⟨?_, hkeep _⟩
        rw [Nat.div_eq_of_lt hk, Function.update_self]
        rfl
      · have hn : 0 < n := by
          have hlen := congrArg List.length hds
          rw [Buffer.length_slice] at hlen
          rw [hlen, numeral, List.length_map]
          exact Nat.length_toDigits_pos
        rw [if_pos (by omega)] at hcarry
        obtain ⟨hnext, hother⟩ := ih hcarry ((hset _).trans hds) (by omega)
        have hzero := (hother (start + n) (.inr (by omega))).trans (Function.update_self ..)
        refine ⟨?_, fun j hj => (hother j (by omega)).trans (hkeep 48 j (by omega))⟩
        rw [hnext, hzero, List.append_assoc]

/-! ## The counter -/

/-- The variables of the counter when the number is `k`. -/
structure Shows (n : LineNum) (k : ℕ) : Prop where
  start_le : n.start ≤ last
  digits : n.buf.slice n.start (last + 1 - n.start) = numeral k
  blanks : ∀ j < n.start, n.buf j = 32
  print : n.print = min (bufLen - 8) n.start
  tab : n.buf (last + 1) = 9
  terminated : n.buf (last + 2) = 0

variable {n : LineNum}

theorem shows_init : init.Shows 0 where
  start_le := by decide
  digits := by decide
  blanks := fun j hj => if_pos hj
  print := by decide
  tab := by decide
  terminated := by decide

/-- `next_line_num` counts up, below `10 ^ 18`. -/
theorem Shows.next (h : n.Shows k) (hk : k + 1 < 10 ^ 18) : n.next.Shows (k + 1) := by
  have hlast : last = 17 := rfl
  have hstart := h.start_le
  rcases hcarry : carry n.start last n.buf with ⟨buf, done⟩
  obtain ⟨hnext, hother⟩ := carry_spec hcarry h.digits (by omega)
  have htab := (hother (last + 1) (.inr (by omega))).trans h.tab
  have hnul := (hother (last + 2) (.inr (by omega))).trans h.terminated
  rw [LineNum.next, hcarry]
  cases done with
  | true =>
    exact ⟨hstart, hnext.symm, fun j hj => (hother j (.inl hj)).trans (h.blanks j hj), h.print, htab,
      hnul⟩
  | false =>
    -- the number has a digit more, for which there is room
    have hpos : 0 < n.start := by
      have hlen := congrArg List.length hnext
      rw [List.length_append, Buffer.length_slice, numeral, List.length_map] at hlen
      have hle := (Nat.length_toDigits_le_iff (k := 18) (by decide) (by decide)).mpr hk
      have hone : (if false then [] else [(49 : UInt8)]).length = 1 := rfl
      omega
    simp only [if_pos hpos]
    have hkeep (j : ℕ) (hj : j ≠ n.start - 1) : Function.update buf (n.start - 1) 49 j = buf j :=
      Function.update_of_ne hj _ _
    have hdigits : Buffer.slice (n.start - 1) (last + 1 - (n.start - 1))
        (Function.update buf (n.start - 1) 49) = numeral (k + 1) := by
      have hlen : last + 1 - (n.start - 1) = last + 1 - n.start + 1 := by omega
      rw [hlen, Buffer.slice_succ, Function.update_self, Nat.sub_add_cancel hpos,
        Buffer.slice_congr fun j hj _ => hkeep j (by omega), hnext]
      rfl
    have hblanks : ∀ j < n.start - 1, Function.update buf (n.start - 1) 49 j = 32 := by
      intro j hj
      rw [hkeep j (by omega), hother j (.inl (by omega))]
      exact h.blanks j (by omega)
    have hprint : (if n.start - 1 < n.print then n.print - 1 else n.print) =
        min (bufLen - 8) (n.start - 1) := by
      have hprint := h.print
      split <;> omega
    exact ⟨by simp only; omega, hdigits, hblanks, hprint, (hkeep _ (by omega)).trans htab,
      (hkeep _ (by omega)).trans hnul⟩

/-- What is printed: the number right-aligned, and a tab. -/
theorem Shows.text (h : n.Shows k) : n.text = List.leftpad 6 32 (numeral k) ++ [9] := by
  have hlast : last = 17 := rfl
  have hlen : bufLen = 20 := rfl
  have hstart := h.start_le
  have hprint := h.print
  have hcount := congrArg List.length h.digits
  rw [Buffer.length_slice] at hcount
  have hsplit : 20 - n.print = (n.start - n.print) + ((last + 1 - n.start) + 2) := by omega
  have hblanks :
      n.buf.slice n.print (n.start - n.print) = List.replicate (6 - (numeral k).length) 32 := by
    refine List.eq_replicate_iff.mpr ⟨by rw [Buffer.length_slice]; omega, ?_⟩
    intro c hc
    obtain ⟨j, hj, rfl⟩ := List.mem_map.mp hc
    exact h.blanks _ (by have := List.mem_range.mp hj; omega)
  have hend : n.buf.slice (last + 1) 2 = [9, 0] := by
    rw [Buffer.slice_succ, Buffer.slice_succ, Buffer.slice_zero, h.tab, h.terminated]
  have hat : n.print + (n.start - n.print) = n.start := by omega
  have hat' : n.start + (last + 1 - n.start) = last + 1 := by omega
  have hbytes : (n.buf.take bufLen).drop n.print =
      List.replicate (6 - (numeral k).length) 32 ++ (numeral k ++ [9, 0]) := by
    rw [Buffer.drop_take (by omega), hlen, hsplit, Buffer.slice_add, hat, Buffer.slice_add, hat',
      hblanks, h.digits, hend]
  have hne : ∀ c ∈ List.replicate (6 - (numeral k).length) 32 ++ (numeral k ++ [9]), c ≠ 0 := by
    intro c hc
    rcases List.mem_append.mp hc with hc | hc
    · rw [List.eq_of_mem_replicate hc]
      decide
    · rcases List.mem_append.mp hc with hc | hc
      · obtain ⟨d, hd, rfl⟩ := exists_of_mem_numeral hc
        exact digit_ne_zero d hd
      · rw [List.mem_singleton.mp hc]
        decide
  have hshape : (n.buf.take bufLen).drop n.print =
      List.replicate (6 - (numeral k).length) 32 ++ (numeral k ++ [9]) ++ [0] := by
    rw [hbytes, List.append_assoc, List.append_assoc]
    rfl
  rw [LineNum.text, hshape, List.takeWhile_append_of_pos (by simpa using hne), List.leftpad,
    List.append_assoc]
  simp

/-- The counter of `cat` counts: after `k` calls of `next_line_num`, for every `k` below `10 ^ 18`, the
string at `line_num_print` is the decimal numeral of `k`, right-aligned with blanks to a width of six,
and a tab, and both positions are in `line_buf`. -/
theorem counts (hk : k < 10 ^ 18) :
    (next^[k] init).text = List.leftpad 6 32 (numeral k) ++ [9] ∧
      (next^[k] init).print < bufLen ∧ (next^[k] init).start < bufLen := by
  have hshows : (next^[k] init).Shows k := by
    induction k with
    | zero => exact shows_init
    | succ k ih =>
      rw [Function.iterate_succ_apply']
      exact (ih (by omega)).next hk
  have hlast : last = 17 := rfl
  have hlen : bufLen = 20 := rfl
  have hstart := hshows.start_le
  have hprint := hshows.print
  exact ⟨hshows.text, by omega, by omega⟩

/-- At the seventh digit `line_num_print` moves too. -/
theorem counts_million : (next^[1000000] init).text = [49, 48, 48, 48, 48, 48, 48, 9] ∧
    (next^[1000000] init).print < bufLen ∧ (next^[1000000] init).start < bufLen :=
  counts (by decide)

end LineNum

end Cat

end Ulsp
