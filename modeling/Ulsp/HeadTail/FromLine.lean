import Ulsp.HeadTail.HeadLines

/-!
# From a line on

`elide_head_lines` searches each block for newlines, forwards, with `n` for the bytes of the block
that are left. But it takes from `n` the position behind the newline, counted from the beginning of
the block, for each newline again. So `n` is too small, and the search of the block may end before a
newline that it should find (`Missed`); or `n` wraps, and the search goes on behind the bytes that
were read (`scanEnds`). After a newline has been missed the output begins later than it should
(`behindLines_late`), so that `tail -n +K` is right only where none is, unless nothing is to be output
(`from_line_iff`). What the search finds in a block does not depend on what it looks for
(`blockReached`), so that whether it goes behind a block is a condition on the file alone
(`elideHeadLines_ends_iff`).
-/

namespace Ulsp

open Lib

namespace HeadTail

variable {d : UInt8} {text out buf : List UInt8} {len ptr σ M n k m fuel N : ℕ} {es : List ℕ}

/-! ## The search of a block -/

/-- The search finds the next end of a line if it is within the `n` bytes; if there is none in the
block it must not go behind it. -/
theorem memchr_spec (hptr : ptr ≤ buf.length) : memchr d buf ptr n =
    match ends d ptr (buf.drop ptr) with
    | [] => if ptr + n ≤ buf.length then some none else none
    | e :: _ => if e ≤ ptr + n then some (some (e - 1)) else some none := by
  induction n generalizing ptr with
  | zero =>
    rcases hes : ends d ptr (buf.drop ptr) with _ | ⟨e, es⟩
    · exact (if_pos hptr).symm
    · have hlt := (ends_cons hptr hes).1
      exact (if_neg (show ¬e ≤ ptr by omega)).symm
  | succ n ih =>
    rw [memchr]
    rcases Nat.eq_or_lt_of_le hptr with heq | hlt
    · rw [List.getElem?_eq_none (by omega), List.drop_of_length_le (by omega)]
      exact (if_neg (by omega)).symm
    · rw [List.getElem?_eq_getElem hlt, List.drop_eq_getElem_cons hlt, ends]
      by_cases hd : buf[ptr] = d
      · simp only [if_pos hd]
        exact (if_pos (by omega)).symm
      · have hrest : memchr d buf (ptr + 1) n = _ := ih hlt
        have hback : ptr + 1 + n = ptr + (n + 1) := by omega
        simp only [if_neg hd]
        rw [hrest, hback]

/-- The scan of a block of `len` bytes by the ends of its lines: behind the end at `ptr`, with `σ` for
the ends that have been taken from `n`, it finds the next if `len - σ` bytes reach to it, or if that
has wrapped. -/
def scanEnds (len : ℕ) : List ℕ → ℕ → ℕ → ℕ → Option (ℕ ⊕ ℕ)
  | [], _, σ, M => if σ ≤ len then some (.inr M) else none
  | e :: es, ptr, σ, M =>
    if σ ≤ len ∧ len + ptr < σ + e then some (.inr M)
    else if M = 1 then some (.inl e)
    else scanEnds len es e (σ + e) (M - 1)

/-- What is left of `n`, before it wraps and after. -/
theorem toUInt64_sub (h : σ < 2 ^ 63) (hlen : len < 2 ^ 63) :
    toUInt64 ((len : ℤ) - σ) = if σ ≤ len then len - σ else 2 ^ 64 + len - σ := by
  unfold toUInt64
  split <;> omega

/-- The scan of `buf` is the scan of its ends. It takes at most `buf.length` from `n` each time, so
that a bound on the sum is enough. -/
theorem scanHead_eq (hptr : ptr ≤ buf.length) (hes : ends d ptr (buf.drop ptr) = es) (hσ : ptr ≤ σ)
    (hbound : σ + es.length * buf.length < 2 ^ 63) (hlen : buf.length < 2 ^ 63) (hM : 0 < M)
    (hfuel : es.length < fuel) :
    scanHead d buf fuel ptr (toUInt64 ((buf.length : ℤ) - σ)) M = scanEnds buf.length es ptr σ M := by
  induction es generalizing fuel ptr σ M with
  | nil =>
    obtain ⟨fuel, rfl⟩ := Nat.exists_eq_succ_of_ne_zero (Nat.ne_zero_of_lt hfuel)
    rw [scanHead, scanEnds, memchr_spec hptr, hes, toUInt64_sub (by simpa using hbound) hlen]
    by_cases hle : σ ≤ buf.length
    · rw [if_pos hle, if_pos hle]
      rcases Nat.eq_or_lt_of_le hle with heq | hlt
      · rw [if_pos (by omega)]
      · rw [if_neg (by omega)]
        simp only
        rw [if_pos (by omega)]
        rfl
    · rw [if_neg hle, if_neg hle, if_neg (by omega)]
      simp only
      rw [if_neg (by omega)]
      rfl
  | cons e es ih =>
    obtain ⟨fuel, rfl⟩ := Nat.exists_eq_succ_of_ne_zero (Nat.ne_zero_of_lt hfuel)
    obtain ⟨hlt, hle, hrest⟩ := ends_cons hptr hes
    have hmul : (e :: es).length * buf.length = es.length * buf.length + buf.length := Nat.succ_mul _ _
    have hleft : toUInt64 ((buf.length : ℤ) - σ) = _ := toUInt64_sub (by omega) hlen
    rw [scanHead, scanEnds, memchr_spec hptr, hes]
    generalize hn : toUInt64 ((buf.length : ℤ) - σ) = n at hleft
    by_cases hmiss : σ ≤ buf.length ∧ buf.length + ptr < σ + e
    · rw [if_pos hmiss.1] at hleft
      rw [if_pos hmiss]
      rcases Nat.eq_zero_or_pos n with rfl | hpos
      · rfl
      · rw [if_neg hpos.ne']
        simp only [if_neg (show ¬e ≤ ptr + n by omega)]
        rfl
    · have hn0 : n ≠ 0 := by split at hleft <;> omega
      have hreach : e ≤ ptr + n := by split at hleft <;> omega
      have hback : e - 1 + 1 = e := by omega
      rw [if_neg hmiss, if_neg hn0]
      simp only [if_pos hreach, Option.bind_eq_bind, Option.bind_some, hback]
      by_cases hlast : M = 1
      · rw [if_pos hlast, if_pos (by omega)]
      · have hwrap : toUInt64 ((n : ℤ) - e) = toUInt64 ((buf.length : ℤ) - (σ + e : ℕ)) := by
          rw [← hn]
          unfold toUInt64
          omega
        rw [if_neg hlast, if_neg (by omega), hwrap]
        exact ih hle hrest (by omega) (by omega) (by omega) (by simpa using hfuel)

/-! ## The newlines that it misses -/

/-- The end `i` is missed: the bytes that are left are not as many as there are up to it. -/
def Missed (len ptr σ : ℕ) (es : List ℕ) (i : ℕ) : Prop :=
  σ + (es.take i).sum ≤ len ∧
    ∃ e ∈ es[i]?, len + ((ptr :: es)[i]?).getD 0 < σ + (es.take i).sum + e

/-- The search for `M` ends misses none, and does not go behind the block after the last one. -/
def InReach (len ptr σ : ℕ) (es : List ℕ) (M : ℕ) : Prop :=
  (∀ i < M, ¬Missed len ptr σ es i) ∧ (es.length < M → σ + es.sum ≤ len)

/-- The first end is missed if what is left of the block is shorter than the way to it. -/
theorem missed_zero {e : ℕ} : Missed len ptr σ (e :: es) 0 ↔ σ ≤ len ∧ len + ptr < σ + e := by
  simp [Missed]

/-- The ends behind the first one are missed as they are from there. -/
theorem missed_succ {e i : ℕ} :
    Missed len ptr σ (e :: es) (i + 1) ↔ Missed len e (σ + e) es i := by
  simp [Missed, Nat.add_assoc]

/-- Where there is no end none is missed. -/
theorem not_missed_nil (i : ℕ) : ¬Missed len ptr σ [] i := by simp [Missed]

/-- An end that is missed is an end. -/
theorem Missed.lt_length {i : ℕ} (h : Missed len ptr σ es i) : i < es.length := by
  obtain ⟨-, e, he, -⟩ := h
  exact (List.getElem?_eq_some_iff.mp he).1

/-- Behind an end that is not missed the search goes on for one end less. -/
theorem inReach_cons {e : ℕ} (h : ¬Missed len ptr σ (e :: es) 0) :
    InReach len ptr σ (e :: es) (M + 1) ↔ InReach len e (σ + e) es M := by
  rw [InReach, InReach, List.sum_cons, List.length_cons, Nat.succ_lt_succ_iff, Nat.add_assoc]
  refine and_congr_left' ⟨?_, ?_⟩
  · intro hall i hi
    exact missed_succ.not.mp (hall (i + 1) (by omega))
  · intro hall i hi
    rcases i with _ | i
    · exact h
    · exact missed_succ.not.mpr (hall i (by omega))

/-- What the scan ends with: the end it looks for; fewer ends than it looks for; an end that it
misses, with more to find than are behind it; or a search behind the block. -/
theorem scanEnds_cases (hM : 0 < M) :
    (InReach len ptr σ es M ∧ ∃ e ∈ es[M - 1]?, scanEnds len es ptr σ M = some (.inl e)) ∨
    (InReach len ptr σ es M ∧ es.length < M ∧ scanEnds len es ptr σ M = some (.inr (M - es.length))) ∨
    (∃ i m', i < M ∧ Missed len ptr σ es i ∧ 0 < m' ∧ m' ≤ M ∧ M < m' + es.length ∧
      scanEnds len es ptr σ M = some (.inr m')) ∨
    (∀ i < M, ¬Missed len ptr σ es i) ∧ es.length < M ∧ len < σ + es.sum ∧
      scanEnds len es ptr σ M = none := by
  induction es generalizing ptr σ M with
  | nil =>
    rw [scanEnds]
    by_cases hle : σ ≤ len
    · exact .inr (.inl ⟨⟨fun i _ => not_missed_nil i, fun _ => hle⟩, hM, if_pos hle⟩)
    · exact .inr (.inr (.inr ⟨fun i _ => not_missed_nil i, hM, by simpa using hle, if_neg hle⟩))
  | cons e es ih =>
    obtain ⟨M, rfl⟩ := Nat.exists_eq_succ_of_ne_zero hM.ne'
    rw [scanEnds]
    by_cases hmiss : σ ≤ len ∧ len + ptr < σ + e
    · rw [if_pos hmiss]
      exact .inr (.inr (.inl ⟨0, M + 1, hM, missed_zero.mpr hmiss, hM, le_rfl, by simp, rfl⟩))
    have hfirst : ¬Missed len ptr σ (e :: es) 0 := missed_zero.not.mpr hmiss
    rw [if_neg hmiss, inReach_cons hfirst]
    rcases Nat.eq_zero_or_pos M with rfl | hpos
    · refine .inl ⟨⟨?_, fun hlt => absurd hlt (Nat.not_lt_zero _)⟩, e, rfl, rfl⟩
      exact fun i hi => absurd hi (Nat.not_lt_zero i)
    rw [if_neg (by omega), Nat.succ_sub_one, List.length_cons]
    rcases @ih e (σ + e) M hpos with ⟨hreach, e', he', hscan⟩ | ⟨hreach, hlt, hscan⟩ |
      ⟨i, m', hi, hmissed, hm', hle, hlt, hscan⟩ | ⟨hnone, hlt, hsum, hscan⟩
    · refine .inl ⟨hreach, e', ?_, hscan⟩
      rwa [← Nat.succ_pred_eq_of_pos hpos, List.getElem?_cons_succ]
    · exact .inr (.inl ⟨hreach, by omega, by rw [hscan, Nat.succ_sub_succ]⟩)
    · refine .inr (.inr (.inl ⟨i + 1, m', by omega, missed_succ.mpr hmissed, hm', ?_, ?_, hscan⟩)) <;>
        omega
    · refine .inr (.inr (.inr ⟨?_, by omega, by rw [List.sum_cons]; omega, hscan⟩))
      intro i hi
      rcases i with _ | i
      · exact hfirst
      · exact missed_succ.not.mpr (hnone i (by omega))

/-! ## The blocks of a text -/

/-- The block `k` of a text. -/
def block (text : List UInt8) (k : ℕ) : List UInt8 := (text.drop (BUFSIZ * k)).take BUFSIZ

/-- The search of a block for `M` newlines finds those that it should. -/
def BlockInReach (d : UInt8) (buf : List UInt8) (M : ℕ) : Prop :=
  InReach buf.length 0 0 (ends d 0 buf) M

/-- The search of a block for more newlines than it has does not go behind it. -/
def BlockInside (d : UInt8) (buf : List UInt8) : Prop :=
  (∃ i, Missed buf.length 0 0 (ends d 0 buf) i) ∨ (ends d 0 buf).sum ≤ buf.length

/-- The search for `N` newlines finds them in each block that is read. -/
def AllInReach (d : UInt8) (text : List UInt8) (N : ℕ) : Prop :=
  ∀ k, (text.take (BUFSIZ * k)).count d < N →
    BlockInReach d (block text k) (N - (text.take (BUFSIZ * k)).count d)

/-- The first block begins the text. -/
theorem block_zero (text : List UInt8) : block text 0 = text.take BUFSIZ := by simp [block]

/-- The blocks behind the first one are those of the text behind it. -/
theorem block_succ (text : List UInt8) (k : ℕ) : block text (k + 1) = block (text.drop BUFSIZ) k := by
  rw [block, block, List.drop_drop, Nat.mul_succ, Nat.add_comm]

/-- The newlines in the first blocks are those of the first block and of the others. -/
theorem count_take_succ (text : List UInt8) (k : ℕ) : (text.take (BUFSIZ * (k + 1))).count d =
    (text.take BUFSIZ).count d + ((text.drop BUFSIZ).take (BUFSIZ * k)).count d := by
  rw [Nat.mul_succ, Nat.add_comm, List.take_add, List.count_append]

/-- What holds of all blocks holds of the first one and of those behind it. -/
theorem forall_block {p : List UInt8 → Prop} :
    (∀ k, p (block text k)) ↔ p (text.take BUFSIZ) ∧ ∀ k, p (block (text.drop BUFSIZ) k) := by
  simp only [← block_zero, ← block_succ]
  exact Nat.and_forall_add_one.symm

/-- The search finds its newlines in the first block, and those that are left in the text behind it. -/
theorem allInReach_iff (hN : 0 < N) : AllInReach d text N ↔ BlockInReach d (text.take BUFSIZ) N ∧
    ((text.take BUFSIZ).count d < N →
      AllInReach d (text.drop BUFSIZ) (N - (text.take BUFSIZ).count d)) := by
  refine ⟨?_, ?_⟩
  · intro h
    refine ⟨by simpa [block_zero] using h 0 (by simpa using hN), ?_⟩
    intro hlt k hk
    have hnext := h (k + 1) (by rw [count_take_succ]; omega)
    rwa [block_succ, count_take_succ, ← Nat.sub_sub] at hnext
  · rintro ⟨hfirst, hrest⟩ k hk
    rcases k with _ | k
    · simpa [block_zero] using hfirst
    · rw [count_take_succ] at hk ⊢
      rw [block_succ, ← Nat.sub_sub]
      exact hrest (by omega) k (by omega)

/-- What `elide_head_lines` outputs of what is left of a file, in at most `b` blocks, with `M`
newlines to pass, or nothing where its search goes behind a block. -/
def behindLines (d : UInt8) : ℕ → List UInt8 → ℕ → Option (List UInt8)
  | 0, _, _ => some []
  | b + 1, rest, M =>
    let buf := rest.take BUFSIZ
    match scanEnds buf.length (ends d 0 buf) 0 0 M with
    | none => none
    | some (.inl e) => some (rest.drop e)
    | some (.inr M) => behindLines d b (rest.drop BUFSIZ) M

/-- The first block has fewer newlines than are to be passed. -/
theorem restLines_drop_block (h : (text.take BUFSIZ).count d < M) :
    restLines d M text = restLines d (M - (text.take BUFSIZ).count d) (text.drop BUFSIZ) := by
  conv_lhs => rw [← List.take_append_drop BUFSIZ text]
  rw [restLines_append h]

/-- The first block has as many. -/
theorem restLines_of_block (hM : 0 < M) {e : ℕ} (he : e ∈ (ends d 0 (text.take BUFSIZ))[M - 1]?) :
    M ≤ (text.take BUFSIZ).count d ∧ text.drop e = restLines d M text := by
  have hlt := (List.getElem?_eq_some_iff.mp he).1
  rw [length_ends] at hlt
  have hend := ends_getElem? (d := d) 0 hlt
  rw [he, Nat.sub_add_cancel hM, Nat.zero_add] at hend
  have hfirst : firstLines d M text = firstLines d M (text.take BUFSIZ) := by
    conv_lhs => rw [← List.take_append_drop BUFSIZ text]
    exact firstLines_append_of_le (by omega) _
  rw [Option.some.inj hend, ← hfirst, drop_length_firstLines]
  exact ⟨by omega, rfl⟩

/-- One block, by what its search ends with: the lines end in it; fewer newlines than are to be
passed, and all of them found; a newline missed, and more to pass than are behind it; or a search
behind the block. -/
theorem behindLines_cases (b : ℕ) (hM : 0 < M) :
    (AllInReach d text M ∧ M ≤ text.count d ∧
      behindLines d (b + 1) text M = some (restLines d M text)) ∨
    (∃ m', 0 < m' ∧ m' + (text.take BUFSIZ).count d = M ∧
      (AllInReach d text M ↔ AllInReach d (text.drop BUFSIZ) m') ∧ BlockInside d (text.take BUFSIZ) ∧
      restLines d M text = restLines d m' (text.drop BUFSIZ) ∧
      behindLines d (b + 1) text M = behindLines d b (text.drop BUFSIZ) m') ∨
    (∃ m', 0 < m' ∧ M < m' + (text.take BUFSIZ).count d ∧ ¬AllInReach d text M ∧
      BlockInside d (text.take BUFSIZ) ∧
      behindLines d (b + 1) text M = behindLines d b (text.drop BUFSIZ) m') ∨
    ¬AllInReach d text M ∧ ¬BlockInside d (text.take BUFSIZ) ∧ behindLines d (b + 1) text M = none := by
  have hlen := length_ends d 0 (text.take BUFSIZ)
  rw [behindLines, allInReach_iff hM, BlockInReach, BlockInside]
  rcases @scanEnds_cases (text.take BUFSIZ).length 0 0 M (ends d 0 (text.take BUFSIZ)) hM with
    ⟨hreach, e, he, hscan⟩ | ⟨hreach, hlt, hscan⟩ | ⟨i, m', hi, hmiss, hm', hle, hlt, hscan⟩ |
    ⟨hnone, hlt, hsum, hscan⟩
  · obtain ⟨hcount, hdrop⟩ := restLines_of_block hM he
    have hmono := (List.take_sublist BUFSIZ text).count_le d
    simp only [hscan, hdrop]
    exact .inl ⟨⟨hreach, fun h => absurd h (by omega)⟩, by omega, trivial⟩
  · rw [hlen] at hlt
    simp only [hscan, hlen]
    refine .inr (.inl ⟨_, by omega, Nat.sub_add_cancel hlt.le, ?_, .inr ?_, ?_⟩)
    · exact ⟨fun h => h.2 hlt, fun h => ⟨hreach, fun _ => h⟩⟩
    · exact Nat.zero_add (ends d 0 (text.take BUFSIZ)).sum ▸ hreach.2 (by omega)
    · exact ⟨restLines_drop_block hlt, rfl⟩
  · rw [hlen] at hlt
    simp only [hscan]
    exact .inr (.inr (.inl ⟨m', hm', hlt, fun h => h.1.1 i hi hmiss, .inl ⟨i, hmiss⟩, rfl⟩))
  · rw [Nat.zero_add] at hsum
    simp only [hscan]
    refine .inr (.inr (.inr ⟨?_, ?_, trivial⟩))
    · intro h
      have hsum' := h.1.2 hlt
      omega
    · rintro (⟨i, hi⟩ | hle)
      · exact hnone i (hi.lt_length.trans hlt) hi
      · omega

/-- A block less is left behind the first one. -/
theorem length_drop_block {b : ℕ} (h : text.length ≤ BUFSIZ * (b + 1)) :
    (text.drop BUFSIZ).length ≤ BUFSIZ * b := by
  rw [Nat.mul_succ] at h
  rw [List.length_drop]
  omega

/-- The newlines of a text are those of its first block and those behind it. -/
theorem count_block (d : UInt8) (text : List UInt8) :
    (text.take BUFSIZ).count d + (text.drop BUFSIZ).count d = text.count d := by
  rw [← List.count_append, List.take_append_drop]

/-- Where no newline is missed the output is right. -/
theorem behindLines_right {b : ℕ} (hb : text.length ≤ BUFSIZ * b) (hM : 0 < M)
    (h : AllInReach d text M) : behindLines d b text M = some (restLines d M text) := by
  induction b generalizing text M with
  | zero =>
    obtain rfl := List.eq_nil_of_length_eq_zero (Nat.le_zero.mp hb)
    simp [behindLines, restLines, lines]
  | succ b ih =>
    rcases behindLines_cases b hM with ⟨-, -, hrun⟩ | ⟨m', hm', -, hiff, -, hrest, hrun⟩ |
      ⟨-, -, -, hmissed, -⟩ | hout
    · exact hrun
    · rw [hrun, hrest]
      exact ih (length_drop_block hb) hm' (hiff.mp h)
    · exact absurd h hmissed
    · exact absurd h hout.1

/-- The output never begins before the line that it should, and later if a newline is missed. -/
theorem behindLines_late {b : ℕ} {r : List UInt8} (hb : text.length ≤ BUFSIZ * b) (hM : 0 < M)
    (h : behindLines d b text M = some r) :
    ∃ M', M ≤ M' ∧ r = restLines d M' text ∧ (M' = M → AllInReach d text M) := by
  induction b generalizing text M with
  | zero =>
    obtain rfl := List.eq_nil_of_length_eq_zero (Nat.le_zero.mp hb)
    obtain rfl := Option.some.inj h
    exact ⟨M + 1, by omega, by simp [restLines, lines], fun heq => absurd heq (by omega)⟩
  | succ b ih =>
    rcases behindLines_cases b hM with ⟨hreach, -, hrun⟩ | ⟨m', hm', hsum, hiff, -, -, hrun⟩ |
      ⟨m', hm', hlt, -, -, hrun⟩ | ⟨-, -, hrun⟩
    · exact ⟨M, le_rfl, Option.some.inj (h.symm.trans hrun), fun _ => hreach⟩
    · obtain ⟨M', hle, hr, heq⟩ := ih (length_drop_block hb) hm' (hrun.symm.trans h)
      refine ⟨M' + (text.take BUFSIZ).count d, by omega, ?_, fun h' => hiff.mpr (heq (by omega))⟩
      rw [restLines_drop_block (by omega), Nat.add_sub_cancel, hr]
    · obtain ⟨M', hle, hr, -⟩ := ih (length_drop_block hb) hm' (hrun.symm.trans h)
      refine ⟨M' + (text.take BUFSIZ).count d, by omega, ?_, fun h' => absurd h' (by omega)⟩
      rw [restLines_drop_block (by omega), Nat.add_sub_cancel, hr]
    · cases hrun.symm.trans h

/-- A search for more newlines than there are stays in the blocks if it ends. -/
theorem behindLines_inside {b : ℕ} {r : List UInt8} (hb : text.length ≤ BUFSIZ * b) (hM : 0 < M)
    (h : behindLines d b text M = some r) (hcount : text.count d ≤ M)
    (hlt : AllInReach d text M → text.count d < M) (k : ℕ) : BlockInside d (block text k) := by
  induction b generalizing text M k with
  | zero =>
    obtain rfl := List.eq_nil_of_length_eq_zero (Nat.le_zero.mp hb)
    exact .inr (by simp [block, ends])
  | succ b ih =>
    have hsplit := count_block d text
    rcases behindLines_cases b hM with ⟨hreach, hle, -⟩ | ⟨m', hm', hsum, hiff, hin, -, hrun⟩ |
      ⟨m', hm', hless, -, hin, hrun⟩ | ⟨-, -, hrun⟩
    · exact absurd (hlt hreach) (by omega)
    · refine forall_block.mpr ⟨hin, ?_⟩ k
      refine ih (length_drop_block hb) hm' (hrun.symm.trans h) (by omega) ?_
      intro hreach
      have hfew := hlt (hiff.mpr hreach)
      omega
    · refine forall_block.mpr ⟨hin, ?_⟩ k
      exact ih (length_drop_block hb) hm' (hrun.symm.trans h) (by omega) (fun _ => by omega)
    · cases hrun.symm.trans h

/-- It ends if it stays in the blocks. -/
theorem behindLines_ends {b : ℕ} (hM : 0 < M) (hin : ∀ k, BlockInside d (block text k)) :
    ∃ r, behindLines d b text M = some r := by
  induction b generalizing text M with
  | zero => exact ⟨[], rfl⟩
  | succ b ih =>
    obtain ⟨hfirst, hrest⟩ := forall_block.mp hin
    rcases behindLines_cases b hM with ⟨-, -, hrun⟩ | ⟨m', hm', -, -, -, -, hrun⟩ |
      ⟨m', hm', -, -, -, hrun⟩ | ⟨-, hout, -⟩
    · exact ⟨_, hrun⟩
    · exact hrun ▸ ih hm' hrest
    · exact hrun ▸ ih hm' hrest
    · exact absurd hfirst hout

/-- When the output is right. -/
theorem behindLines_eq_iff {b : ℕ} (hb : text.length ≤ BUFSIZ * b) (hM : 0 < M) :
    behindLines d b text M = some (restLines d M text) ↔ AllInReach d text M ∨
      restLines d M text = [] ∧ ∀ k, BlockInside d (block text k) := by
  refine ⟨?_, ?_⟩
  · intro h
    by_cases hreach : AllInReach d text M
    · exact .inl hreach
    obtain ⟨M', hle, hr, heq⟩ := behindLines_late hb hM h
    have hne : M ≠ M' := fun h' => hreach (heq h'.symm)
    have hnil : restLines d M text = [] := by
      by_contra hne'
      exact restLines_ne (by omega) hne' hr.symm
    have hlines := restLines_eq_nil.mp hnil
    rw [length_lines] at hlines
    exact .inr ⟨hnil, behindLines_inside hb hM h (by omega) fun h' => absurd h' hreach⟩
  · rintro (hreach | ⟨hnil, hin⟩)
    · exact behindLines_right hb hM hreach
    · obtain ⟨r, hr⟩ := behindLines_ends (b := b) hM hin
      obtain ⟨M', hle, rfl, -⟩ := behindLines_late hb hM hr
      rw [hr, hnil, restLines_eq_nil.mpr ((restLines_eq_nil.mp hnil).trans hle)]

/-! ## Where the search ends -/

/-- How many ends the search finds if it looks for more than there are: those before the first that it
misses. -/
def reached (len : ℕ) : List ℕ → ℕ → ℕ → ℕ
  | [], _, _ => 0
  | e :: es, ptr, σ => if σ ≤ len ∧ len + ptr < σ + e then 0 else reached len es e (σ + e) + 1

/-- The search for more ends than there are stays in the block: it misses one, or `n` does not wrap. -/
def Inside (len ptr σ : ℕ) (es : List ℕ) : Prop :=
  (∃ i, Missed len ptr σ es i) ∨ σ + es.sum ≤ len

/-- Behind the lines of an empty file there is nothing. -/
theorem behindLines_nil (d : UInt8) (b M : ℕ) : behindLines d b [] M = some [] := by
  induction b generalizing M with
  | zero => rfl
  | succ b ih => exact ih M

/-- The ends of a block's lines are in it. -/
theorem ends_le {e i : ℕ} (h : e ∈ (ends d 0 buf)[i]?) : e ≤ buf.length := by
  have hlt := (List.getElem?_eq_some_iff.mp h).1
  rw [length_ends] at hlt
  rw [ends_getElem? 0 hlt, Nat.zero_add] at h
  obtain rfl := Option.some.inj h
  rw [← take_length_firstLines]
  exact List.length_take_le' _ _

/-- An end that is found is in the block. -/
theorem scanEnds_le {e : ℕ} (hM : 0 < M)
    (h : scanEnds buf.length (ends d 0 buf) 0 0 M = some (.inl e)) : e ≤ buf.length := by
  rcases @scanEnds_cases buf.length 0 0 M (ends d 0 buf) hM with
    ⟨-, e', he', hscan⟩ | ⟨-, -, hscan⟩ | ⟨i, m', -, -, -, -, -, hscan⟩ | ⟨-, -, -, hscan⟩
  · obtain rfl := Sum.inl.inj (Option.some.inj (h.symm.trans hscan))
    exact ends_le he'
  all_goals cases h.symm.trans hscan

/-- A search that goes on has lines left to find. -/
theorem scanEnds_pos {m' : ℕ} (hM : 0 < M) (h : scanEnds len es ptr σ M = some (.inr m')) :
    0 < m' := by
  rcases @scanEnds_cases len ptr σ M es hM with
    ⟨-, e, -, hscan⟩ | ⟨-, hlt, hscan⟩ | ⟨i, m, -, -, hm, -, -, hscan⟩ | ⟨-, -, -, hscan⟩
  · cases h.symm.trans hscan
  · obtain rfl := Sum.inr.inj (Option.some.inj (h.symm.trans hscan))
    omega
  · obtain rfl := Sum.inr.inj (Option.some.inj (h.symm.trans hscan))
    exact hm
  · cases h.symm.trans hscan

/-- The scan of a block from its beginning. -/
theorem scanHead_block (hlen : buf.length ≤ BUFSIZ) (hM : 0 < M) :
    scanHead d buf (buf.length + 1) 0 buf.length M = scanEnds buf.length (ends d 0 buf) 0 0 M := by
  have hsize : BUFSIZ = 8192 := rfl
  have hcount : (ends d 0 buf).length ≤ buf.length :=
    (length_ends d 0 buf).trans_le List.count_le_length
  have hbound : (ends d 0 buf).length * buf.length ≤ 8192 * 8192 :=
    Nat.mul_le_mul (hcount.trans hlen) hlen
  have hstart : ends d 0 (buf.drop 0) = ends d 0 buf := by rw [List.drop_zero]
  have hscan : scanHead d buf (buf.length + 1) 0 (toUInt64 ((buf.length : ℤ) - (0 : ℕ))) M = _ :=
    scanHead_eq (Nat.zero_le _) hstart le_rfl (by omega) (by omega) hM (by omega)
  rwa [Int.natCast_zero, Int.sub_zero, toUInt64_of_range (by omega)] at hscan

section

variable {pos : ℕ} {io : Io}

/-- A round that finds the last line copies what is behind it. -/
theorem elideHeadLoop_found_eq {e size : ℕ}
    (h : scanHead d buf (buf.length + 1) 0 buf.length M = some (.inl e)) (hpos : pos + e < 2 ^ 31) :
    elideHeadLoop d size (fuel + 1) pos buf M io = copyRest size (pos + e : ℕ) io fuel := by
  have hconv : toInt32 ((pos : ℤ) + e) = ((pos + e : ℕ) : ℤ) := toInt32_of_range (by omega) (by omega)
  rw [elideHeadLoop, h, Option.bind_eq_bind, Option.bind_some]
  simp only [hconv]

/-- A round that comes to the end of the file ends the loop. -/
theorem elideHeadLoop_end_eq {m' : ℕ}
    (h : scanHead d buf (buf.length + 1) 0 buf.length M = some (.inr m'))
    (hpos : pos + buf.length < 2 ^ 31) :
    elideHeadLoop d (pos + buf.length) (fuel + 1) pos buf M io = some (io, true) := by
  have hconv : toInt32 ((pos : ℤ) + buf.length) = ((pos + buf.length : ℕ) : ℤ) :=
    toInt32_of_range (by omega) (by omega)
  have hpos' : toUInt64 ((pos + buf.length : ℕ) : ℤ) = pos + buf.length := toUInt64_of_range (by omega)
  rw [elideHeadLoop, h, Option.bind_eq_bind, Option.bind_some]
  simp only [hconv, hpos', Nat.lt_irrefl, if_false, if_true]

/-- A round that comes to the end of its block goes on with the next one. -/
theorem elideHeadLoop_next_eq {m' size : ℕ} {x : UInt8} {xs : List UInt8} {fd : Fd}
    (h : scanHead d buf (buf.length + 1) 0 buf.length M = some (.inr m'))
    (hpos : pos + buf.length < size) (hsize : size < 2 ^ 31)
    (hread : ({ io.fd with offset := pos + buf.length } : Fd).read BUFSIZ = (some (x :: xs), fd)) :
    elideHeadLoop d size (fuel + 1) pos buf M io =
      elideHeadLoop d size fuel (pos + buf.length : ℕ) (x :: xs) m' { io with fd := fd } := by
  have hconv : toInt32 ((pos : ℤ) + buf.length) = ((pos + buf.length : ℕ) : ℤ) :=
    toInt32_of_range (by omega) (by omega)
  have hpos' : toUInt64 ((pos + buf.length : ℕ) : ℤ) = pos + buf.length := toUInt64_of_range (by omega)
  rw [elideHeadLoop, h, Option.bind_eq_bind, Option.bind_some]
  simp only [hconv, hpos', if_neg hpos.not_gt, if_neg hpos.ne,
    Fd.seek_natCast, hread]

/-- A search behind the bytes read gives the loop no result. -/
theorem elideHeadLoop_undefined {size : ℕ}
    (h : scanHead d buf (buf.length + 1) 0 buf.length M = none) (fuel : ℕ) :
    elideHeadLoop d size fuel pos buf M io = none := by
  rcases fuel with _ | fuel
  · rfl
  · rw [elideHeadLoop, h]
    rfl

end

/-- Where the search ends the rest of the file is copied. -/
theorem copyRest_outputs {pos : ℕ} (hle : pos ≤ text.length) (hlen : text.length < 2 ^ 31)
    (offset : ℕ) :
    Outputs (copyRest text.length pos ⟨⟨text, offset, []⟩, out⟩) true (out ++ text.drop pos) := by
  obtain ⟨io', ⟨n, hn⟩, hout⟩ :=
    copyFd_outputs (text.length - pos) ⟨⟨text, pos, []⟩, out⟩ List.not_mem_nil
  have hbytes : toUInt64 ((text.length : ℤ) - pos) = text.length - pos := by
    rw [← Int.natCast_sub hle, toUInt64_of_range (by omega)]
  refine ⟨io', ⟨n, ?_⟩, ?_⟩
  · intro fuel hf
    rw [copyRest, Fd.seek_natCast, hbytes]
    exact hn fuel hf
  · rw [hout, Fd.rest, List.take_of_length_le (by rw [List.length_drop])]

/-- The loop at a block `buf` that begins at `pos`, with the offset behind it. -/
def atBlock (d : UInt8) (text : List UInt8) (pos M : ℕ) (out : List UInt8) (fuel : ℕ) :
    Option (Io × Bool) :=
  let buf := (text.drop pos).take BUFSIZ
  elideHeadLoop d text.length fuel pos buf M ⟨⟨text, pos + buf.length, []⟩, out⟩

section

variable {pos b : ℕ}

/-- A block is full but for the last one. -/
theorem length_of_block (hbuf : (text.drop pos).take BUFSIZ = buf) :
    buf.length = min BUFSIZ (text.length - pos) := by
  rw [← hbuf, List.length_take, List.length_drop]

/-- A search behind the bytes of its block gives the loop no result. -/
theorem atBlock_undefined (hbuf : (text.drop pos).take BUFSIZ = buf) (hM : 0 < M)
    (h : scanEnds buf.length (ends d 0 buf) 0 0 M = none) (fuel : ℕ) :
    atBlock d text pos M out fuel = none := by
  subst hbuf
  have hb : _ = min BUFSIZ (text.length - pos) := length_of_block rfl
  exact elideHeadLoop_undefined ((scanHead_block (by omega) hM).trans h) fuel

/-- The lines end in the block: the rest of the file is copied. -/
theorem atBlock_found {e : ℕ} (hlen : text.length < 2 ^ 31) (hpos : pos < text.length)
    (hbuf : (text.drop pos).take BUFSIZ = buf) (hM : 0 < M)
    (h : scanEnds buf.length (ends d 0 buf) 0 0 M = some (.inl e)) :
    Outputs (atBlock d text pos M out) true (out ++ text.drop (pos + e)) := by
  have hb := length_of_block hbuf
  have he := scanEnds_le hM h
  have hscan := (scanHead_block (by omega) hM).trans h
  have hle : pos + e ≤ text.length := by omega
  obtain ⟨io', ⟨n, hn⟩, hout⟩ := @copyRest_outputs text out _ hle hlen (pos + buf.length)
  subst hbuf
  refine ⟨io', .succ (k := n) ?_, hout⟩
  intro fuel hf
  exact (elideHeadLoop_found_eq hscan (by omega)).trans (hn fuel hf)

/-- They do not, and the file ends with the block. -/
theorem atBlock_last {m' : ℕ} (hlen : text.length < 2 ^ 31) (hpos : pos < text.length)
    (hlast : text.length ≤ pos + BUFSIZ) (hbuf : (text.drop pos).take BUFSIZ = buf) (hM : 0 < M)
    (h : scanEnds buf.length (ends d 0 buf) 0 0 M = some (.inr m')) :
    Outputs (atBlock d text pos M out) true out := by
  have hb := length_of_block hbuf
  have hscan := (scanHead_block (by omega) hM).trans h
  have hend : text.length = pos + buf.length := by omega
  refine ⟨⟨⟨text, pos + buf.length, []⟩, out⟩, .succ (k := 0) ?_, rfl⟩
  intro fuel _
  rw [atBlock, hbuf]
  conv_lhs => rw [hend]
  exact elideHeadLoop_end_eq hscan (by omega)

/-- They do not, and there is a block behind it. -/
theorem atBlock_next {m' : ℕ} (hlen : text.length < 2 ^ 31) (hmore : pos + BUFSIZ < text.length)
    (hbuf : (text.drop pos).take BUFSIZ = buf) (hM : 0 < M)
    (h : scanEnds buf.length (ends d 0 buf) 0 0 M = some (.inr m')) (fuel : ℕ) :
    atBlock d text pos M out (fuel + 1) = atBlock d text (pos + BUFSIZ) m' out fuel := by
  have hb := length_of_block hbuf
  have hscan := (scanHead_block (by omega) hM).trans h
  have hfull : buf.length = BUFSIZ := by omega
  have hne : (text.drop (pos + BUFSIZ)).take BUFSIZ ≠ [] := by
    refine List.ne_nil_of_length_pos ?_
    rw [length_of_block rfl]
    have hsize := BUFSIZ_pos
    omega
  obtain ⟨x, xs, hbytes⟩ := List.exists_cons_of_ne_nil hne
  have hread : (⟨text, pos + buf.length, []⟩ : Fd).read BUFSIZ =
      (some (x :: xs), ⟨text, pos + BUFSIZ + (x :: xs).length, []⟩) := by
    rw [hfull, Fd.read_full _ _ rfl, Fd.rest, hbytes]
  have hgo : elideHeadLoop d text.length (fuel + 1) pos buf M ⟨⟨text, pos + buf.length, []⟩, out⟩ = _ :=
    elideHeadLoop_next_eq hscan (by omega) hlen hread
  rw [atBlock, hbuf, hgo, hfull, atBlock, hbytes]

/-- The loop outputs what is behind the lines, or goes behind a block. -/
theorem atBlock_spec (hlen : text.length < 2 ^ 31) (hpos : pos < text.length)
    (hb : text.length ≤ pos + BUFSIZ * b) (hM : 0 < M) :
    match behindLines d b (text.drop pos) M with
    | some r => Outputs (atBlock d text pos M out) true (out ++ r)
    | none => ∀ fuel, atBlock d text pos M out fuel = none := by
  -- induction on the blocks that are left
  induction b generalizing pos M with
  | zero => omega
  | succ b ih =>
    rw [Nat.mul_succ] at hb
    generalize hbuf : (text.drop pos).take BUFSIZ = buf
    rcases hends : scanEnds buf.length (ends d 0 buf) 0 0 M with _ | e | m'
    · simp only [behindLines, hbuf, hends]
      exact atBlock_undefined hbuf hM hends
    · simp only [behindLines, hbuf, hends, List.drop_drop]
      exact atBlock_found hlen hpos hbuf hM hends
    simp only [behindLines, hbuf, hends, List.drop_drop]
    rcases Nat.lt_or_ge (pos + BUFSIZ) text.length with hmore | hlast
    · have hrest := @ih m' (pos + BUFSIZ) hmore (by omega) (scanEnds_pos hM hends)
      have hpass (fuel : ℕ) : atBlock d text pos M out (fuel + 1) = _ :=
        atBlock_next hlen hmore hbuf hM hends fuel
      rcases hbehind : behindLines d b (text.drop (pos + BUFSIZ)) m' with _ | r
      · rw [hbehind] at hrest
        intro fuel
        rcases fuel with _ | fuel
        · rfl
        · exact (hpass fuel).trans (hrest fuel)
      · rw [hbehind] at hrest
        obtain ⟨io', ⟨n, hn⟩, hout⟩ := hrest
        refine ⟨io', .succ (k := n) ?_, hout⟩
        intro fuel hf
        exact (hpass fuel).trans (hn fuel hf)
    · simp only [List.drop_of_length_le hlast, behindLines_nil, List.append_nil]
      exact atBlock_last hlen hpos hlast hbuf hM hends

end

/-! ## `elide_head_lines` -/

/-- An empty file. -/
theorem allInReach_nil (d : UInt8) (N : ℕ) : AllInReach d [] N := by
  intro k _
  have hnil : block [] k = [] := by simp [block]
  rw [BlockInReach, hnil]
  exact ⟨fun i _ => not_missed_nil i, fun _ => le_rfl⟩

/-- `elide_head_lines` of an empty file, or without lines to leave out. -/
theorem elideHeadLines_all (text out : List UInt8) (hN : N + 1 < 2 ^ 31) (h : N = 0 ∨ text = []) :
    Outputs (elideHeadLines (N + 1 : ℕ) d text.length (.start text [] out)) true (out ++ text) := by
  have hnum : toUInt64 ((N + 1 : ℕ) : ℤ) = N + 1 := toUInt64_of_range (by omega)
  rcases eq_or_ne text [] with rfl | hne
  · exact ⟨.start [] [] out, ⟨0, fun fuel _ => by simp [elideHeadLines]⟩, (List.append_nil out).symm⟩
  obtain rfl := h.resolve_right hne
  have hcond : ¬(text.length = 0 ∨ 0 + 1 = 0) := by simp [hne]
  have hrun : elideHeadLines (0 + 1 : ℕ) d text.length (.start text [] out) =
      copyFd text.length (.start text [] out) := by
    funext fuel
    simp only [elideHeadLines, hnum, if_neg hcond, Nat.add_sub_cancel, if_true]
    rfl
  exact hrun ▸ copyFd_file text out

/-- The beginning of `elide_head_lines`, up to the loop. -/
theorem elideHeadLines_eq (text out : List UInt8) (hN0 : 0 < N) (hN : N + 1 < 2 ^ 31)
    (hne : text ≠ []) :
    elideHeadLines (N + 1 : ℕ) d text.length (.start text [] out) = atBlock d text 0 N out := by
  have hnum : toUInt64 ((N + 1 : ℕ) : ℤ) = N + 1 := toUInt64_of_range (by omega)
  have hcond : ¬(text.length = 0 ∨ N + 1 = 0) := by simp [hne]
  have hread : (⟨text, 0, []⟩ : Fd).read BUFSIZ =
      (some (text.take BUFSIZ), ⟨text, 0 + (text.take BUFSIZ).length, []⟩) := Fd.read_full _ _ rfl
  funext fuel
  simp only [elideHeadLines, hnum, if_neg hcond, Nat.add_sub_cancel, if_neg hN0.ne', Io.start, hread,
    atBlock, List.drop_zero, Int.natCast_zero]

/-- When `elide_head_lines` outputs the lines behind the first `N`, for either delimiter. -/
theorem elideHeadLines_iff (text out : List UInt8) (hN : N + 1 < 2 ^ 31) (hlen : text.length < 2 ^ 31) :
    Outputs (elideHeadLines (N + 1 : ℕ) d text.length (.start text [] out)) true
        (out ++ restLines d N text) ↔
      AllInReach d text N ∨ restLines d N text = [] ∧ ∀ k, BlockInside d (block text k) := by
  by_cases hall : N = 0 ∨ text = []
  · have hrest : restLines d N text = text := by
      rcases hall with rfl | rfl
      · exact restLines_zero d text
      · simp [restLines, lines]
    refine iff_of_true (hrest.symm ▸ elideHeadLines_all text out hN hall) (.inl ?_)
    rcases hall with rfl | rfl
    · exact fun k hk => absurd hk (Nat.not_lt_zero _)
    · exact allInReach_nil d N
  obtain ⟨hN0, hne⟩ := not_or.mp hall
  have hpos := Nat.pos_of_ne_zero hN0
  have hblocks : text.length ≤ BUFSIZ * text.length := Nat.le_mul_of_pos_left _ BUFSIZ_pos
  rw [elideHeadLines_eq text out hpos hN hne, ← behindLines_eq_iff hblocks hpos]
  have hspec : match behindLines d text.length text N with
      | some r => Outputs (atBlock d text 0 N out) true (out ++ r)
      | none => ∀ fuel, atBlock d text 0 N out fuel = none :=
    atBlock_spec hlen (List.length_pos_iff.mpr hne) (by omega) hpos
  refine ⟨?_, ?_⟩
  · intro h
    rcases hbehind : behindLines d text.length text N with _ | r
    · rw [hbehind] at hspec
      obtain ⟨io, ⟨n, hn⟩, -⟩ := h
      cases (hspec n).symm.trans (hn n le_rfl)
    · rw [hbehind] at hspec
      rw [List.append_cancel_left (hspec.unique h).2]
  · intro h
    rwa [h] at hspec

/-- What `tail -n +K` is for: it outputs the file from line `K` on, so that it completes what `head -n
(K-1)` has output. -/
def TailFrom (text out : List UInt8) (K : ℕ) : Prop :=
  Outputs (elideHeadLines K 10 text.length (.start text [] out)) true
    (out ++ restLines 10 (K - 1) text) ∧
  ∃ io, Returns (headLines (K - 1 : ℕ) 10 (.start text [] out)) (io, some true) ∧
    Outputs (elideHeadLines K 10 text.length (.start text [] io.stdout)) true (out ++ text)

/-- `tail -n +K`, for every `K` and every regular file of less than 2 GiB, where each `read` returns
what it is asked for: it outputs the file from line `K` on if and only if no newline before it is
missed in its block, or there is nothing to output and the search stays in the blocks. -/
theorem from_line_iff (text out : List UInt8) {K : ℕ} (hK : 1 ≤ K) (hK' : K < 2 ^ 31)
    (hlen : text.length < 2 ^ 31) : TailFrom text out K ↔
      AllInReach 10 text (K - 1) ∨
        restLines 10 (K - 1) text = [] ∧ ∀ k, BlockInside 10 (block text k) := by
  obtain ⟨N, rfl⟩ := Nat.exists_eq_add_of_le' hK
  rw [Nat.add_sub_cancel, TailFrom, Nat.add_sub_cancel]
  refine ⟨fun h => (elideHeadLines_iff text out hK' hlen).mp h.1, ?_⟩
  intro h
  refine ⟨(elideHeadLines_iff text out hK' hlen).mpr h, ?_⟩
  obtain ⟨io', hret, hout, -⟩ :=
    headLoop_spec (d := 10) (m := N) (Io.start text [] out) List.not_mem_nil (by omega)
  refine ⟨io', hret, ?_⟩
  have hstart : io'.stdout = out ++ firstLines 10 N text := hout
  have hrest := (elideHeadLines_iff text io'.stdout hK' hlen).mpr h
  rw [hstart, List.append_assoc, firstLines_append_restLines] at hrest
  rwa [hstart]

/-- `tail -n +2` of two lines. -/
theorem from_line_two : TailFrom [97, 10, 98, 10] [] 2 := by
  refine (from_line_iff [97, 10, 98, 10] [] (by decide) (by decide) (by decide)).mpr (.inl ?_)
  rw [allInReach_iff (by decide)]
  refine ⟨⟨?_, by decide⟩, fun h => absurd h (by decide)⟩
  rintro i hi ⟨-, e, he, hlt⟩
  obtain rfl := Nat.lt_one_iff.mp hi
  obtain rfl : 2 = e := Option.some.inj he
  exact absurd hlt (by decide)

/-- `tail -n +5` of six empty lines: the first three newlines have used up the six bytes. -/
theorem from_line_six : ¬TailFrom [10, 10, 10, 10, 10, 10] [] 5 := by
  rintro ⟨h, -⟩
  have hiff : _ ↔ _ :=
    elideHeadLines_iff (d := 10) (N := 4) [10, 10, 10, 10, 10, 10] [] (by decide) (by decide)
  rcases hiff.mp h with hreach | ⟨hnil, -⟩
  · rw [allInReach_iff (by decide)] at hreach
    exact hreach.1.1 3 (by decide) ⟨by decide, 4, rfl, by decide⟩
  · exact absurd hnil (by decide)

end HeadTail

end Ulsp
