import Mathlib.Data.List.DropRight
import Mathlib.Data.List.Basic

/-!
# Lines

A text over any alphabet is the sequence of its lines: a delimiter ends each of them but the last, which
may be without one. The number of lines is that of the delimiters and of the unended line, if there is
one (`length_lines`), so that the end of a text is its last lines when the delimiters in it are as many
(`lastLines_eq_drop`); this is what a program that searches for delimiters from the end establishes.
-/

namespace Lib

variable {α : Type*} {d x : α} {xs as bs : List α} {n p : ℕ}

/-- A text around one of its elements. -/
theorem eq_take_cons_drop (h : xs[p]? = some x) : xs = xs.take p ++ x :: xs.drop (p + 1) := by
  obtain ⟨hlt, hget⟩ := List.getElem?_eq_some_iff.mp h
  rw [← hget, ← List.drop_eq_getElem_cons hlt, List.take_append_drop]

/-- A text is cut in one way at its first delimiter. -/
theorem append_cons_inj {ys : List α} (has : d ∉ as) (hbs : d ∉ bs)
    (h : as ++ d :: xs = bs ++ d :: ys) : as = bs ∧ xs = ys := by
  induction as generalizing bs with
  | nil =>
    cases bs with
    | nil => exact ⟨rfl, (List.cons.inj h).2⟩
    | cons b bs => exact absurd ((List.cons.inj h).1 ▸ List.mem_cons_self) hbs
  | cons a as ih =>
    cases bs with
    | nil => exact absurd ((List.cons.inj h).1 ▸ List.mem_cons_self) has
    | cons b bs =>
      obtain ⟨rfl, hrest⟩ := List.cons.inj h
      obtain ⟨rfl, hxs⟩ := ih (fun hmem => has (List.mem_cons_of_mem _ hmem))
        (fun hmem => hbs (List.mem_cons_of_mem _ hmem)) hrest
      exact ⟨rfl, hxs⟩

variable [DecidableEq α]

/-- The lines of a text, with the delimiters that end them. -/
def lines (d : α) : List α → List (List α)
  | [] => []
  | x :: xs =>
    if x = d then [d] :: lines d xs
    else
      match lines d xs with
      | [] => [[x]]
      | l :: ls => (x :: l) :: ls

/-- The last `n` lines of a text, or all if they are fewer. -/
def lastLines (d : α) (n : ℕ) (xs : List α) : List α := ((lines d xs).rtake n).flatten

/-- The first `n` lines of a text, or all if they are fewer. -/
def firstLines (d : α) (n : ℕ) (xs : List α) : List α := ((lines d xs).take n).flatten

/-- All but the first `n` lines of a text. -/
def restLines (d : α) (n : ℕ) (xs : List α) : List α := ((lines d xs).drop n).flatten

/-- All but the last `n` lines of a text. -/
def butLastLines (d : α) (n : ℕ) (xs : List α) : List α := ((lines d xs).rdrop n).flatten

/-- The number of lines that no delimiter ends. -/
def unended (d : α) (xs : List α) : ℕ := if ∀ x ∈ xs.getLast?, x = d then 0 else 1

/-- Whether a text that is not empty has an unended line is seen from its last element. -/
theorem unended_of_ne_nil (h : xs ≠ []) : unended d xs = if xs.getLast? = some d then 0 else 1 := by
  rw [unended, List.getLast?_eq_some_getLast h]
  simp

/-- The lines make up the text. -/
theorem flatten_lines (d : α) (xs : List α) : (lines d xs).flatten = xs := by
  fun_induction lines d xs with
  | case1 => rfl
  | case2 xs ih => rw [List.flatten_cons, ih]; rfl
  | case3 x xs hx hnil ih =>
    rw [hnil] at ih
    rw [← ih]
    rfl
  | case4 x xs hx l ls hcons ih =>
    rw [hcons] at ih
    rw [← ih]
    rfl

/-- Only the empty text has no lines. -/
theorem lines_eq_nil : lines d xs = [] ↔ xs = [] := by
  refine ⟨?_, fun h => h ▸ rfl⟩
  intro h
  rw [← flatten_lines d xs, h]
  rfl

/-- The lines of a text up to a delimiter, and those behind it. -/
theorem lines_append (as bs : List α) :
    lines d (as ++ d :: bs) = lines d (as ++ [d]) ++ lines d bs := by
  induction as with
  | nil => simp [lines]
  | cons a as ih =>
    have hne : lines d (as ++ [d]) ≠ [] := fun h => by simpa using lines_eq_nil.mp h
    obtain ⟨l, ls, hl⟩ := List.exists_cons_of_ne_nil hne
    rw [List.cons_append, List.cons_append, lines, lines, ih, hl]
    split <;> rfl

/-- What comes before a text that is not empty does not matter to its last line. -/
theorem unended_cons (hne : xs ≠ []) : unended d (x :: xs) = unended d xs := by
  rw [unended, List.getLast?_cons_of_ne_nil hne, unended]

/-- The number of lines. -/
theorem length_lines (d : α) (xs : List α) :
    (lines d xs).length = xs.count d + unended d xs := by
  induction xs with
  | nil => simp [lines, unended]
  | cons x xs ih =>
    rcases eq_or_ne xs [] with rfl | hne
    · rcases eq_or_ne x d with rfl | hx
      · simp [lines, unended]
      · simp [lines, unended, hx]
    · rw [unended_cons hne, lines, List.count_cons]
      obtain ⟨l, ls, hl⟩ := List.exists_cons_of_ne_nil fun h => hne (lines_eq_nil.mp h)
      rw [hl] at ih ⊢
      rcases eq_or_ne x d with rfl | hx
      · simp only [if_true, List.length_cons, beq_self_eq_true] at ih ⊢
        omega
      · simp only [hx, if_false, List.length_cons, beq_iff_eq] at ih ⊢
        omega

/-- The first lines and the rest make up the text. -/
theorem firstLines_append_restLines (d : α) (n : ℕ) (xs : List α) :
    firstLines d n xs ++ restLines d n xs = xs := by
  rw [firstLines, restLines, ← List.flatten_append, List.take_append_drop, flatten_lines]

/-- The first 0 lines are empty. -/
@[simp]
theorem firstLines_zero (d : α) (xs : List α) : firstLines d 0 xs = [] := rfl

/-- Behind 0 lines is the whole text. -/
@[simp]
theorem restLines_zero (d : α) (xs : List α) : restLines d 0 xs = xs := flatten_lines d xs

/-- The empty text has no first lines. -/
@[simp]
theorem firstLines_nil (d : α) (n : ℕ) : firstLines d n [] = [] := by simp [firstLines, lines]

/-- A delimiter at the beginning is the first line. -/
@[simp]
theorem firstLines_cons_self (d : α) (n : ℕ) (xs : List α) :
    firstLines d (n + 1) (d :: xs) = d :: firstLines d n xs := by
  rw [firstLines, lines, if_pos rfl, List.take_succ_cons, List.flatten_cons]
  rfl

/-- Another element at the beginning belongs to the first line. -/
theorem firstLines_cons_of_ne (hx : x ≠ d) (n : ℕ) (xs : List α) :
    firstLines d (n + 1) (x :: xs) = x :: firstLines d (n + 1) xs := by
  rw [firstLines, firstLines, lines, if_neg hx]
  rcases lines d xs with _ | ⟨l, ls⟩ <;> simp

/-- Behind a delimiter at the beginning one line less is to be left out. -/
@[simp]
theorem restLines_cons_self (d : α) (n : ℕ) (xs : List α) :
    restLines d (n + 1) (d :: xs) = restLines d n xs := by
  rw [restLines, lines, if_pos rfl, List.drop_succ_cons]
  rfl

/-- Another element at the beginning is left out with the first line. -/
theorem restLines_cons_of_ne (hx : x ≠ d) (n : ℕ) (xs : List α) :
    restLines d (n + 1) (x :: xs) = restLines d (n + 1) xs := by
  rw [restLines, restLines, lines, if_neg hx]
  rcases lines d xs with _ | ⟨l, ls⟩ <;> simp

/-- The lines of the rest are those behind the first ones. -/
theorem lines_restLines (d : α) (n : ℕ) (xs : List α) :
    lines d (restLines d n xs) = (lines d xs).drop n := by
  induction xs generalizing n with
  | nil => simp [restLines, lines]
  | cons x xs ih =>
    rcases n with _ | n
    · simp
    rcases eq_or_ne x d with rfl | hx
    · rw [restLines_cons_self, ih, lines, if_pos rfl, List.drop_succ_cons]
    · rw [restLines_cons_of_ne hx, ih, lines, if_neg hx]
      rcases lines d xs with _ | ⟨l, ls⟩ <;> simp

/-- The first lines of a text are a beginning of it. -/
theorem take_length_firstLines (d : α) (n : ℕ) (xs : List α) :
    xs.take (firstLines d n xs).length = firstLines d n xs := by
  have htake : (firstLines d n xs ++ restLines d n xs).take (firstLines d n xs).length =
      firstLines d n xs := List.take_left
  rwa [firstLines_append_restLines] at htake

/-- The rest begins behind the first lines. -/
theorem drop_length_firstLines (d : α) (n : ℕ) (xs : List α) :
    xs.drop (firstLines d n xs).length = restLines d n xs := by
  have hdrop : (firstLines d n xs ++ restLines d n xs).drop (firstLines d n xs).length =
      restLines d n xs := List.drop_left
  rwa [firstLines_append_restLines] at hdrop

/-- A beginning with fewer delimiters than lines are wanted. -/
theorem firstLines_append (h : as.count d < n) (bs : List α) :
    firstLines d n (as ++ bs) = as ++ firstLines d (n - as.count d) bs := by
  induction as generalizing n with
  | nil => rfl
  | cons x as ih =>
    obtain ⟨n, rfl⟩ := Nat.exists_eq_succ_of_ne_zero (Nat.ne_zero_of_lt h)
    rcases eq_or_ne x d with rfl | hx
    · rw [List.count_cons_self] at h ⊢
      rw [List.cons_append, firstLines_cons_self, ih (by omega), Nat.succ_sub_succ, List.cons_append]
    · rw [List.count_cons_of_ne hx] at h ⊢
      rw [List.cons_append, firstLines_cons_of_ne hx, ih h, List.cons_append]

/-- A beginning with as many delimiters as lines are wanted. -/
theorem firstLines_append_of_le (h : n ≤ as.count d) (bs : List α) :
    firstLines d n (as ++ bs) = firstLines d n as := by
  induction as generalizing n with
  | nil =>
    obtain rfl : n = 0 := by simpa using h
    rfl
  | cons x as ih =>
    rcases n with _ | n
    · rfl
    rcases eq_or_ne x d with rfl | hx
    · rw [List.count_cons_self] at h
      rw [List.cons_append, firstLines_cons_self, firstLines_cons_self, ih (by omega)]
    · rw [List.count_cons_of_ne hx] at h
      rw [List.cons_append, firstLines_cons_of_ne hx, firstLines_cons_of_ne hx, ih h]

/-- What is behind the lines of such a text. -/
theorem restLines_append (h : as.count d < n) (bs : List α) :
    restLines d n (as ++ bs) = restLines d (n - as.count d) bs := by
  have hsplit := firstLines_append_restLines d n (as ++ bs)
  rw [firstLines_append h, List.append_assoc] at hsplit
  conv_rhs at hsplit => rw [← firstLines_append_restLines d (n - as.count d) bs]
  exact List.append_cancel_left (List.append_cancel_left hsplit)

/-- A text is its first lines if they are as many as it has. -/
theorem restLines_eq_nil : restLines d n xs = [] ↔ (lines d xs).length ≤ n := by
  rw [← lines_eq_nil, lines_restLines, List.drop_eq_nil_iff]

/-- Different numbers of lines left out leave different texts, unless they are all. -/
theorem restLines_ne {m : ℕ} (h : n < m) (hne : restLines d n xs ≠ []) :
    restLines d m xs ≠ restLines d n xs := by
  intro heq
  rw [ne_eq, restLines_eq_nil] at hne
  have hlen := congrArg (fun ys => (lines d ys).length) heq
  simp only [lines_restLines, List.length_drop] at hlen
  omega

/-- Where the ended lines of a text end, the text beginning at `p`. -/
def ends (d : α) : ℕ → List α → List ℕ
  | _, [] => []
  | p, x :: xs => if x = d then (p + 1) :: ends d (p + 1) xs else ends d (p + 1) xs

/-- There are as many ends as delimiters. -/
theorem length_ends (d : α) (p : ℕ) (xs : List α) : (ends d p xs).length = xs.count d := by
  induction xs generalizing p with
  | nil => rfl
  | cons x xs ih =>
    rw [ends]
    rcases eq_or_ne x d with rfl | hx
    · rw [if_pos rfl, List.length_cons, ih, List.count_cons_self]
    · rw [if_neg hx, ih, List.count_cons_of_ne hx]

/-- The end of a line is the end of the lines up to it. -/
theorem ends_getElem? (p : ℕ) (h : n < xs.count d) :
    (ends d p xs)[n]? = some (p + (firstLines d (n + 1) xs).length) := by
  induction xs generalizing p n with
  | nil => simp at h
  | cons x xs ih =>
    rw [ends]
    rcases eq_or_ne x d with rfl | hx
    · rw [List.count_cons_self] at h
      rw [if_pos rfl, firstLines_cons_self, List.length_cons]
      rcases n with _ | n
      · simp
      · rw [List.getElem?_cons_succ, ih _ (by omega), Nat.add_assoc, Nat.add_comm 1]
    · rw [List.count_cons_of_ne hx] at h
      rw [if_neg hx, firstLines_cons_of_ne hx, ih _ h, List.length_cons, Nat.add_assoc, Nat.add_comm 1]

/-- The first end is behind the beginning of the text, and the others are those of the text behind it.
-/
theorem ends_cons {p e : ℕ} {es : List ℕ} (hp : p ≤ xs.length) (h : ends d p (xs.drop p) = e :: es) :
    p < e ∧ e ≤ xs.length ∧ ends d e (xs.drop e) = es := by
  induction hk : xs.length - p generalizing p with
  | zero =>
    rw [List.drop_of_length_le (by omega)] at h
    cases h
  | succ k ih =>
    have hlt : p < xs.length := by omega
    rw [List.drop_eq_getElem_cons hlt, ends] at h
    split at h
    · obtain ⟨rfl, rfl⟩ := List.cons.inj h
      exact ⟨Nat.lt_succ_self p, hlt, rfl⟩
    · obtain ⟨hpe, hle, hes⟩ := ih hlt h (by omega)
      exact ⟨by omega, hle, hes⟩

/-! ## The last lines -/

/-- The last lines and what is before them make up the text. -/
theorem butLastLines_append_lastLines (d : α) (n : ℕ) (xs : List α) :
    butLastLines d n xs ++ lastLines d n xs = xs := by
  rw [butLastLines, lastLines, ← List.flatten_append, List.rdrop, List.rtake, List.take_append_drop,
    flatten_lines]

/-- The numbers of lines at the end that are different have different texts, if there are as many. -/
theorem lastLines_inj {m : ℕ} : lastLines d m xs = lastLines d n xs ↔
    min m (lines d xs).length = min n (lines d xs).length := by
  have hlen (k : ℕ) : (lines d (lastLines d k xs)).length = min k (lines d xs).length := by
    have hlines := lines_restLines d ((lines d xs).length - k) xs
    rw [lastLines, List.rtake, ← restLines, hlines, List.length_drop]
    omega
  refine ⟨?_, ?_⟩
  · intro h
    rw [← hlen, h, hlen]
  · intro h
    rw [lastLines, lastLines, List.rtake, List.rtake]
    congr 2
    omega

/-- What is before the last lines tells how many of them there are. -/
theorem butLastLines_inj {m : ℕ} : butLastLines d m xs = butLastLines d n xs ↔
    min m (lines d xs).length = min n (lines d xs).length := by
  rw [← lastLines_inj]
  have hsplit : butLastLines d m xs ++ lastLines d m xs = butLastLines d n xs ++ lastLines d n xs :=
    (butLastLines_append_lastLines d m xs).trans (butLastLines_append_lastLines d n xs).symm
  refine ⟨?_, ?_⟩
  · intro h
    rw [h] at hsplit
    exact List.append_cancel_left hsplit
  · intro h
    rw [h] at hsplit
    exact List.append_cancel_right hsplit

/-- A text of at most `n` lines. -/
theorem lastLines_eq_self (h : xs.count d + unended d xs ≤ n) : lastLines d n xs = xs := by
  rw [lastLines, List.rtake, length_lines, Nat.sub_eq_zero_of_le h, List.drop_zero, flatten_lines]

/-- What follows a delimiter ends as the text does. -/
theorem unended_drop (h : xs[p]? = some d) : unended d (xs.drop (p + 1)) = unended d xs := by
  rw [unended, unended]
  conv_rhs => rw [eq_take_cons_drop h, List.getLast?_append, List.getLast?_cons]
  rcases (xs.drop (p + 1)).getLast? with _ | y <;> simp

/-- The text behind a delimiter is the last lines, if there are as many in it. -/
theorem lastLines_eq_drop (h : xs[p]? = some d)
    (hn : (xs.drop (p + 1)).count d + unended d xs = n) : lastLines d n xs = xs.drop (p + 1) := by
  rw [← unended_drop h, ← length_lines] at hn
  have hlines := congrArg (lines d) (eq_take_cons_drop h)
  rw [lines_append] at hlines
  rw [lastLines, hlines, List.rtake, List.length_append, hn, Nat.add_sub_cancel, List.drop_left,
    flatten_lines]

/-- The text up to a delimiter is all but the last lines, if there are as many behind it. -/
theorem butLastLines_eq_take (h : xs[p]? = some d)
    (hn : (xs.drop (p + 1)).count d + unended d xs = n) : butLastLines d n xs = xs.take (p + 1) := by
  have happend := butLastLines_append_lastLines d n xs
  rw [lastLines_eq_drop h hn] at happend
  exact List.append_cancel_right (happend.trans (List.take_append_drop (p + 1) xs).symm)

/-- Nothing is before as many lines as there are. -/
theorem butLastLines_eq_nil (h : xs.count d + unended d xs ≤ n) : butLastLines d n xs = [] := by
  have happend := butLastLines_append_lastLines d n xs
  rw [lastLines_eq_self h] at happend
  simpa using happend

/-- The delimiters from a position on. -/
theorem count_drop (h : xs[p]? = some x) :
    (xs.drop p).count d = (xs.drop (p + 1)).count d + if x = d then 1 else 0 := by
  obtain ⟨hlt, rfl⟩ := List.getElem?_eq_some_iff.mp h
  rw [List.drop_eq_getElem_cons hlt, List.count_cons]
  simp

end Lib
