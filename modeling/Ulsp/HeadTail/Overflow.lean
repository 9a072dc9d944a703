import Ulsp.HeadTail.Calls
import Ulsp.HeadTail.TailLines

/-!
# The range of counts and positions

A count of `2 ^ 31` or more does not fit in the static `int num`, and a position of `2 ^ 31` or more
does not fit in the `int pos` of the functions that search backwards. Below that nothing overflows, so
that the calls are those of unbounded integers; `counts_exactly_iff` says for each function which
sizes it can handle. `elide_head_bytes` gives `tail_bytes` a negative count for a file that is too
short.
-/

namespace Ulsp

open Lib

namespace HeadTail

variable {d : UInt8} {text buf : List UInt8} {io : Io} {fuel V S : ℕ}

/-! ## Numerals -/

/-- The decimal numeral with the digits `ds`. -/
def numeral (ds : List (Fin 10)) : List Char := ds.map fun d => Char.ofNat ('0'.toNat + d.val)

/-- Its value. -/
def value (ds : List (Fin 10)) : ℕ := Nat.ofDigits 10 (ds.map Fin.val).reverse

/-- The argument of an option. -/
def Program.argument (program : Program) (elide : Bool) (ds : List (Fin 10)) : List Char :=
  if elide then program.sign :: numeral ds else numeral ds

/-- The digits follow each other in ASCII. -/
theorem toNat_digit (d : Fin 10) : (Char.ofNat ('0'.toNat + d)).toNat = '0'.toNat + d := by
  revert d
  decide

/-- No digit is the sign of a program. -/
theorem digit_ne_sign (program : Program) (d : Fin 10) :
    Char.ofNat ('0'.toNat + d) ≠ program.sign := by
  cases program <;> revert d <;> decide

/-- The value of a numeral with one more digit. -/
theorem value_append (ds : List (Fin 10)) (d : Fin 10) : value (ds ++ [d]) = value ds * 10 + d := by
  simp [value, Nat.ofDigits_cons]
  omega

/-- A numeral whose value fits in a `size_t` is read right. -/
theorem stringToInteger_numeral (ds : List (Fin 10)) (h : value ds < 2 ^ 64) :
    stringToInteger (numeral ds) = value ds := by
  induction ds using List.reverseRecOn with
  | nil => rfl
  | append_singleton ds d ih =>
    rw [value_append] at h
    have hread : stringToInteger (numeral ds) = _ := ih (by omega)
    rw [numeral, List.map_append, ← numeral, stringToInteger, List.foldl_append, ← stringToInteger,
      hread, value_append, List.map_singleton, List.foldl_cons, List.foldl_nil, toNat_digit]
    unfold toUInt64
    omega

/-- `main` takes from an argument whether to elide, and the value as an `int`. -/
theorem setNum_argument (program : Program) (elide : Bool) (ds : List (Fin 10))
    (h : value ds < 2 ^ 64) :
    program.setNum (program.argument elide ds) = (elide, toInt32 (value ds)) := by
  have hread := stringToInteger_numeral ds h
  cases elide
  · have hhead : (numeral ds).head? ≠ some program.sign := by
      rcases ds with _ | ⟨d, ds⟩
      · exact nofun
      · exact fun heq => digit_ne_sign program d (Option.some.inj heq)
    simp [Program.setNum, Program.argument, hhead, hread]
  · simp [Program.setNum, Program.argument, hread]

/-! ## Counts and calls -/

/-- The count that a function works with, of the static `num`. -/
def Selected.count (A : Arith) : Selected → ℤ → ℤ
  | .headBytes, num | .tailLines, num | .elideHeadLines, num => A.toSize num
  | _, num => num

/-- The calls of `lseek` and `copy_fd` by `tail_bytes`, `tail_lines`, `elide_tail_bytes_file` and
`elide_tail_lines_file`. -/
def Selected.calls (A : Arith) (selected : Selected) (num : ℤ) (d : UInt8) (io : Io) (fuel : ℕ) :
    List Call :=
  let size := io.fd.contents.length
  match selected with
  | .tailLines => (A.tailLines num d (A.toInt size) io fuel).1
  | .tailBytes => (A.tailBytes num size io fuel).1
  | .elideHeadBytes => (A.elideHeadBytes num size io fuel).1
  | .elideTailLinesFile => (A.elideTailLinesFile num d io fuel).1
  | .elideTailBytesFile => (A.elideTailBytesFile num io fuel).1
  | .headLines | .headBytes | .elideHeadLines => []

/-- The calls are those of unbounded integers, for every delimiter and whatever the reads return. -/
def SameCalls (selected : Selected) (num : ℤ) (V : ℕ) (d : UInt8) (text : List UInt8) : Prop :=
  ∀ reads out fuel, selected.calls .machine num d (.start text reads out) fuel =
    selected.calls .unbounded V d (.start text reads out) fuel

/-- The function that is selected works with the count `V`, and no position or byte count overflows. -/
def CountsExactly (program : Program) (option : CountOption) (optarg : List Char) (V : ℕ) (d : UInt8)
    (text : List UInt8) : Prop :=
  let (elide, num) := program.setNum optarg
  let selected := program.select option elide
  selected.count .machine num = V ∧ SameCalls selected num V d text

/-- A function works with `num` itself or with `num` as a `size_t`. -/
theorem count_cases (selected : Selected) (num : ℤ) :
    selected.count .machine num = num ∨ selected.count .machine num = toUInt64 num := by
  cases selected
  case headBytes | tailLines | elideHeadLines => exact .inr rfl
  all_goals exact .inl rfl

/-- A count is the value of its numeral if that fits in an `int`. -/
theorem count_eq_iff (selected : Selected) (hV : V < 2 ^ 63) :
    selected.count .machine (toInt32 V) = V ↔ V < 2 ^ 31 := by
  obtain ⟨hge, hlt, k, hk⟩ := toInt32_cases V
  rcases count_cases selected (toInt32 V) with hcount | hcount
  · rw [hcount]
    omega
  · rw [hcount]
    unfold toUInt64
    omega

/-! ## Bytes -/

/-- `copy_fd` is one call. -/
theorem copyFd_fst (A : Arith) (nBytes : ℤ) (io : Io) (fuel : ℕ) :
    (A.copyFd nBytes io fuel).1 = [.copyFd (A.toSize nBytes)] := rfl

/-- The calls of `tail_bytes` do not depend on what is read. -/
theorem tailBytes_fst (A : Arith) (num : ℤ) (size : ℕ) (io : Io) (fuel : ℕ) :
    (A.tailBytes num size io fuel).1 =
      [.lseek (max 0 (A.toInt (size - num))), .copyFd (A.toSize num)] := by
  have hclamp : (if A.toInt (size - num) < 0 then 0 else A.toInt (size - num)) =
      max 0 (A.toInt (size - num)) := by split <;> omega
  obtain ⟨n, hn⟩ := Int.eq_ofNat_of_zero_le (Int.le_max_left 0 (A.toInt (size - num)))
  simp only [Arith.tailBytes, hclamp]
  rw [lseek_eq_some (hn ▸ Fd.seek_natCast n io.fd)]
  rfl

/-- The calls of `elide_tail_bytes_file` do not depend on what is read. -/
theorem elideTailBytesFile_fst (A : Arith) (num : ℤ) (io : Io) (fuel : ℕ) :
    (A.elideTailBytesFile num io fuel).1 = .lseek 0 :: .lseek 0 ::
      if 0 < A.toInt (io.fd.contents.length - num) then
        [.copyFd (A.toSize (A.toInt (io.fd.contents.length - num)))]
      else [] := by
  simp only [Arith.elideTailBytesFile]
  split <;> rfl

/-- A property of the calls that does not depend on the run. -/
theorem sameCalls_iff {selected : Selected} {p : Prop}
    (h : ∀ io : Io, io.fd.contents = text → ∀ fuel,
      (selected.calls .machine V d io fuel = selected.calls .unbounded V d io fuel ↔ p)) :
    SameCalls selected V V d text ↔ p :=
  ⟨fun hsame => (h (.start text [] []) rfl 0).mp (hsame [] [] 0), fun hp _ _ _ => (h _ rfl _).mpr hp⟩

/-- The position of `tail_bytes` is an `int`: the size less the count. -/
theorem sameCalls_tailBytes (hV : V < 2 ^ 31) (hS : text.length < 2 ^ 63) :
    SameCalls .tailBytes V V d text ↔ text.length < V + 2 ^ 31 := by
  refine sameCalls_iff ?_
  rintro io rfl fuel
  obtain ⟨hge, hlt, k, hk⟩ := toInt32_cases ((io.fd.contents.length : ℤ) - V)
  have hnum : toUInt64 (V : ℤ) = V := toUInt64_of_range (by omega)
  simp only [Selected.calls, tailBytes_fst, machine_toInt, machine_toSize, unbounded_toInt,
    unbounded_toSize, hnum, List.cons.injEq, Call.lseek.injEq, and_true]
  omega

/-- The count that `elide_head_bytes` passes on must be an `int` and no negative number, which becomes
a large `size_t`. -/
theorem sameCalls_elideHeadBytes (hV : V < 2 ^ 31) (hS : text.length < 2 ^ 63) :
    SameCalls .elideHeadBytes V V d text ↔ V ≤ text.length + 1 ∧ text.length + 1 < V + 2 ^ 31 := by
  refine sameCalls_iff ?_
  rintro io rfl fuel
  obtain ⟨hge, hlt, k, hk⟩ := toInt32_cases ((io.fd.contents.length : ℤ) - V + 1)
  simp only [Selected.calls, Arith.elideHeadBytes, tailBytes_fst, machine_toInt, machine_toSize,
    unbounded_toInt, unbounded_toSize, List.cons.injEq, Call.lseek.injEq, Call.copyFd.injEq, and_true]
  generalize toInt32 ((io.fd.contents.length : ℤ) - V + 1) = num at hge hlt hk ⊢
  obtain ⟨hge', hlt', k', hk'⟩ := toInt32_cases ((io.fd.contents.length : ℤ) - num)
  unfold toUInt64
  omega

/-- The count of `elide_tail_bytes_file` is an `int`: the size less the count that is elided. -/
theorem sameCalls_elideTailBytesFile (hV : V < 2 ^ 31) (hS : text.length < 2 ^ 63) :
    SameCalls .elideTailBytesFile V V d text ↔ text.length < V + 2 ^ 31 := by
  refine sameCalls_iff ?_
  rintro io rfl fuel
  obtain ⟨hge, hlt, k, hk⟩ := toInt32_cases ((io.fd.contents.length : ℤ) - V)
  simp only [Selected.calls, elideTailBytesFile_fst, machine_toInt, machine_toSize, unbounded_toInt,
    unbounded_toSize, List.cons.injEq, true_and]
  generalize toInt32 ((io.fd.contents.length : ℤ) - V) = num at hge hlt hk ⊢
  by_cases hnum : 0 < num
  · by_cases hleft : (0 : ℤ) < io.fd.contents.length - V
    · rw [if_pos hnum, if_pos hleft, List.cons.injEq, Call.copyFd.injEq, and_iff_left rfl]
      unfold toUInt64
      omega
    · omega
  · by_cases hleft : (0 : ℤ) < io.fd.contents.length - V
    · rw [if_neg hnum, if_pos hleft]
      exact iff_of_false nofun (by omega)
    · rw [if_neg hnum, if_neg hleft]
      exact iff_of_true rfl (by omega)

/-! ## The loops -/

/-- What a `read` returns is in the file. -/
theorem read_bounds {fd fd' : Fd} {count : ℕ} {bytes : List UInt8}
    (h : fd.read count = (some bytes, fd')) :
    bytes.length ≤ fd.contents.length - fd.offset ∧ fd'.contents = fd.contents := by
  have htake (n : ℕ) : (fd.rest.take n).length ≤ fd.contents.length - fd.offset := by
    rw [List.length_take, Fd.rest, List.length_drop]
    omega
  obtain ⟨contents, offset, reads⟩ := fd
  rcases reads with _ | ⟨_ | k, reads⟩
  · obtain ⟨rfl, rfl⟩ := (Prod.mk.inj h).imp_left Option.some.inj
    exact ⟨htake count, rfl⟩
  · cases (Prod.mk.inj h).1
  · obtain ⟨rfl, rfl⟩ := (Prod.mk.inj h).imp_left Option.some.inj
    exact ⟨htake (min count (max 1 k)), rfl⟩

/-- `memrchr` finds a byte before the end that it is given. -/
theorem memrchr_lt {n i : ℕ} (h : memrchr d buf n = some i) : i < n := by
  induction n with
  | zero => cases h
  | succ n ih =>
    rw [memrchr] at h
    split at h
    · obtain rfl := Option.some.inj h
      exact Nat.lt_succ_self _
    · exact (ih h).trans (Nat.lt_succ_self n)

/-- The scan of a block ends, in the block. -/
theorem scanBlock_ends {n : ℕ} (h : n < fuel) (m : ℕ) :
    (∃ i < n, scanBlock d buf fuel n m = some (.inl i)) ∨
      ∃ m', scanBlock d buf fuel n m = some (.inr m') := by
  induction fuel generalizing n m with
  | zero => exact absurd h (Nat.not_lt_zero n)
  | succ fuel ih =>
    rw [scanBlock]
    by_cases hn : n = 0
    · exact .inr ⟨m, if_pos hn⟩
    rw [if_neg hn]
    rcases hscan : memrchr d buf n with _ | i
    · exact .inr ⟨m, rfl⟩
    have hi := memrchr_lt hscan
    by_cases hm : m = 0
    · exact .inl ⟨i, hi, if_pos hm⟩
    simp only [if_neg hm]
    rcases @ih i (by omega) (m - 1) with ⟨j, hj, hend⟩ | hend
    · exact .inl ⟨j, hj.trans hi, hend⟩
    · exact .inr hend

/-- An `lseek` fails, or what follows it begins at a position that is not negative. -/
theorem lseek_cases (pos : ℤ) (io : Io) :
    (pos < 0 ∧ ∀ next, io.lseek pos next = ([.lseek pos], some (io, false))) ∨
    ∃ p : ℕ, pos = p ∧ ∀ next,
      io.lseek pos next = (Call.lseek pos).before (next ⟨{ io.fd with offset := p }, io.stdout⟩) := by
  rcases lt_or_ge pos 0 with hneg | hnonneg
  · have hseek : io.fd.seek pos = none := if_neg (by omega)
    exact .inl ⟨hneg, fun _ => lseek_eq_none hseek⟩
  · obtain ⟨p, rfl⟩ := Int.eq_ofNat_of_zero_le hnonneg
    exact .inr ⟨p, rfl, fun _ => lseek_eq_some (Fd.seek_natCast p io.fd)⟩

/-- Two computations after an `lseek` are compared at the position where it leaves the file. -/
theorem lseek_congr {next next' : Io → Traced (Io × Bool)} {pos : ℤ}
    (h : ∀ p : ℕ, pos = p → next ⟨{ io.fd with offset := p }, io.stdout⟩ =
      next' ⟨{ io.fd with offset := p }, io.stdout⟩) : io.lseek pos next = io.lseek pos next' := by
  rcases lseek_cases pos io with ⟨-, hfail⟩ | ⟨p, hp, hnext⟩
  · rw [hfail, hfail]
  · rw [hnext, hnext, h p hp]

/-- A `copy_fd` after an `lseek` is one from a position that is not negative. -/
theorem copyFd_mem_lseek {next : Io → Traced (Io × Bool)} {pos n : ℤ} :
    .copyFd n ∈ (io.lseek pos next).1 ↔
      ∃ p : ℕ, pos = p ∧ .copyFd n ∈ (next ⟨{ io.fd with offset := p }, io.stdout⟩).1 := by
  rcases lseek_cases pos io with ⟨hneg, hfail⟩ | ⟨p, rfl, hnext⟩
  · rw [hfail]
    refine iff_of_false (by simp) ?_
    rintro ⟨p, rfl, -⟩
    omega
  · rw [hnext]
    simp [Call.before]

/-- Positions of a file of less than 2 GiB are exact. -/
theorem copyFrom_same {size pos : ℕ} (hle : pos ≤ size) (hsize : size < 2 ^ 31) (io : Io) (fuel : ℕ) :
    Arith.machine.copyFrom size pos io fuel = Arith.unbounded.copyFrom size pos io fuel := by
  have hadd : addInt size (-(pos : ℤ)) = some (size + -(pos : ℤ)) :=
    addInt_of_range (by omega) (by omega)
  have hbytes : (toUInt64 ((size : ℤ) + -(pos : ℤ)) : ℤ) = size + -(pos : ℤ) := by
    unfold toUInt64
    omega
  simp only [Arith.copyFrom, Arith.copyFd, machine_add, unbounded_add, hadd, machine_toSize,
    unbounded_toSize, hbytes]

/-- In a file of less than 2 GiB the loop of `tail_lines` computes no position that does not fit: by
induction on the rounds, where a block ends at most at the end of the file. -/
theorem tailLoop_same {m pos : ℕ} (hS : S < 2 ^ 31) (hpos : pos + buf.length ≤ S)
    (hc : io.fd.contents.length = S) :
    Arith.machine.tailLoop d S fuel pos buf m io = Arith.unbounded.tailLoop d S fuel pos buf m io := by
  induction fuel generalizing pos buf m io with
  | zero => rfl
  | succ fuel ih =>
    rw [Arith.tailLoop, Arith.tailLoop]
    rcases scanBlock_ends (Nat.lt_succ_self buf.length) m with ⟨i, hi, hscan⟩ | ⟨m', hscan⟩
    · rw [hscan]
      have hconv : toInt32 ((pos : ℤ) + (i + 1)) = ((pos + (i + 1) : ℕ) : ℤ) :=
        toInt32_of_range (by omega) (by omega)
      simp only [machine_toInt, unbounded_toInt, hconv]
      exact copyFrom_same (by omega) hS io fuel
    rw [hscan]
    by_cases hzero : (pos : ℤ) = 0
    · simp only [if_pos hzero]
      exact copyFrom_same (by omega) hS io fuel
    have hsize : BUFSIZ = 8192 := rfl
    have hadd : addInt pos (-(BUFSIZ : ℤ)) = some (pos + -(BUFSIZ : ℤ)) :=
      addInt_of_range (by omega) (by omega)
    simp only [if_neg hzero, machine_add, unbounded_add, hadd]
    refine lseek_congr ?_
    intro p hp
    simp only
    rcases hread : Fd.read BUFSIZ { io.fd with offset := p } with ⟨_ | _ | ⟨b, bs⟩, fd'⟩
    · rfl
    · rfl
    · obtain ⟨hlen, hc'⟩ := read_bounds hread
      have hin : p + (b :: bs).length ≤ S := by
        simp only [hc] at hlen
        omega
      rw [hp]
      exact ih hin (hc' ▸ hc)

/-- What is left of `n_lines` is a count as well. -/
theorem scanTail_same {n : ℕ} {m : ℤ} (hm : 0 ≤ m) (hm' : m < 2 ^ 31) :
    Arith.machine.scanTail d buf fuel n m = Arith.unbounded.scanTail d buf fuel n m ∧
      ∀ m', Arith.unbounded.scanTail d buf fuel n m = some (.inr m') → 0 ≤ m' ∧ m' ≤ m := by
  induction fuel generalizing n m with
  | zero =>
    refine ⟨rfl, ?_⟩
    rintro m' ⟨⟩
  | succ fuel ih =>
    rw [Arith.scanTail, Arith.scanTail]
    by_cases hn : n = 0
    · rw [if_pos hn, if_pos hn]
      refine ⟨rfl, ?_⟩
      rintro m' ⟨⟩
      exact ⟨hm, le_rfl⟩
    rw [if_neg hn, if_neg hn]
    rcases memrchr d buf n with _ | i
    · refine ⟨rfl, ?_⟩
      rintro m' ⟨⟩
      exact ⟨hm, le_rfl⟩
    simp only
    by_cases hzero : m = 0
    · rw [if_pos hzero, if_pos hzero]
      refine ⟨rfl, ?_⟩
      rintro m' ⟨⟩
    have hadd : addInt m (-1) = some (m + -1) := addInt_of_range (by omega) (by omega)
    obtain ⟨hsame, hleft⟩ := @ih i (m + -1) (by omega) (by omega)
    rw [if_neg hzero, if_neg hzero, machine_add, unbounded_add, hadd, Option.bind_eq_bind,
      Option.bind_some, Option.bind_some]
    refine ⟨hsame, ?_⟩
    intro m' h
    obtain ⟨hge, hle⟩ := hleft m' h
    exact ⟨hge, by omega⟩

/-- In a file of less than 2 GiB the loop of `elide_tail_lines_file` computes no number that does not
fit. -/
theorem elideTailLoop_same {m : ℤ} {pos : ℕ} (hm : 0 ≤ m) (hm' : m < 2 ^ 31) (hpos : pos < 2 ^ 31) :
    Arith.machine.elideTailLoop d fuel pos buf m io =
      Arith.unbounded.elideTailLoop d fuel pos buf m io := by
  induction fuel generalizing pos buf m io with
  | zero => rfl
  | succ fuel ih =>
    obtain ⟨hsame, hleft⟩ := @scanTail_same d buf (buf.length + 1) buf.length m hm hm'
    rw [Arith.elideTailLoop, Arith.elideTailLoop, hsame]
    rcases hscan : Arith.unbounded.scanTail d buf (buf.length + 1) buf.length m with _ | i | m'
    · rfl
    · have hbytes : (toUInt64 (pos : ℤ) : ℤ) = pos := by rw [toUInt64_of_range (by omega)]
      simp only [Arith.copyFd, machine_toSize, unbounded_toSize, hbytes]
    obtain ⟨hge, hle⟩ := hleft m' hscan
    by_cases hzero : (pos : ℤ) = 0
    · simp only [if_pos hzero]
    have hsize : BUFSIZ = 8192 := rfl
    have hadd : addInt pos (-(BUFSIZ : ℤ)) = some (pos + -(BUFSIZ : ℤ)) :=
      addInt_of_range (by omega) (by omega)
    simp only [if_neg hzero, machine_add, unbounded_add, hadd]
    refine lseek_congr ?_
    intro p hp
    simp only
    rcases Fd.read BUFSIZ { io.fd with offset := p } with ⟨_ | _ | ⟨b, bs⟩, fd'⟩
    · rfl
    · rfl
    · rw [hp]
      exact ih hge (by omega) (by omega)

/-! ## Lines -/

/-- In a file of less than 2 GiB the calls of `tail_lines` are those of unbounded integers. -/
theorem tailLines_same (hV : V < 2 ^ 31) (hS : S < 2 ^ 31) (hc : io.fd.contents.length = S) :
    Arith.machine.tailLines V d S io fuel = Arith.unbounded.tailLines V d S io fuel := by
  have hnum : toUInt64 (V : ℤ) = V := toUInt64_of_range (by omega)
  simp only [Arith.tailLines, machine_toSize, unbounded_toSize, hnum, Int.toNat_natCast]
  by_cases hnone : (S : ℤ) = 0 ∨ V = 0
  · rw [if_pos hnone, if_pos hnone]
  rw [if_neg hnone, if_neg hnone]
  obtain ⟨k, b, hb, hsize, hsplit, hlast⟩ := exists_lastBlock (show 0 < S by omega)
  have hread : toUInt64 (b : ℤ) = b := toUInt64_of_range (by omega)
  have hconv : toInt32 ((S : ℤ) - b) = S - b := toInt32_of_range (by omega) (by omega)
  simp only [hlast, machine_toInt, unbounded_toInt, hread, hconv, Int.toNat_natCast]
  refine lseek_congr ?_
  intro p hp
  simp only
  rcases hbytes : Fd.read b { io.fd with offset := p } with ⟨_ | bytes, fd'⟩
  · rfl
  simp only
  split
  · rfl
  · obtain ⟨hlen, hc'⟩ := read_bounds hbytes
    simp only [hc] at hlen
    rw [hp]
    exact tailLoop_same hS (by omega) (hc' ▸ hc)

/-- A size that has become negative makes every byte count a huge one. -/
theorem copyFrom_negative {filesize pos n : ℤ} (hneg : filesize < 0)
    (h : .copyFd n ∈ (Arith.machine.copyFrom filesize pos io fuel).1) : 2 ^ 63 ≤ n := by
  obtain ⟨p, rfl, hmem⟩ := copyFd_mem_lseek.mp h
  rw [machine_add] at hmem
  rcases hadd : addInt filesize (-p) with _ | nBytes
  · rw [hadd] at hmem
    exact absurd hmem List.not_mem_nil
  · rw [hadd] at hmem
    obtain rfl := Call.copyFd.inj (List.mem_singleton.mp hmem)
    unfold addInt at hadd
    split at hadd
    · obtain rfl := Option.some.inj hadd
      rw [machine_toSize]
      unfold toUInt64
      omega
    · cases hadd

/-- With a negative size every byte count that the loop of `tail_lines` comes to is a huge one. -/
theorem tailLoop_negative {filesize pos n : ℤ} {m : ℕ} (hneg : filesize < 0)
    (h : .copyFd n ∈ (Arith.machine.tailLoop d filesize fuel pos buf m io).1) : 2 ^ 63 ≤ n := by
  induction fuel generalizing pos buf m io with
  | zero => exact absurd h List.not_mem_nil
  | succ fuel ih =>
    rw [Arith.tailLoop] at h
    rcases hscan : scanBlock d buf (buf.length + 1) buf.length m with _ | i | m'
    · rw [hscan] at h
      exact absurd h List.not_mem_nil
    · rw [hscan] at h
      exact copyFrom_negative hneg h
    rw [hscan] at h
    by_cases hzero : pos = 0
    · simp only [if_pos hzero] at h
      exact copyFrom_negative hneg h
    simp only [if_neg hzero, machine_add] at h
    rcases hadd : addInt pos (-BUFSIZ) with _ | back
    · rw [hadd] at h
      exact absurd h List.not_mem_nil
    rw [hadd] at h
    obtain ⟨p, -, hmem⟩ := copyFd_mem_lseek.mp h
    simp only at hmem
    rcases hread : Fd.read BUFSIZ { io.fd with offset := p } with ⟨_ | _ | ⟨b, bs⟩, fd'⟩
    · rw [hread] at hmem
      exact absurd hmem List.not_mem_nil
    · rw [hread] at hmem
      exact absurd hmem List.not_mem_nil
    · rw [hread] at hmem
      exact ih hmem

/-- With a negative size every byte count of `tail_lines` is a huge one. -/
theorem tailLines_negative {filesize num n : ℤ} (hneg : filesize < 0)
    (h : .copyFd n ∈ (Arith.machine.tailLines num d filesize io fuel).1) : 2 ^ 63 ≤ n := by
  simp only [Arith.tailLines] at h
  split at h
  · exact absurd h List.not_mem_nil
  obtain ⟨p, -, hmem⟩ := copyFd_mem_lseek.mp h
  simp only at hmem
  split at hmem
  · exact absurd hmem List.not_mem_nil
  split at hmem
  · exact absurd hmem List.not_mem_nil
  · exact tailLoop_negative hneg hmem

/-- With unbounded integers a run copies at most the file, where each `read` returns what it is asked
for. -/
theorem copyFrom_copies {pos : ℕ} : ∃ n : ℤ,
    .copyFd n ∈ (Arith.unbounded.copyFrom S pos io fuel).1 ∧ n ≤ S := by
  refine ⟨S + -(pos : ℤ), copyFd_mem_lseek.mpr ⟨pos, rfl, List.mem_singleton_self _⟩, by omega⟩

/-- The loop comes to that copy at the start of the file, if no block before ends the search: by
induction on the blocks before the position. -/
theorem tailLoop_copies {k m : ℕ} (hc : io.fd.contents.length = S) (hreads : io.fd.reads = [])
    (hpos : BUFSIZ * k ≤ S) : ∃ fuel, ∃ n : ℤ,
      .copyFd n ∈ (Arith.unbounded.tailLoop d S fuel (BUFSIZ * k : ℕ) buf m io).1 ∧ n ≤ S := by
  induction k generalizing buf m io with
  | zero =>
    refine ⟨1, ?_⟩
    rw [Arith.tailLoop]
    rcases scanBlock_ends (Nat.lt_succ_self buf.length) m with ⟨i, hi, hscan⟩ | ⟨m', hscan⟩
    · rw [hscan]
      exact @copyFrom_copies io 0 S (BUFSIZ * 0 + (i + 1))
    · rw [hscan]
      exact @copyFrom_copies io 0 S 0
  | succ k ih =>
    rcases scanBlock_ends (Nat.lt_succ_self buf.length) m with ⟨i, hi, hscan⟩ | ⟨m', hscan⟩
    · refine ⟨1, ?_⟩
      rw [Arith.tailLoop, hscan]
      exact @copyFrom_copies io 0 S (BUFSIZ * (k + 1) + (i + 1))
    -- the block before
    have hmul : BUFSIZ * (k + 1) = BUFSIZ * k + BUFSIZ := Nat.mul_succ BUFSIZ k
    have hsize := BUFSIZ_pos
    have hread := Fd.read_full { io.fd with offset := BUFSIZ * k } BUFSIZ hreads
    have hne : ({ io.fd with offset := BUFSIZ * k } : Fd).rest.take BUFSIZ ≠ [] := by
      refine List.ne_nil_of_length_pos ?_
      rw [List.length_take, Fd.rest, List.length_drop]
      show 0 < min BUFSIZ (io.fd.contents.length - BUFSIZ * k)
      omega
    obtain ⟨b, bs, hbytes⟩ := List.exists_cons_of_ne_nil hne
    rw [hbytes] at hread
    obtain ⟨fuel, n, hmem, hle⟩ := @ih (b :: bs)
      ⟨{ io.fd with offset := BUFSIZ * k + (b :: bs).length }, io.stdout⟩ m' hc hreads (by omega)
    refine ⟨fuel + 1, n, ?_, hle⟩
    have hback : ((BUFSIZ * (k + 1) : ℕ) : ℤ) + -(BUFSIZ : ℤ) = (BUFSIZ * k : ℕ) := by omega
    rw [Arith.tailLoop, hscan]
    simp only [if_neg (show ((BUFSIZ * (k + 1) : ℕ) : ℤ) ≠ 0 by omega), unbounded_add, hback]
    refine copyFd_mem_lseek.mpr ⟨_, rfl, ?_⟩
    simp only [hread]
    exact hmem

/-- `tail_lines` of a file that is not empty comes to that copy. -/
theorem tailLines_copies (hV : V ≠ 0) (hS : S ≠ 0) (hc : io.fd.contents.length = S)
    (hreads : io.fd.reads = []) : ∃ fuel, ∃ n : ℤ,
      .copyFd n ∈ (Arith.unbounded.tailLines V d S io fuel).1 ∧ n ≤ S := by
  obtain ⟨k, b, hb, hsize, hsplit, hlast⟩ := exists_lastBlock (Nat.pos_of_ne_zero hS)
  have hread := Fd.read_full { io.fd with offset := BUFSIZ * k } b hreads
  have hlen : (({ io.fd with offset := BUFSIZ * k } : Fd).rest.take b).length = b := by
    rw [List.length_take, Fd.rest, List.length_drop]
    show min b (io.fd.contents.length - BUFSIZ * k) = b
    omega
  generalize ({ io.fd with offset := BUFSIZ * k } : Fd).rest.take b = bytes at hread hlen
  obtain ⟨fuel, n, hmem, hle⟩ := @tailLoop_copies d bytes
    ⟨{ io.fd with offset := BUFSIZ * k + bytes.length }, io.stdout⟩ S k
    (if bytes.getLast? ≠ some 10 then V - 1 else V) hc hreads (by omega)
  refine ⟨fuel, n, ?_, hle⟩
  have hstart : (S : ℤ) - b = (BUFSIZ * k : ℕ) := by omega
  have hgo : ¬((S : ℤ) = 0 ∨ V = 0) := by omega
  have hfull : ¬(bytes = [] ∨ BUFSIZ < bytes.length) := by
    rw [not_or, ← ne_eq, ← List.length_pos_iff]
    omega
  simp only [Arith.tailLines, unbounded_toSize, unbounded_toInt, Int.toNat_natCast, hlast, hstart,
    if_neg hgo]
  refine copyFd_mem_lseek.mpr ⟨_, rfl, ?_⟩
  simp only [hread, if_neg hfull]
  exact hmem

/-! ## The functions that count lines -/

/-- An `lseek` is the first call of what begins with it. -/
theorem lseek_head (pos : ℤ) (next : Io → Traced (Io × Bool)) (io : Io) :
    (io.lseek pos next).1.head? = some (.lseek pos) := rfl

/-- The calls of `tail_lines`, with the size as an `int`. -/
theorem calls_tailLines (A : Arith) (num : ℤ) (io : Io) (fuel : ℕ) :
    Selected.tailLines.calls A num d io fuel =
      (A.tailLines num d (A.toInt io.fd.contents.length) io fuel).1 := rfl

/-- Without a size or a count `tail_lines` makes no calls. -/
theorem tailLines_no_calls (A : Arith) {num filesize : ℤ}
    (h : filesize = 0 ∨ (A.toSize num).toNat = 0) :
    (A.tailLines num d filesize io fuel).1 = [] := by
  simp only [Arith.tailLines, if_pos h]

/-- The first call of `tail_lines`. -/
theorem tailLines_head (A : Arith) {num filesize b : ℤ} (h : ¬(filesize = 0 ∨ (A.toSize num).toNat = 0))
    (hb : (if filesize.tmod BUFSIZ = 0 then (BUFSIZ : ℤ) else filesize.tmod BUFSIZ) = b) :
    (A.tailLines num d filesize io fuel).1.head? = some (.lseek (A.toInt (filesize - b))) := by
  simp only [Arith.tailLines, if_neg h, hb, lseek_head]

/-- A size of 2 GiB or more is negative as an `int`, so that too much is copied, or is so much smaller
that the first call goes elsewhere or is missing. -/
theorem tailLines_differ (hV0 : V ≠ 0) (hS : 2 ^ 31 ≤ text.length) (hS' : text.length < 2 ^ 63) :
    ∃ fuel, (Arith.machine.tailLines V d (toInt32 text.length) (.start text [] []) fuel).1 ≠
      (Arith.unbounded.tailLines V d text.length (.start text [] []) fuel).1 := by
  obtain ⟨hge, hlt, k, hk⟩ := toInt32_cases (text.length : ℤ)
  generalize toInt32 (text.length : ℤ) = filesize at hge hlt hk ⊢
  rcases lt_or_ge filesize 0 with hneg | hnonneg
  · obtain ⟨fuel, n, hmem, hle⟩ :=
      @tailLines_copies d (.start text [] []) V text.length hV0 (by omega) rfl rfl
    refine ⟨fuel, ?_⟩
    intro h
    rw [← h] at hmem
    have hcopied := tailLines_negative hneg hmem
    omega
  · refine ⟨0, ?_⟩
    intro h
    obtain ⟨_, b, hb, hsize, -, hlast⟩ := exists_lastBlock (show 0 < text.length by omega)
    have hsize' : BUFSIZ = 8192 := rfl
    have hhead := congrArg List.head? h
    rw [tailLines_head .unbounded (by rw [unbounded_toSize]; omega) hlast] at hhead
    by_cases hnone : filesize = 0 ∨ (Arith.machine.toSize V).toNat = 0
    · rw [tailLines_no_calls .machine hnone] at hhead
      cases hhead
    · rw [tailLines_head .machine hnone rfl, machine_toInt, unbounded_toInt] at hhead
      have hlow := (toInt32_cases (filesize -
        if filesize.tmod BUFSIZ = 0 then (BUFSIZ : ℤ) else filesize.tmod BUFSIZ)).2.1
      rw [Call.lseek.inj (Option.some.inj hhead)] at hlow
      omega

/-- `tail_lines` can handle files of less than 2 GiB, and a count of 0. -/
theorem sameCalls_tailLines (hV : V < 2 ^ 31) (hS : text.length < 2 ^ 63) :
    SameCalls .tailLines V V d text ↔ V = 0 ∨ text.length < 2 ^ 31 := by
  refine ⟨?_, ?_⟩
  · intro h
    by_contra hlarge
    obtain ⟨hV0, hS'⟩ := not_or.mp hlarge
    obtain ⟨fuel, hne⟩ := tailLines_differ (d := d) hV0 (Nat.le_of_not_lt hS') hS
    have hcalls := h [] [] fuel
    rw [calls_tailLines, calls_tailLines, machine_toInt, unbounded_toInt] at hcalls
    exact hne hcalls
  · intro h reads out fuel
    rw [calls_tailLines, calls_tailLines, machine_toInt, unbounded_toInt, Io.start_contents]
    rcases h with rfl | hS'
    · rw [tailLines_no_calls .machine (.inr (by simp [toUInt64])),
        tailLines_no_calls .unbounded (.inr (by simp))]
    · rw [toInt32_of_range (x := text.length) (by omega) (by omega), tailLines_same hV hS' rfl]

/-- The calls of `elide_tail_lines_file`. -/
theorem calls_elideTailLinesFile (A : Arith) (num : ℤ) (io : Io) (fuel : ℕ) :
    Selected.elideTailLinesFile.calls A num d io fuel = (A.elideTailLinesFile num d io fuel).1 := rfl

/-- With a count of 0, and in an empty file, it copies all there is. -/
theorem elideTailLinesFile_copy (A : Arith) {num : ℤ} (h : num = 0 ∨ io.fd.contents.length = 0) :
    (A.elideTailLinesFile num d io fuel).1 = [.copyFd (A.toSize io.fd.contents.length)] := by
  simp only [Arith.elideTailLinesFile, if_pos h, copyFd_fst]

/-- The first call of `elide_tail_lines_file`. -/
theorem elideTailLinesFile_head (A : Arith) {num : ℤ} (h : ¬(num = 0 ∨ io.fd.contents.length = 0)) :
    (A.elideTailLinesFile num d io fuel).1.head? = some (.lseek
      (A.toInt (A.toInt io.fd.contents.length - (io.fd.contents.length % BUFSIZ : ℕ)))) := by
  simp only [Arith.elideTailLinesFile, if_neg h]
  rfl

/-- In a file of less than 2 GiB the calls of `elide_tail_lines_file` are those of unbounded integers. -/
theorem elideTailLinesFile_same (hV : V < 2 ^ 31) (hS : io.fd.contents.length < 2 ^ 31)
    (h : ¬((V : ℤ) = 0 ∨ io.fd.contents.length = 0)) :
    Arith.machine.elideTailLinesFile V d io fuel = Arith.unbounded.elideTailLinesFile V d io fuel := by
  have hmod := Nat.mod_le io.fd.contents.length BUFSIZ
  obtain ⟨start, hstart⟩ := Nat.exists_eq_add_of_le hmod
  have hpos : toInt32 (toInt32 io.fd.contents.length - (io.fd.contents.length % BUFSIZ : ℕ)) =
      (io.fd.contents.length : ℤ) - (io.fd.contents.length % BUFSIZ : ℕ) := by
    rw [toInt32_of_range (x := io.fd.contents.length) (by omega) (by omega),
      toInt32_of_range (by omega) (by omega)]
  have hpos' : (io.fd.contents.length : ℤ) - (io.fd.contents.length % BUFSIZ : ℕ) = start := by omega
  have hadd : addInt V (-1) = some ((V : ℤ) + -1) := addInt_of_range (by omega) (by omega)
  simp only [Arith.elideTailLinesFile, if_neg h, machine_toInt, unbounded_toInt, machine_add,
    unbounded_add, hpos, hpos', hadd]
  rcases ((io.fd.seek start).getD io.fd).read (io.fd.contents.length % BUFSIZ) with ⟨_ | bytes, fd'⟩
  · rfl
  simp only
  split
  · rfl
  · next m hm =>
    have hm' : 0 ≤ m ∧ m < 2 ^ 31 := by
      split at hm <;> obtain rfl := Option.some.inj hm <;> omega
    rw [elideTailLoop_same hm'.1 hm'.2 (by omega)]

/-- `elide_tail_lines_file` can handle files of less than 2 GiB, and a count of 0. -/
theorem sameCalls_elideTailLinesFile (hV : V < 2 ^ 31) (hS : text.length < 2 ^ 63) :
    SameCalls .elideTailLinesFile V V d text ↔ V = 0 ∨ text.length < 2 ^ 31 := by
  refine ⟨?_, ?_⟩
  · intro h
    by_contra hlarge
    obtain ⟨hV0, hS'⟩ := not_or.mp hlarge
    have hgo : ¬((V : ℤ) = 0 ∨ (Io.start text [] []).fd.contents.length = 0) := by
      rw [Io.start_contents]
      omega
    have hhead := congrArg List.head? (h [] [] 0)
    rw [calls_elideTailLinesFile, calls_elideTailLinesFile] at hhead
    rw [elideTailLinesFile_head .machine hgo, elideTailLinesFile_head .unbounded hgo, machine_toInt,
      machine_toInt, unbounded_toInt, unbounded_toInt, Io.start_contents] at hhead
    have hlow := (toInt32_cases (toInt32 text.length - (text.length % BUFSIZ : ℕ))).2.1
    rw [Call.lseek.inj (Option.some.inj hhead)] at hlow
    -- `2 ^ 31` is a multiple of `BUFSIZ`
    have hmod : text.length % BUFSIZ = text.length % 8192 := rfl
    omega
  · intro h reads out fuel
    rw [calls_elideTailLinesFile, calls_elideTailLinesFile]
    by_cases hcopy : (V : ℤ) = 0 ∨ (Io.start text reads out).fd.contents.length = 0
    · rw [elideTailLinesFile_copy .machine hcopy, elideTailLinesFile_copy .unbounded hcopy,
        machine_toSize, unbounded_toSize, Io.start_contents, toUInt64_of_range (by omega)]
    · have hS' : text.length < 2 ^ 31 := h.resolve_left fun hV0 => hcopy (.inl (by omega))
      rw [elideTailLinesFile_same hV hS' hcopy]

/-! ## The range -/

/-- The counts below `2 ^ 31` and sizes for which a function computes no position or byte count that
does not fit. -/
def Selected.InRange : Selected → (count size : ℕ) → Prop
  | .tailLines, count, size | .elideTailLinesFile, count, size => count = 0 ∨ size < 2 ^ 31
  | .tailBytes, count, size | .elideTailBytesFile, count, size => size < count + 2 ^ 31
  | .elideHeadBytes, count, size => count ≤ size + 1 ∧ size + 1 < count + 2 ^ 31
  | .headLines, _, _ | .headBytes, _, _ | .elideHeadLines, _, _ => True

/-- Each function can handle the sizes in its range. -/
theorem sameCalls_inRange (selected : Selected) (hV : V < 2 ^ 31) (hS : text.length < 2 ^ 63) :
    SameCalls selected V V d text ↔ selected.InRange V text.length := by
  cases selected with
  | headLines | headBytes | elideHeadLines => exact iff_of_true (fun _ _ _ => rfl) trivial
  | tailLines => exact sameCalls_tailLines hV hS
  | tailBytes => exact sameCalls_tailBytes hV hS
  | elideHeadBytes => exact sameCalls_elideHeadBytes hV hS
  | elideTailLinesFile => exact sameCalls_elideTailLinesFile hV hS
  | elideTailBytesFile => exact sameCalls_elideTailBytesFile hV hS

/-- `-n` and `-c` of `head` and `tail`, with or without the sign, for every numeral whose value fits
in 63 bits and every file whose size does: the function that is selected works with the value, and its
positions and byte counts are those of unbounded integers in every run, if and only if the value is
less than `2 ^ 31` and the size is in its range. -/
theorem counts_exactly_iff (program : Program) (option : CountOption) (elide : Bool)
    (ds : List (Fin 10)) (d : UInt8) (text : List UInt8) (hV : value ds < 2 ^ 63)
    (hS : text.length < 2 ^ 63) :
    CountsExactly program option (program.argument elide ds) (value ds) d text ↔
      value ds < 2 ^ 31 ∧ (program.select option elide).InRange (value ds) text.length := by
  have harg := setNum_argument program elide ds (by omega)
  simp only [CountsExactly, harg, count_eq_iff _ hV]
  refine and_congr_right ?_
  intro hfits
  rw [toInt32_of_range (x := value ds) (by omega) (by omega)]
  exact sameCalls_inRange _ hfits hS

/-- `tail -c 3` of four bytes. -/
theorem counts_exactly_three : CountsExactly .tail .bytes ['3'] 3 10 [97, 98, 99, 10] :=
  (counts_exactly_iff .tail .bytes false [3] 10 [97, 98, 99, 10] (by decide) (by decide)).mpr
    ⟨by decide, show 4 < 3 + 2 ^ 31 by decide⟩

/-- `head -n 4294967297` works with the count 1. -/
theorem counts_exactly_wrapped :
    ¬CountsExactly .head .lines (Program.head.argument false [4, 2, 9, 4, 9, 6, 7, 2, 9, 7])
      4294967297 10 [] := by
  rintro ⟨h, -⟩
  exact absurd h (by decide)

end HeadTail

end Ulsp
