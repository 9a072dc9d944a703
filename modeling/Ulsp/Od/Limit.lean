import Ulsp.Od.Reads
import Ulsp.Od.Stream

/-!
# `od -N`

With `-N`, `od` reads as it would without, from files that are cut off where the limit is reached
(`mainWith_limit`): a `read` of at most what is left to the limit returns what a `read` of `BUFSIZ`
bytes returns of the shorter file. What is left of the limit at the end is what the
files were short of it, and the assertion of `main` says that they were not.
-/

namespace Ulsp

open Lib

namespace Od

/-- The variables with `-N`, of which `m` bytes are left. -/
def Globals.limit (m : ℤ) (g : Globals) : Globals := { g with Nflag := true, bytesToRead := m }

/-- A file cut off `m` bytes behind the first `s`. -/
def File.limit (s m : ℕ) (f : File) : File := { f with contents := f.contents.take (s + m) }

/-- Files cut off `m` bytes behind the first `s`. -/
def limitFiles : ℕ → ℕ → List File → List File
  | _, _, [] => []
  | s, m, f :: fs =>
    f.limit s m :: limitFiles (s - f.contents.length) (m - (f.contents.drop s).length) fs

variable {g g' : Globals} {m : ℤ} {rest : List UInt8} {reads : List (Option ℕ)}
  {k n s fuel i bufsiz width S M : ℕ} {f : File} {fs : List File} {ws : List UInt8} {odd : Option UInt8}

/-- What the files have of the limit. -/
theorem concat_limitFiles :
    (concat (limitFiles s n fs)).drop s = ((concat fs).drop s).take n := by
  induction fs generalizing s n with
  | nil => simp [concat, limitFiles]
  | cons f fs ih =>
    have hconcat : ∀ f fs, concat (f :: fs) = f.contents ++ concat fs :=
      fun _ _ => List.flatMap_cons
    have hlen : s - (f.limit s n).contents.length = s - f.contents.length := by
      simp only [File.limit, List.length_take]
      omega
    rw [limitFiles, hconcat, hconcat, List.drop_append, List.drop_append, hlen, ih,
      List.take_append]
    simp only [File.limit, List.drop_take, Nat.add_sub_cancel_left]

/-- The files that are cut off are no longer than they were. -/
theorem length_concat_limitFiles : (concat (limitFiles s n fs)).length ≤ (concat fs).length := by
  induction fs generalizing s n with
  | nil => exact le_rfl
  | cons f fs ih =>
    have hconcat : ∀ f fs, concat (f :: fs) = f.contents ++ concat fs :=
      fun _ _ => List.flatMap_cons
    rw [limitFiles, hconcat, hconcat, List.length_append, List.length_append]
    exact Nat.add_le_add (List.length_take_le' _ _) ih

/-- And they can be read as before. -/
theorem limitFiles_readable (h : ∀ f ∈ fs, f.Readable) : ∀ f ∈ limitFiles s n fs, f.Readable := by
  induction fs generalizing s n with
  | nil => exact nofun
  | cons f fs ih =>
    obtain ⟨hf, hfs⟩ := List.forall_mem_cons.mp h
    exact List.forall_mem_cons.mpr ⟨hf, ih hfs⟩

/-! ## Steps with and without the limit -/

/-- A limit does not change the width. -/
@[simp]
theorem limit_width : (g.limit m).width = g.width := rfl

/-- A limit does not change how many bytes have been read. -/
@[simp]
theorem limit_bytesHasRead : (g.limit m).bytesHasRead = g.bytesHasRead := rfl

/-- A limit does not change the address of the first byte. -/
@[simp]
theorem limit_lineNumStart : (g.limit m).lineNumStart = g.lineNumStart := rfl

/-- A limit does not change the bytes in `buf`. -/
@[simp]
theorem limit_buf : (g.limit m).buf = g.buf := rfl

/-- A limit does not change the number of bytes in `buf`. -/
@[simp]
theorem limit_len : (g.limit m).len = g.len := rfl

/-- A limit does not change what is printed. -/
theorem limit_print {text : List Char} : (g.limit m).print text = (g.print text).limit m := rfl

/-- An address does not depend on the limit. -/
theorem address_limit : (g.limit m).address = g.address.map (Globals.limit m) := by
  unfold Globals.address
  by_cases hw : g.width = 0
  · rw [if_pos hw, if_pos (show (g.limit m).width = 0 from hw), Option.map_none]
  rw [if_neg hw, if_neg (show ¬ (g.limit m).width = 0 from hw)]
  by_cases hrow : g.bytesHasRead.tmod g.width = 0
  · rw [if_pos hrow, if_pos (show (g.limit m).bytesHasRead.tmod (g.limit m).width = 0 from hrow)]
    simp only [limit_bytesHasRead, limit_lineNumStart]
    cases addInt g.bytesHasRead g.lineNumStart with
    | none => rfl
    | some addr =>
      by_cases hread : g.bytesHasRead = 0 <;> simp [hread, limit_print]
  · rw [if_neg hrow,
      if_neg (show ¬ (g.limit m).bytesHasRead.tmod (g.limit m).width = 0 from hrow), Option.map_some]

/-- A scan does not depend on the limit. -/
theorem scan_limit :
    scan fuel i (g.limit m) = (scan fuel i g).map fun r => (r.1, r.2.limit m) := by
  induction fuel generalizing i g with
  | zero => rfl
  | succ fuel ih =>
    simp only [scan, limit_len, address_limit]
    by_cases hlt : i < g.len - 1
    · simp only [if_pos hlt]
      cases g.address with
      | none => rfl
      | some g₁ =>
        simp only [Option.map_some, Option.bind_eq_bind, Option.bind_some, limit_print, limit_buf,
          limit_bytesHasRead]
        cases addInt (g₁.print (' ' :: octal 6 (short (g₁.buf i) (g₁.buf (i + 1))))).bytesHasRead 2 with
        | none => rfl
        | some c => exact ih (g := { g₁.print _ with bytesHasRead := c })
    · simp only [if_neg hlt, Option.map_some]

/-- Nor does what is left over by it. -/
theorem moveRest_limit : (g.limit m).moveRest i = (g.moveRest i).limit m := by
  unfold Globals.moveRest
  by_cases h : i = g.len - 1
  · rw [if_pos h, if_pos (show i = (g.limit m).len - 1 from h)]
    rfl
  · rw [if_neg h, if_neg (show ¬ i = (g.limit m).len - 1 from h)]
    rfl

/-- The last line does not depend on the limit. -/
theorem finish_limit : (g.limit m).finish = g.finish.map (Globals.limit m) := by
  have hlast : ∀ g : Globals, ((addInt (g.limit m).bytesHasRead (g.limit m).lineNumStart).bind
      fun addr => some ((g.limit m).print ('\n' :: octal 7 addr ++ ['\n']))) =
      ((addInt g.bytesHasRead g.lineNumStart).bind
        fun addr => some (g.print ('\n' :: octal 7 addr ++ ['\n']))).map (Globals.limit m) := by
    intro g
    simp only [limit_bytesHasRead, limit_lineNumStart]
    cases addInt g.bytesHasRead g.lineNumStart <;> rfl
  simp only [Globals.finish, limit_len, address_limit]
  by_cases hlen : g.len ≠ 0
  · simp only [if_pos hlen]
    cases g.address with
    | none => rfl
    | some g₁ =>
      simp only [Option.map_some, Option.bind_eq_bind, Option.bind_some, limit_print, limit_buf,
        limit_bytesHasRead]
      cases addInt (g₁.print (' ' :: octal 6 (char (g₁.buf 0)))).bytesHasRead 1 with
      | none => rfl
      | some c => exact hlast { g₁.print _ with bytesHasRead := c }
  · simp only [if_neg hlen]
    exact hlast g

/-! ## Reading -/

/-- A `read` of at most `n` bytes from a file, and one of `BUFSIZ` bytes from the file cut off. -/
theorem read_limit (rest : List UInt8) (hreads : none ∉ reads) (hn : 0 < n) : ∃ k reads',
    0 < k ∧ none ∉ reads' ∧
    OpenFile.read (min BUFSIZ n) ⟨rest, reads⟩ =
      (some (rest.take (min k n)), ⟨rest.drop (min k n), reads'⟩) ∧
    OpenFile.read BUFSIZ ⟨rest.take n, reads⟩ =
      (some (rest.take (min k n)), ⟨(rest.take n).drop k, reads'⟩) := by
  have hsize : 0 < BUFSIZ := by decide
  match reads with
  | [] =>
    refine ⟨BUFSIZ, [], hsize, nofun, rfl, ?_⟩
    simp only [OpenFile.read, List.take_take]
  | none :: _ => simp at hreads
  | some k :: reads =>
    have hk : min (min BUFSIZ n) (max 1 k) = min (min BUFSIZ (max 1 k)) n := by omega
    refine ⟨min BUFSIZ (max 1 k), reads, by omega, by simpa using hreads, ?_, ?_⟩
    · simp only [OpenFile.read, hk]
    · simp only [OpenFile.read, List.take_take]

/-- What a `read` is asked for when the limit leaves `n` bytes. -/
theorem count_limit : (g.limit (n : ℤ)).count = min BUFSIZ n := by
  have hsize : BUFSIZ = 8192 := rfl
  show ((min (BUFSIZ : ℤ) n) % 2 ^ 64).toNat = min BUFSIZ n
  omega

/-- The bytes that are stored are taken off the limit. -/
theorem store_limit {bytes : List UInt8} :
    (g.limit m).store bytes = (g.store bytes).map (Globals.limit (m - bytes.length)) := by
  unfold Globals.store
  by_cases hroom : g.len + bytes.length ≤ g.bufsiz
  · rw [if_pos hroom, if_pos (show (g.limit m).len + bytes.length ≤ (g.limit m).bufsiz from hroom)]
    rfl
  · rw [if_neg hroom,
      if_neg (show ¬ (g.limit m).len + bytes.length ≤ (g.limit m).bufsiz from hroom)]
    rfl

/-- When nothing is left to the limit, nothing is read. -/
theorem readLoop_done (file : OpenFile) :
    readLoop (fuel + 1) file (g.limit ((0 : ℕ) : ℤ)) = some (g.limit ((0 : ℕ) : ℤ), true) :=
  if_pos ⟨rfl, rfl⟩

/-- Of an empty file nothing is read. -/
theorem read_empty (hreads : none ∉ reads) :
    ∃ reads', OpenFile.read BUFSIZ ⟨[], reads⟩ = (some [], ⟨[], reads'⟩) := by
  match reads with
  | [] => exact ⟨[], by simp [OpenFile.read]⟩
  | none :: _ => simp at hreads
  | some k :: reads => exact ⟨reads, by simp [OpenFile.read]⟩

/-- Without a limit there is none after a `read` and its scan. -/
theorem moveRest_Nflag {bytes : List UInt8} {g₁ : Globals} (hN : g.Nflag = false)
    (hstore : g.store bytes = some g₁) (hscan : scan g₁.len 0 g₁ = some (i, g')) :
    (g'.moveRest i).Nflag = false := by
  obtain ⟨-, rfl⟩ := store_eq_some_iff.mp hstore
  obtain ⟨-, -, -, hflag, -, -⟩ := scan_keeps hscan (Nat.dvd_zero 2) (Nat.zero_le _)
  unfold Globals.moveRest
  split <;> exact hflag.trans hN

/-- What is left of the first `n` bytes when `k` of them at most have been taken. -/
theorem take_drop_min :
    (rest.drop (min k n)).take (n - min (min k n) rest.length) = (rest.take n).drop k := by
  rw [List.drop_take]
  rcases Nat.le_total k n with hkn | hkn
  · rw [Nat.min_eq_left hkn]
    rcases Nat.le_total k rest.length with hlong | hshort
    · rw [Nat.min_eq_left hlong]
    · rw [List.drop_of_length_le hshort, List.take_nil, List.take_nil]
  · have hnone : n - k = 0 := by omega
    rw [Nat.min_eq_right hkn, hnone, List.take_zero]
    refine List.take_eq_nil_iff.mpr ?_
    rw [List.drop_eq_nil_iff]
    omega

/-- The limit makes a file end where it is cut off. -/
theorem readLoop_limit (hN : g.Nflag = false) (hreads : none ∉ reads) (hfuel : rest.length < fuel) :
    readLoop fuel ⟨rest, reads⟩ (g.limit (n : ℤ)) = (readLoop fuel ⟨rest.take n, reads⟩ g).map
      fun r => (r.1.limit (n - (rest.take n).length : ℕ), r.2) := by
  induction fuel generalizing g rest reads n with
  | zero => omega
  | succ fuel ih =>
    have hgo : ¬ (g.Nflag = true ∧ g.bytesToRead = 0) := by simp [hN]
    have hcount : g.count = BUFSIZ := by simp [Globals.count, hN, BUFSIZ]
    rcases Nat.eq_zero_or_pos n with rfl | hn
    · obtain ⟨reads', hread⟩ := read_empty hreads
      rw [readLoop_done, List.take_zero, readLoop, if_neg hgo, hcount, hread]
      simp
    · have hgo' : ¬ ((g.limit (n : ℤ)).Nflag = true ∧ (g.limit (n : ℤ)).bytesToRead = 0) := by
        rintro ⟨-, hzero⟩
        exact absurd (Int.natCast_eq_zero.mp hzero) (by omega)
      obtain ⟨k, reads', hk, hreads', hread, hread'⟩ := read_limit rest hreads hn
      rw [readLoop, if_neg hgo', count_limit, hread, readLoop, if_neg hgo, hcount, hread']
      cases htake : rest.take (min k n) with
      | nil =>
        have hrest : rest = [] := (List.take_eq_nil_iff.mp htake).resolve_left (by omega)
        simp [hrest]
      | cons b bs =>
        have hbytes : (b :: bs).length = min (min k n) rest.length := by
          rw [← htake, List.length_take]
        have hpos : 0 < (b :: bs).length := Nat.succ_pos _
        have hleft : (n : ℤ) - (b :: bs).length = (n - (b :: bs).length : ℕ) := by omega
        simp only [store_limit, hleft]
        cases hstore : g.store (b :: bs) with
        | none => rfl
        | some g₀ =>
          simp only [Option.map_some, Option.bind_eq_bind, Option.bind_some, limit_len, scan_limit]
          cases hscan : scan g₀.len 0 g₀ with
          | none => rfl
          | some r =>
            obtain ⟨j, g₁⟩ := r
            have hmove : (g₁.moveRest j).Nflag = false := moveRest_Nflag hN hstore hscan
            have hcut : (rest.drop (min k n)).take (n - (b :: bs).length) = (rest.take n).drop k := by
              rw [hbytes, take_drop_min]
            have hshort : (rest.drop (min k n)).length < fuel := by
              rw [List.length_drop]
              omega
            have hrest := ih (n := n - (b :: bs).length) hmove hreads' hshort
            have hsum : n - (b :: bs).length - ((rest.take n).drop k).length =
                n - (rest.take n).length := by
              rw [List.length_drop, List.length_take]
              omega
            rw [hcut, hsum] at hrest
            simp only [Option.map_some, Option.bind_some, moveRest_limit]
            exact hrest

/-- `od` of a file of which nothing is skipped. -/
theorem od_read (hopens : f.opens = true) (hs : g.skipBytes = 0) :
    od fuel g f = readLoop fuel ⟨f.contents, f.reads⟩ g := by
  simp [od, hopens, hs]

/-- `od` of a file that is skipped as a whole. -/
theorem od_skip (hopens : f.opens = true) (hs : g.skipBytes = s) (hpos : 0 < s)
    (hle : f.contents.length ≤ s) :
    od fuel g f = some ({ g with skipBytes := (s - f.contents.length : ℕ) }, true) := by
  have hne : ((s : ℕ) : ℤ) ≠ 0 := by omega
  have hskip : (f.contents.length : ℤ) ≤ s := by omega
  have hleft : (s : ℤ) - f.contents.length = (s - f.contents.length : ℕ) := by omega
  simp only [od, hopens, hs, if_pos hne, if_pos hskip, hleft]
  rfl

/-- `od` of a file of which the beginning is skipped. -/
theorem od_seek (hopens : f.opens = true) (hs : g.skipBytes = s) (hpos : 0 < s)
    (hlt : s < f.contents.length) :
    od fuel g f = readLoop fuel ⟨f.contents.drop s, f.reads⟩ { g with skipBytes := 0 } := by
  have hne : ((s : ℕ) : ℤ) ≠ 0 := by omega
  have hskip : ¬ (f.contents.length : ℤ) ≤ s := by omega
  have hneg : ¬ ((s : ℕ) : ℤ) < 0 := by omega
  simp only [od, hopens, hs, if_pos hne, if_neg hskip, if_neg hneg, Int.toNat_natCast]
  rfl

/-- A file behind the bytes that are skipped. -/
theorem od_limit (hf : f.Readable) (hN : g.Nflag = false) (hs : g.skipBytes = s)
    (hfuel : f.contents.length < fuel) :
    od fuel (g.limit (n : ℤ)) f = (od fuel g (f.limit s n)).map
      fun r => (r.1.limit (n - (f.contents.drop s).length : ℕ), r.2) := by
  obtain ⟨hopens, hreads⟩ := hf
  have hopens' : (f.limit s n).opens = true := hopens
  have hskip : (g.limit (n : ℤ)).skipBytes = s := hs
  have hlen : (f.limit s n).contents.length = min (s + n) f.contents.length := List.length_take
  have hcut : ∀ k, n - ((f.contents.drop k).take n).length = n - (f.contents.drop k).length := by
    intro k
    rw [List.length_take]
    omega
  rcases Nat.eq_zero_or_pos s with rfl | hpos
  · rw [od_read hopens hskip, od_read hopens' hs, readLoop_limit hN hreads hfuel, ← hcut 0]
    simp only [File.limit, Nat.zero_add, List.drop_zero]
  rcases Nat.lt_or_ge s f.contents.length with hlt | hle
  · rw [od_seek hopens hskip hpos hlt, ← hcut s]
    rcases Nat.eq_zero_or_pos n with rfl | hn
    · -- the file ends where it is cut off, and there is nothing to read
      have hall : (f.limit s 0).contents.length ≤ s := by omega
      have hsame : s - (f.limit s 0).contents.length = 0 := by omega
      obtain ⟨fuel, rfl⟩ : ∃ m, fuel = m + 1 := ⟨fuel - 1, by omega⟩
      rw [od_skip hopens' hs hpos hall, hsame, hcut s, Nat.zero_sub]
      exact readLoop_done (g := { g with skipBytes := 0 }) _
    · rw [od_seek hopens' hs hpos (by omega)]
      have hdrop : (f.limit s n).contents.drop s = (f.contents.drop s).take n := by
        simp [File.limit, List.drop_take]
      rw [hdrop]
      refine readLoop_limit (g := { g with skipBytes := 0 }) hN hreads ?_
      rw [List.length_drop]
      omega
  · have hall : (f.limit s n).contents.length ≤ s := by omega
    have hsame : s - (f.limit s n).contents.length = s - f.contents.length := by omega
    rw [od_skip hopens hskip hpos hle, od_skip hopens' hs hpos hall, hsame,
      List.drop_of_length_le hle]
    rfl

/-! ## The program -/

/-- The files one after the other. -/
theorem files_limit (h : g.After bufsiz width S ws odd) (hfs : ∀ f ∈ fs, f.Readable)
    (hwidth : 0 < width)
    (hs : g.skipBytes = s) (hfuel : (concat fs).length < fuel) :
    files fuel (g.limit (n : ℤ)) fs = (files fuel g (limitFiles s n fs)).map
      fun r => (r.1.limit (n - ((concat fs).drop s).length : ℕ), r.2) := by
  induction fs generalizing g ws odd s n with
  | nil => simp [files, limitFiles, concat]
  | cons f fs ih =>
    obtain ⟨hf, hfs⟩ := List.forall_mem_cons.mp hfs
    have hconcat : concat (f :: fs) = f.contents ++ concat fs := List.flatMap_cons
    rw [hconcat, List.length_append] at hfuel
    have hlen : (f.limit s n).contents.length ≤ f.contents.length :=
      List.length_take_le' _ _
    have hends := od_ends (f := f.limit s n) h hf hwidth hs (fun hnot : False => hnot.elim)
      (show _ < fuel by omega)
    rw [files, limitFiles, files, od_limit hf h.set.Nflag hs (by omega)]
    cases hod : od fuel g (f.limit s n) with
    | none => rfl
    | some r =>
      obtain ⟨g₁, ok⟩ := r
      obtain ⟨-, hskip, -, ws', odd', hafter, -⟩ := hends.result _ hod
      have hs' : g₁.skipBytes = (s - f.contents.length : ℕ) := by
        rw [hskip]
        simp only [File.limit, List.length_take]
        omega
      have hrest := ih (n := n - (f.contents.drop s).length) hafter hfs hs' (by omega)
      have hsum : n - (f.contents.drop s).length - ((concat fs).drop (s - f.contents.length)).length =
          n - ((concat (f :: fs)).drop s).length := by
        rw [hconcat, List.drop_append, List.length_append]
        omega
      rw [hsum] at hrest
      simp only [Option.map_some, Option.bind_eq_bind, Option.bind_some, hrest]
      cases files fuel g₁ (limitFiles (s - f.contents.length) (n - (f.contents.drop s).length) fs) <;>
        rfl

/-- `od -N` dumps files that are cut off, and its assertion fails if they are short of the limit. -/
theorem mainWith_limit (hfs : ∀ f ∈ fs, f.Readable) (hwidth : 0 < width)
    (hfuel : (concat fs).length < fuel) :
    mainWith bufsiz ⟨some M, width, S⟩ fs fuel =
      if M ≤ ((concat fs).drop S).length then
        mainWith bufsiz ⟨none, width, S⟩ (limitFiles S M fs) fuel
      else none := by
  have hstart : (Options.start ⟨none, width, S⟩ bufsiz).After bufsiz width S [] none :=
    ⟨⟨rfl, rfl, rfl, rfl, rfl⟩, Nat.dvd_zero 2, rfl, rfl, rfl, rfl⟩
  have hlimit : Options.start ⟨some M, width, S⟩ bufsiz =
      (Options.start ⟨none, width, S⟩ bufsiz).limit M := rfl
  have hends := files_ends hstart (limitFiles_readable (s := S) (n := M) hfs) hwidth rfl
    (fun hnot : False => hnot.elim) (length_concat_limitFiles.trans_lt hfuel)
  rw [mainWith, mainWith, hlimit, files_limit hstart hfs hwidth rfl hfuel]
  cases hfiles : files fuel (Options.start ⟨none, width, S⟩ bufsiz) (limitFiles S M fs) with
  | none => split <;> rfl
  | some r =>
    obtain ⟨g, ok⟩ := r
    obtain ⟨-, -, ws, odd, hafter, -⟩ := hends.result _ hfiles
    simp only [Option.map_some, Option.bind_eq_bind, Option.bind_some]
    by_cases hle : M ≤ ((concat fs).drop S).length
    · have hzero : M - ((concat fs).drop S).length = 0 := by omega
      have hdone : (g.limit ((0 : ℕ) : ℤ)).bytesToRead = 0 := rfl
      rw [if_pos hle, hzero, if_pos hdone, if_pos hafter.set.bytesToRead, finish_limit]
      cases g.finish <;> rfl
    · have hmore : ¬ (g.limit ((M - ((concat fs).drop S).length : ℕ) : ℤ)).bytesToRead = 0 := by
        show ¬ ((M - ((concat fs).drop S).length : ℕ) : ℤ) = 0
        omega
      rw [if_neg hle, if_neg hmore]
      rfl

/-- `od -N M` dumps the first `M` bytes behind those that are skipped, and returns normally, and its
reads together return no more than these, for all files, if and only if there are `M` bytes, the
address behind them is an `int`, and no `read` of them returns `BUFSIZ` bytes behind an odd number of
bytes. -/
theorem dumps_first_iff (hfs : ∀ f ∈ fs, f.Readable) (hwidth : 0 < width) :
    (Returns (main ⟨some M, width, S⟩ fs) (dump width S (((concat fs).drop S).take M), true) ∧
      ∀ fuel, returned (filesCalls fuel (Options.start ⟨some M, width, S⟩ BUFSIZ) fs) ≤
        min M ((concat fs).drop S).length) ↔
      M ≤ ((concat fs).drop S).length ∧ S + M < 2 ^ 31 ∧
        Fit BUFSIZ 0 (sizes S (limitFiles S M fs)) := by
  have hfs' := limitFiles_readable (s := S) (n := M) hfs
  have hlen : ((concat (limitFiles S M fs)).drop S).length = min M ((concat fs).drop S).length := by
    rw [concat_limitFiles, List.length_take]
  constructor
  · rintro ⟨⟨k, hk⟩, -⟩
    have hrun := hk (max k ((concat fs).length + 1)) (Nat.le_max_left _ _)
    rw [main, mainWith_limit hfs hwidth (Nat.le_max_right _ _)] at hrun
    split at hrun
    · rename_i hle
      have hends : Ends (mainWith BUFSIZ ⟨none, width, S⟩ (limitFiles S M fs) _) _ _ :=
        mainWith_ends hfs' hwidth
          (length_concat_limitFiles.trans_lt (Nat.le_max_right k ((concat fs).length + 1)))
      obtain ⟨-, hlt, hfit⟩ := hends.result _ hrun
      rw [hlen, Nat.min_eq_left hle] at hlt
      exact ⟨hle, hlt, hfit⟩
    · cases hrun
  · rintro ⟨hle, hlt, hfit⟩
    refine ⟨?_, ?_⟩
    · obtain ⟨k, hk⟩ :=
        mainWith_returns hfs' hwidth (S := S) (by rwa [hlen, Nat.min_eq_left hle]) hfit
      refine ⟨max k ((concat fs).length + 1), ?_⟩
      intro fuel hfuel
      rw [main, mainWith_limit hfs hwidth (by omega), if_pos hle, hk fuel (by omega),
        concat_limitFiles]
    · intro fuel
      have hfollow := Follow.start ⟨some M, width, S⟩ fs fuel
      rw [← List.append_nil (filesCalls _ _ _)] at hfollow
      have htotal := hfollow.le rfl (Int.natCast_nonneg M)
      omega

/-- Three bytes of two files of two bytes, behind the first: the second file is read behind an odd
byte. -/
theorem dumps_first_two :
    Returns (main ⟨some 3, 16, 1⟩ [⟨true, [1, 2], []⟩, ⟨true, [3, 4], [some 1]⟩])
        (dump 16 1 [2, 3, 4], true) ∧
      ∀ fuel, returned (filesCalls fuel (Options.start ⟨some 3, 16, 1⟩ BUFSIZ)
        [⟨true, [1, 2], []⟩, ⟨true, [3, 4], [some 1]⟩]) ≤ min 3 3 :=
  (@dumps_first_iff 16 1 3 [⟨true, [1, 2], []⟩, ⟨true, [3, 4], [some 1]⟩]
    (by simp [File.Readable]) (by decide)).mpr ⟨by decide, by decide, by decide⟩

/-- With a file of one byte, `-N 2` ends in the failure of the assertion. -/
theorem limit_not_reached :
    ¬ Returns (main ⟨some 2, 16, 0⟩ [⟨true, [1], []⟩]) (dump 16 0 [1], true) := by
  rintro ⟨k, hk⟩
  have hrun := hk (k + 2) (by omega)
  exact nomatch (show none = some (dump 16 0 [1], true) from hrun)

end Od

end Ulsp
