import Ulsp.Od.Od

/-!
# The reads of `od`

`od` asks each `read` for `BUFSIZ` bytes, or for what is left to `-N`, and stores them at `buf + len`,
where `len` is 1 if a byte was left over. So a `read` may reach one byte beyond `buf` when the bytes
read so far, over all files, are odd in number (`reads_fit_iff`). A negative `-N` makes the number
asked for a huge one.
-/

namespace Ulsp

open Lib

namespace Od

/-- A call `read(fd, &buf[len], count)`, with its result. -/
structure ReadCall where
  len : ℕ
  count : ℕ
  result : Option (List UInt8)

/-- The call stays within `buf`. -/
def ReadCall.Fits (call : ReadCall) : Prop := call.len + call.count ≤ BUFSIZ

/-- How many bytes the call has returned. -/
def ReadCall.returned (call : ReadCall) : ℕ := (call.result.getD []).length

/-- How many bytes the calls have returned. -/
def returned (calls : List ReadCall) : ℕ := (calls.map ReadCall.returned).sum

/-- The calls of `readLoop`, which ends where it is undefined. -/
def readCalls : ℕ → OpenFile → Globals → List ReadCall
  | 0, _, _ => []
  | fuel + 1, file, g =>
    if g.Nflag ∧ g.bytesToRead = 0 then []
    else
      ⟨g.len, g.count, (file.read g.count).1⟩ ::
        match file.read g.count with
        | (none, _) => []
        | (some [], _) => []
        | (some bytes, file) =>
          match (g.store bytes).bind fun g => scan g.len 0 g with
          | none => []
          | some (i, g) => readCalls fuel file (g.moveRest i)

/-- The calls of `od`. -/
def odCalls (fuel : ℕ) (g : Globals) (f : File) : List ReadCall :=
  if !f.opens then []
  else if g.skipBytes ≠ 0 then
    if (f.contents.length : ℤ) ≤ g.skipBytes then []
    else
      let rest := if g.skipBytes < 0 then [] else f.contents.drop g.skipBytes.toNat
      readCalls fuel ⟨rest, f.reads⟩ { g with skipBytes := 0 }
  else readCalls fuel ⟨f.contents, f.reads⟩ g

/-- The calls of the loop of `main`, which ends where a call of `od` is undefined. -/
def filesCalls (fuel : ℕ) : Globals → List File → List ReadCall
  | _, [] => []
  | g, f :: fs =>
    odCalls fuel g f ++
      match od fuel g f with
      | none => []
      | some (g, _) => filesCalls fuel g fs

variable {opts : Options} {g g' : Globals} {calls calls' : List ReadCall} {total fuel i j : ℕ}

@[simp]
theorem returned_nil : returned [] = 0 := rfl

@[simp]
theorem returned_cons (call : ReadCall) (calls : List ReadCall) :
    returned (call :: calls) = call.returned + returned calls := rfl

/-! ## What the bytes read so far determine -/

/-- What a `read` is asked for when `total` bytes have been read. -/
def Options.count (opts : Options) (total : ℕ) : ℕ :=
  let bytesRead : ℤ := opts.bytesToRead.elim BUFSIZ fun N => min BUFSIZ (N - total)
  (bytesRead % 2 ^ 64).toNat

/-- `total` bytes have been read. -/
structure Globals.HasRead (g : Globals) (opts : Options) (total : ℕ) : Prop where
  Nflag : g.Nflag = opts.bytesToRead.isSome
  left : ∀ N ∈ opts.bytesToRead, g.bytesToRead = N - total
  len : g.len = total % 2

/-- The calls made when `total` bytes have been read before them. -/
def Follow (opts : Options) : ℕ → List ReadCall → Prop
  | _, [] => True
  | total, call :: calls =>
    (call.len = total % 2 ∧ call.count = opts.count total ∧ call.returned ≤ call.count) ∧
      Follow opts (total + call.returned) calls

theorem Follow.append (h : Follow opts total calls) (h' : Follow opts (total + returned calls) calls') :
    Follow opts total (calls ++ calls') := by
  induction calls generalizing total with
  | nil => exact h'
  | cons call calls ih => exact ⟨h.1, ih h.2 (by rwa [Nat.add_assoc, ← returned_cons])⟩

theorem Globals.HasRead.count (h : g.HasRead opts total) : g.count = opts.count total := by
  rw [Globals.count, Options.count, h.Nflag]
  rcases hN : opts.bytesToRead with _ | N
  · rfl
  · have hleft := h.left N hN
    simp [hleft]

/-- The store of a `read` stays within `buf`. -/
theorem store_eq_some_iff {bytes : List UInt8} : g.store bytes = some g' ↔
    g.len + bytes.length ≤ g.bufsiz ∧
      { g with
        bytesToRead := if g.Nflag then g.bytesToRead - bytes.length else g.bytesToRead
        buf := g.buf.store g.len bytes
        len := g.len + bytes.length } = g' := by
  rw [Globals.store]
  split
  · rename_i hle
    simp [hle]
  · rename_i hgt
    simp [hgt]

/-- An address that is printed changes the text only. -/
theorem address_print (h : g.address = some g') : ∃ text, g' = g.print text := by
  unfold Globals.address at h
  split at h
  · cases h
  split at h
  · obtain ⟨addr, -, hg'⟩ := Option.bind_eq_some_iff.mp h
    obtain rfl := Option.some.inj hg'
    split
    · exact ⟨_, rfl⟩
    · exact ⟨['\n'] ++ octal 7 addr, by simp [Globals.print]⟩
  · obtain rfl := Option.some.inj h
    exact ⟨[], by simp [Globals.print]⟩

/-- The scan leaves what decides the reads, and ends at the last byte or behind it. -/
theorem scan_keeps (h : scan fuel i g = some (j, g')) (hi : 2 ∣ i) (hlen : i ≤ g.len) :
    2 ∣ j ∧ g.len - 1 ≤ j ∧ j ≤ g.len ∧ g'.Nflag = g.Nflag ∧ g'.bytesToRead = g.bytesToRead ∧
      g'.len = g.len := by
  induction fuel generalizing i g with
  | zero => cases h
  | succ fuel ih =>
    rw [scan] at h
    split at h
    · rename_i hlt
      obtain ⟨g₁, haddr, h⟩ := Option.bind_eq_some_iff.mp h
      obtain ⟨text, rfl⟩ := address_print haddr
      obtain ⟨bytesHasRead, -, h⟩ := Option.bind_eq_some_iff.mp h
      have hrest := ih h (by omega) (show i + 2 ≤ g.len by omega)
      exact hrest
    · rename_i hge
      obtain ⟨rfl, rfl⟩ := Prod.mk.inj (Option.some.inj h)
      exact ⟨hi, by omega, hlen, rfl, rfl, rfl⟩

/-- A `read` returns no more than it is asked for. -/
theorem OpenFile.read_length {file file' : OpenFile} {count : ℕ} {bytes : List UInt8}
    (h : file.read count = (some bytes, file')) : bytes.length ≤ count := by
  obtain ⟨rest, reads⟩ := file
  match reads with
  | [] =>
    obtain rfl : rest.take count = bytes := Option.some.inj (congrArg Prod.fst h)
    exact List.length_take_le _ _
  | none :: _ => cases h
  | some k :: _ =>
    obtain rfl : rest.take (min count (max 1 k)) = bytes := Option.some.inj (congrArg Prod.fst h)
    exact (List.length_take_le _ _).trans (Nat.min_le_left _ _)

/-- What has been read, after a `read` and the scan of `buf`. -/
theorem Globals.HasRead.scanned (h : g.HasRead opts total) {b : UInt8} {bs : List UInt8}
    (hscan : ((g.store (b :: bs)).bind fun g => scan g.len 0 g) = some (i, g')) :
    (g'.moveRest i).HasRead opts (total + (b :: bs).length) := by
  obtain ⟨g₁, hstore, hscan⟩ := Option.bind_eq_some_iff.mp hscan
  obtain ⟨-, rfl⟩ := store_eq_some_iff.mp hstore
  obtain ⟨heven, hge, hle, hNflag, hleft, hlen⟩ := scan_keeps hscan (Nat.dvd_zero 2) (Nat.zero_le _)
  have hpos : 0 < (b :: bs).length := Nat.succ_pos _
  simp only [h.len] at hge hle hlen
  have hmove : (g'.moveRest i).Nflag = g'.Nflag ∧ (g'.moveRest i).bytesToRead = g'.bytesToRead := by
    unfold Globals.moveRest
    split <;> exact ⟨rfl, rfl⟩
  refine ⟨?_, ?_, ?_⟩
  · rw [hmove.1, hNflag]
    exact h.Nflag
  · intro N hN
    have hflag : g.Nflag = true := by rw [h.Nflag, hN]; rfl
    rw [hmove.2, hleft]
    simp only [if_pos hflag, h.left N hN]
    show N - total - (b :: bs).length = N - (total + (b :: bs).length : ℕ)
    omega
  · unfold Globals.moveRest
    by_cases hodd : i = g'.len - 1
    · rw [if_pos hodd]
      show 1 = (total + (b :: bs).length) % 2
      omega
    · rw [if_neg hodd]
      show 0 = (total + (b :: bs).length) % 2
      omega

/-! ## The calls -/

/-- The calls of `readLoop`, and what has been read when it returns. -/
theorem readCalls_follow (file : OpenFile) (h : g.HasRead opts total) :
    Follow opts total (readCalls fuel file g) ∧ ∀ g' ok, readLoop fuel file g = some (g', ok) →
      g'.HasRead opts (total + returned (readCalls fuel file g)) := by
  induction fuel generalizing total g file with
  | zero => exact ⟨trivial, nofun⟩
  | succ fuel ih =>
    rw [readCalls, readLoop]
    by_cases hdone : g.Nflag ∧ g.bytesToRead = 0
    · rw [if_pos hdone, if_pos hdone]
      refine ⟨trivial, ?_⟩
      intro g' ok hret
      obtain ⟨rfl, -⟩ := Prod.mk.inj (Option.some.inj hret)
      exact h
    rw [if_neg hdone, if_neg hdone]
    rcases hread : file.read g.count with ⟨_ | _ | ⟨b, bs⟩, file'⟩
    · refine ⟨⟨⟨h.len, h.count, Nat.zero_le _⟩, trivial⟩, ?_⟩
      intro g' ok hret
      obtain ⟨rfl, -⟩ := Prod.mk.inj (Option.some.inj hret)
      exact h
    · refine ⟨⟨⟨h.len, h.count, Nat.zero_le _⟩, trivial⟩, ?_⟩
      intro g' ok hret
      obtain ⟨rfl, -⟩ := Prod.mk.inj (Option.some.inj hret)
      exact h
    · have hcall : (b :: bs).length ≤ g.count := OpenFile.read_length hread
      simp only
      change _ ∧ ∀ g' ok, ((g.store (b :: bs)).bind fun g => (scan g.len 0 g).bind fun r =>
        readLoop fuel file' (r.2.moveRest r.1)) = some (g', ok) → _
      rw [← Option.bind_assoc]
      rcases hscan : (g.store (b :: bs)).bind fun g => scan g.len 0 g with _ | ⟨i, g₁⟩
      · exact ⟨⟨⟨h.len, h.count, hcall⟩, trivial⟩, fun g' ok hret => (by cases hret)⟩
      · obtain ⟨hfollow, hread'⟩ := ih file' (h.scanned hscan)
        refine ⟨⟨⟨h.len, h.count, hcall⟩, hfollow⟩, ?_⟩
        intro g' ok hret
        have hend := hread' g' ok hret
        rwa [Nat.add_assoc] at hend

/-- The calls of `od`, and what has been read when it returns. -/
theorem odCalls_follow (fuel : ℕ) (f : File) (h : g.HasRead opts total) :
    Follow opts total (odCalls fuel g f) ∧ ∀ g' ok, od fuel g f = some (g', ok) →
      g'.HasRead opts (total + returned (odCalls fuel g f)) := by
  have hskip (skipBytes : ℤ) : ({ g with skipBytes := skipBytes } : Globals).HasRead opts total :=
    ⟨h.Nflag, h.left, h.len⟩
  rw [odCalls, od]
  split
  · refine ⟨trivial, ?_⟩
    intro g' ok hret
    obtain ⟨rfl, -⟩ := Prod.mk.inj (Option.some.inj hret)
    exact h
  split
  · simp only
    split
    · refine ⟨trivial, ?_⟩
      intro g' ok hret
      obtain ⟨rfl, -⟩ := Prod.mk.inj (Option.some.inj hret)
      exact hskip _
    · exact readCalls_follow _ (hskip 0)
  · exact readCalls_follow _ h

/-- The calls over all the files. -/
theorem filesCalls_follow (fs : List File) (h : g.HasRead opts total) :
    Follow opts total (filesCalls fuel g fs) := by
  induction fs generalizing g total with
  | nil => trivial
  | cons f fs ih =>
    obtain ⟨hfollow, hread⟩ := odCalls_follow fuel f h
    rw [filesCalls]
    refine hfollow.append ?_
    rcases hod : od fuel g f with _ | ⟨g', ok⟩
    · trivial
    · exact ih (hread g' ok hod)

/-- The calls over all the files, from the beginning. -/
theorem Follow.start (opts : Options) (fs : List File) (fuel : ℕ) :
    Follow opts 0 (filesCalls fuel (opts.start BUFSIZ) fs) := by
  refine filesCalls_follow fs ⟨rfl, ?_, rfl⟩
  intro N hN
  rw [Options.start, hN, Option.getD_some, Nat.cast_zero, Int.sub_zero]

/-! ## Which calls stay within `buf` -/

/-- A `read` behind `total` bytes stays within `buf`: `-N` is not negative, and no byte is left over,
or less than `BUFSIZ` bytes are left to `-N`. -/
def Options.Fits (opts : Options) (total : ℕ) : Prop :=
  match opts.bytesToRead with
  | none => 2 ∣ total
  | some N => 0 ≤ N ∧ (2 ∣ total ∨ N - total < BUFSIZ)

theorem Options.count_of_le {N : ℤ} (hN : opts.bytesToRead = some N) (hle : total ≤ N) :
    (opts.count total : ℤ) = min (BUFSIZ : ℤ) (N - total) := by
  have hsize : BUFSIZ = 8192 := rfl
  rw [Options.count, hN]
  show (((min (BUFSIZ : ℤ) (N - total)) % 2 ^ 64).toNat : ℤ) = min (BUFSIZ : ℤ) (N - total)
  omega

/-- No more is read than `-N` says. -/
theorem Follow.le {N : ℤ} (hN : opts.bytesToRead = some N) (h : Follow opts total (calls ++ calls'))
    (hle : total ≤ N) : (total + returned calls : ℕ) ≤ N := by
  induction calls generalizing total with
  | nil => exact hle
  | cons first calls ih =>
    obtain ⟨⟨-, hcount, hret⟩, h⟩ := h
    have hmin := Options.count_of_le hN hle
    have hrest := ih h (by omega)
    rwa [Nat.add_assoc] at hrest

theorem Follow.of_append (h : Follow opts total (calls ++ calls')) :
    Follow opts (total + returned calls) calls' := by
  induction calls generalizing total with
  | nil => exact h
  | cons call calls ih =>
    have hrest := ih h.2
    rwa [Nat.add_assoc] at hrest

/-- A call behind `total` bytes, of which `-N` allows as many. -/
theorem fits_iff (htotal : ∀ N ∈ opts.bytesToRead, (total : ℤ) ≤ N) :
    total % 2 + opts.count total ≤ BUFSIZ ↔ opts.Fits total := by
  have hsize : BUFSIZ = 8192 := rfl
  rcases hN : opts.bytesToRead with _ | N
  · have hcount : opts.count total = BUFSIZ := by
      rw [Options.count, hN]
      rfl
    rw [hcount, Options.Fits, hN]
    show total % 2 + BUFSIZ ≤ BUFSIZ ↔ 2 ∣ total
    omega
  · have hle := htotal N hN
    have hcount := Options.count_of_le hN hle
    rw [Options.Fits, hN]
    show total % 2 + opts.count total ≤ BUFSIZ ↔ 0 ≤ N ∧ (2 ∣ total ∨ N - total < BUFSIZ)
    omega

/-- The first call does not fit for a negative `-N`. -/
theorem Follow.nonneg {N : ℤ} (h : Follow opts 0 calls) (hne : calls ≠ [])
    (hfits : ∀ call ∈ calls, call.Fits) (hN : opts.bytesToRead = some N) (hint : -2 ^ 31 ≤ N) :
    0 ≤ N := by
  obtain ⟨call, rest, rfl⟩ := List.exists_cons_of_ne_nil hne
  have hsize : BUFSIZ = 8192 := rfl
  have hcount := (Nat.le_add_left _ _).trans (hfits call List.mem_cons_self)
  rw [h.1.2.1, Options.count, hN] at hcount
  have hasked : ((min (BUFSIZ : ℤ) (N - (0 : ℕ))) % 2 ^ 64).toNat ≤ BUFSIZ := hcount
  omega

/-- A call in a sequence, when `-N` is not negative. -/
theorem Follow.fits_iff {call : ReadCall} (h : Follow opts 0 (calls ++ call :: calls'))
    (hpos : ∀ N ∈ opts.bytesToRead, 0 ≤ N) : call.Fits ↔ opts.Fits (returned calls) := by
  have hcall := h.of_append
  rw [Nat.zero_add] at hcall
  rw [ReadCall.Fits, hcall.1.1, hcall.1.2.1]
  refine Od.fits_iff ?_
  intro N hN
  have hle := h.le hN (hpos N hN)
  rwa [Nat.zero_add] at hle

/-- The reads of `od`, for all options and files and all results of the reads: each call stays within
`buf` if and only if, at each, `-N` is not negative and the bytes read so far, over all files, are
even in number or less than `BUFSIZ` bytes are left to `-N`. -/
theorem reads_fit_iff (opts : Options) (hint : ∀ N ∈ opts.bytesToRead, -2 ^ 31 ≤ N)
    (fs : List File) (fuel : ℕ) :
    (∀ call ∈ filesCalls fuel (opts.start BUFSIZ) fs, call.Fits) ↔
      ∀ before call behind, filesCalls fuel (opts.start BUFSIZ) fs = before ++ call :: behind →
        opts.Fits (returned before) := by
  have hfollow := Follow.start opts fs fuel
  generalize filesCalls fuel (opts.start BUFSIZ) fs = calls at hfollow
  refine ⟨?_, ?_⟩
  · rintro hfits before call behind rfl
    refine (hfollow.fits_iff ?_).mp (hfits call (List.mem_append_right _ List.mem_cons_self))
    intro N hN
    exact hfollow.nonneg (List.append_ne_nil_of_right_ne_nil _ (List.cons_ne_nil _ _)) hfits hN
      (hint N hN)
  · intro hcond call hmem
    obtain ⟨before, behind, rfl⟩ := List.append_of_mem hmem
    have hfits := hcond before call behind rfl
    refine (hfollow.fits_iff ?_).mpr hfits
    intro N hN
    rw [Options.Fits, hN] at hfits
    exact hfits.1

/-- Files of one byte and of two bytes, with `-N 3`: the second file is read behind an odd byte, but no
more than two bytes of it. -/
theorem reads_fit_two :
    (∀ call ∈ filesCalls 3 (Options.start ⟨some 3, 16, 0⟩ BUFSIZ)
        [⟨true, [1], []⟩, ⟨true, [2, 3], []⟩], call.Fits) ↔
      ∀ before call behind,
        filesCalls 3 (Options.start ⟨some 3, 16, 0⟩ BUFSIZ) [⟨true, [1], []⟩, ⟨true, [2, 3], []⟩] =
          before ++ call :: behind →
        Options.Fits ⟨some 3, 16, 0⟩ (returned before) :=
  reads_fit_iff ⟨some 3, 16, 0⟩ (by simp) [⟨true, [1], []⟩, ⟨true, [2, 3], []⟩] 3

/-- A file of one byte and one of `BUFSIZ` bytes: the first `read` of the second file stores a byte
behind `buf`. -/
theorem reads_fit_odd : ¬∀ call ∈ filesCalls 3 (Options.start ⟨none, 16, 0⟩ BUFSIZ)
    [⟨true, [65], []⟩, ⟨true, List.replicate BUFSIZ 66, []⟩], call.Fits := by
  intro h
  obtain ⟨g, hod, hlen, hcount, hNflag, hskip⟩ : ∃ g, od 3 (Options.start ⟨none, 16, 0⟩ BUFSIZ)
      ⟨true, [65], []⟩ = some (g, true) ∧ g.len = 1 ∧ g.count = BUFSIZ ∧ g.Nflag = false ∧
      g.skipBytes = 0 := ⟨_, rfl, rfl, rfl, rfl, rfl⟩
  have hread : (OpenFile.read BUFSIZ ⟨List.replicate BUFSIZ 66, []⟩).1 =
      some (List.replicate BUFSIZ 66) := by
    rw [OpenFile.read, List.take_replicate, Nat.min_self]
  have hcall : (⟨1, BUFSIZ, some (List.replicate BUFSIZ 66)⟩ : ReadCall) ∈
      filesCalls 3 g [⟨true, List.replicate BUFSIZ 66, []⟩] := by
    simp [filesCalls, odCalls, readCalls, hlen, hcount, hNflag, hskip, hread]
  have hfits := h _ (List.mem_append_right _ (by rw [hod]; exact hcall))
  exact absurd (show 1 + BUFSIZ ≤ BUFSIZ from hfits) (by decide)

end Od

end Ulsp
