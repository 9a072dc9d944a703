import Mathlib.Algebra.Group.Nat.Even
import Mathlib.Algebra.Order.Ring.Int
import Mathlib.Data.Int.DivMod
import Ulsp.Lib.Fuel
import Ulsp.Lib.Partial
import Ulsp.Od.Od

/-!
# `od` over files and reads

However the input is split over files and over the results of `read`, what `od` has done at the end
of a scan is a function of the bytes so far (`Globals.After`): it has printed their words, and holds
the last byte if there is one too many. So the output is that of the concatenated contents, the
`dump` of the bytes behind those that are skipped. What limits it is `bytes_has_read`, an `int`: the
address of the end has to be one too; and `buf`, which a `read` may not overrun (`Fit`): behind an odd
byte there is one byte less in it than a `read` is asked for.
-/

namespace Ulsp

open Lib

namespace Od

/-! ## The dump -/

/-- An address, in octal. -/
def addressText (n : ℕ) : List Char := List.leftpad 7 '0' (Nat.toDigits 8 n)

/-- What stands before the word that starts `k` bytes behind the first, which has address `S`. -/
def rowStart (width S k : ℕ) : List Char :=
  if width ∣ k then (if k = 0 then [] else ['\n']) ++ addressText (k + S) else []

/-- The words of the bytes from the `k`th on, as `od` prints a word. -/
def wordsText (width S : ℕ) : ℕ → List UInt8 → List Char
  | k, lo :: hi :: bs =>
    rowStart width S k ++ ' ' :: octal 6 (short lo hi) ++ wordsText width S (k + 2) bs
  | _, _ => []

/-- The byte that is left over behind `k` bytes. -/
def oddText (width S k : ℕ) : Option UInt8 → List Char
  | none => []
  | some b => rowStart width S k ++ ' ' :: octal 6 (char b)

/-- The dump of `bs`, with addresses from `S` on. -/
def dump (width S : ℕ) (bs : List UInt8) : List Char :=
  let even := bs.length / 2 * 2
  wordsText width S 0 bs ++ oddText width S even bs[even]? ++
    '\n' :: addressText (S + bs.length) ++ ['\n']

variable {bufsiz width S k T : ℕ} {as bs ws : List UInt8} {odd : Option UInt8} {g g' : Globals}

/-- The words of a sequence that is followed by another one. -/
theorem wordsText_append (hws : 2 ∣ ws.length) : wordsText width S k (ws ++ bs) =
    wordsText width S k ws ++ wordsText width S (k + ws.length) bs := by
  fun_induction wordsText width S k ws with
  | case1 k lo hi ws ih =>
    have hws' : 2 ∣ ws.length := by
      simp only [List.length_cons] at hws
      omega
    have hpos : k + (lo :: hi :: ws).length = k + 2 + ws.length := by
      simp only [List.length_cons]
      omega
    rw [hpos, List.cons_append, List.cons_append, wordsText, ih hws', List.append_assoc,
      List.append_assoc, List.append_assoc]
  | case2 ws k hshort =>
    match ws with
    | [] => simp
    | [a] => simp at hws
    | lo :: hi :: ws => exact absurd rfl (hshort lo hi ws)

/-- A byte at the end makes no word. -/
theorem wordsText_odd (hws : 2 ∣ ws.length) :
    wordsText width S k (ws ++ odd.toList) = wordsText width S k ws := by
  rw [wordsText_append hws]
  cases odd <;> simp [wordsText]

/-- The dump of words and a byte. -/
theorem dump_odd (hws : 2 ∣ ws.length) : dump width S (ws ++ odd.toList) =
    wordsText width S 0 ws ++ oddText width S ws.length odd ++
      '\n' :: addressText (S + (ws.length + odd.toList.length)) ++ ['\n'] := by
  have heven : (ws.length + odd.toList.length) / 2 * 2 = ws.length := by
    cases odd <;> simp <;> omega
  have hget : (ws ++ odd.toList)[ws.length]? = odd := by
    rw [List.getElem?_append_right le_rfl]
    cases odd <;> simp
  simp only [dump, List.length_append, heven, hget, wordsText_odd hws]

/-! ## A scan -/

/-- What does not change: there is no `-N`. -/
structure Globals.Set (g : Globals) (bufsiz width S : ℕ) : Prop where
  Nflag : g.Nflag = false
  bufsiz : g.bufsiz = bufsiz
  width : g.width = width
  bytesToRead : g.bytesToRead = 0
  lineNumStart : g.lineNumStart = S

/-- The words of `ws` are printed, and `buf` holds the byte that follows them, if there is one. -/
structure Globals.After (g : Globals) (bufsiz width S : ℕ) (ws : List UInt8) (odd : Option UInt8) :
    Prop where
  set : g.Set bufsiz width S
  even : 2 ∣ ws.length
  stdout : g.stdout = wordsText width S 0 ws
  bytesHasRead : g.bytesHasRead = ws.length
  len : g.len = odd.toList.length
  buf : g.buf.take odd.toList.length = odd.toList

/-- The scan of `bytes` is at `i`, behind the words of `ws`. -/
structure Globals.At (g : Globals) (bufsiz width S : ℕ) (ws bytes : List UInt8) (i : ℕ) :
    Prop where
  set : g.Set bufsiz width S
  even : 2 ∣ ws.length
  pos : 2 ∣ i
  le_len : i ≤ bytes.length
  stdout : g.stdout = wordsText width S 0 (ws ++ bytes.take i)
  bytesHasRead : g.bytesHasRead = ws.length + i
  len : g.len = bytes.length
  buf : g.buf.take bytes.length = bytes

variable {bytes : List UInt8} {i fuel : ℕ} {ok : Prop}

/-- An `int` addition ends if there is no overflow. -/
theorem addInt_ends {a b : ℤ} (h : ok → -2 ^ 31 ≤ a + b ∧ a + b < 2 ^ 31) :
    Ends (addInt a b) ok fun c => c = a + b ∧ c < 2 ^ 31 :=
  ⟨fun hok => ⟨_, addInt_of_range (h hok).1 (h hok).2⟩, fun _ hr => addInt_eq_some hr⟩

/-- An address in the range of `int` is printed as it is. -/
theorem octal_address {n : ℕ} (h : n < 2 ^ 31) : octal 7 n = addressText n := by
  have hn : toUInt32 (n : ℤ) = n := by
    unfold toUInt32
    omega
  rw [octal, hn, addressText]

/-- Before a word the address is printed at the beginning of a row. -/
theorem address_ends (hset : g.Set bufsiz width S) (hwidth : 0 < width) (hk : g.bytesHasRead = k)
    (hok : ok → k + S < 2 ^ 31) :
    Ends g.address ok fun g' => g' = g.print (rowStart width S k) := by
  obtain ⟨-, -, hw, -, hS⟩ := hset
  have hne : g.width ≠ 0 := by omega
  have hdvd : g.bytesHasRead.tmod g.width = 0 ↔ width ∣ k := by
    rw [hw, hk, ← Int.dvd_iff_tmod_eq_zero, Int.natCast_dvd_natCast]
  simp only [Globals.address, if_neg hne, hdvd, rowStart]
  split
  · refine (addInt_ends (a := g.bytesHasRead) (b := g.lineNumStart) ?_).bind fun addr haddr =>
      .pure ?_
    · intro h
      have := hok h
      omega
    · obtain ⟨rfl, hlt⟩ := haddr
      have haddr : g.bytesHasRead + g.lineNumStart = ((k + S : ℕ) : ℤ) := by omega
      rw [haddr, octal_address (by omega)]
      by_cases hzero : k = 0
      · simp [Globals.print, hzero, hk]
      · simp [Globals.print, hzero, hk]
  · exact .pure (by simp [Globals.print])

/-- Two bytes of `buf` are printed as a word. -/
theorem wordsText_take (hi : i + 1 < bytes.length) (hbuf : g.buf.take bytes.length = bytes)
    (heven : 2 ∣ ws.length) (hpos : 2 ∣ i) :
    wordsText width S 0 (ws ++ bytes.take i) ++ rowStart width S (ws.length + i) ++
        ' ' :: octal 6 (short (g.buf i) (g.buf (i + 1))) =
      wordsText width S 0 (ws ++ bytes.take (i + 2)) := by
  have hget : ∀ j (hj : j < bytes.length), bytes[j] = g.buf j := fun j hj => by
    have hj' : j < (g.buf.take bytes.length).length := by rwa [hbuf]
    rw [← Buffer.getElem_take hj']
    simp only [hbuf]
  have htake : bytes.take (i + 2) = bytes.take i ++ [g.buf i, g.buf (i + 1)] := by
    rw [List.take_add_one, List.take_add_one, List.getElem?_eq_getElem (by omega),
      List.getElem?_eq_getElem hi, hget, hget]
    simp
  have hlen : (ws ++ bytes.take i).length = ws.length + i := by
    rw [List.length_append, List.length_take]
    omega
  have hdvd : 2 ∣ (ws ++ bytes.take i).length := by omega
  rw [htake, ← List.append_assoc, wordsText_append hdvd, hlen, Nat.zero_add]
  simp only [wordsText, List.append_assoc, List.append_nil]

/-- The scan prints the words of the bytes, and stops at the last one or behind it. -/
theorem scan_ends (h : g.At bufsiz width S ws bytes i) (hwidth : 0 < width)
    (hok : ok → S + (ws.length + bytes.length) < 2 ^ 31) (hfuel : (bytes.length - i) / 2 < fuel) :
    Ends (scan fuel i g) ok fun r => r.2.At bufsiz width S ws bytes r.1 ∧ bytes.length ≤ r.1 + 1 ∧
      r.2.skipBytes = g.skipBytes := by
  induction fuel generalizing g i with
  | zero => omega
  | succ fuel ih =>
    obtain ⟨hset, heven, hpos, hle, hout, hread, hlen, hbuf⟩ := h
    simp only [scan, hlen]
    split
    · rename_i hlt
      have hk : g.bytesHasRead = ((ws.length + i : ℕ) : ℤ) := by omega
      refine (address_ends hset hwidth hk ?_).bind ?_
      · intro h
        have := hok h
        omega
      · rintro _ rfl
        refine (addInt_ends ?_).bind ?_
        · intro h
          have := hok h
          simp only [Globals.print]
          omega
        · rintro c ⟨rfl, -⟩
          refine ih ⟨⟨hset.Nflag, hset.bufsiz, hset.width, hset.bytesToRead, hset.lineNumStart⟩, heven,
            by omega, by omega, ?_, ?_, hlen, hbuf⟩ (by omega)
          · have hi : i + 1 < bytes.length := by omega
            simp only [Globals.print, hout]
            exact wordsText_take hi hbuf heven hpos
          · simp only [Globals.print]
            omega
    · exact .pure ⟨⟨hset, heven, hpos, hle, hout, hread, hlen, hbuf⟩, by dsimp only; omega, rfl⟩

/-- After a `read` that stays within `buf` the scan is at the first byte of `buf`. -/
theorem store_ends (h : g.After bufsiz width S ws odd)
    (hok : ok → odd.toList.length + bytes.length ≤ bufsiz) :
    Ends (g.store bytes) ok fun g' => g'.At bufsiz width S ws (odd.toList ++ bytes) 0 ∧
      g'.skipBytes = g.skipBytes ∧ odd.toList.length + bytes.length ≤ bufsiz := by
  obtain ⟨⟨hN, hsize, hwidth, hto, hS⟩, heven, hout, hread, hlen, hbuf⟩ := h
  rw [Globals.store, hlen]
  split
  · rename_i hle
    rw [hsize] at hle
    refine .pure ⟨⟨⟨hN, hsize, hwidth, by simp [hN, hto], hS⟩, heven, Nat.dvd_zero 2, Nat.zero_le _,
      by simpa using hout, by simpa using hread, ?_, ?_⟩, rfl, hle⟩
    · simp
    · rw [List.length_append, Buffer.take_store, hbuf]
  · rename_i hgt
    rw [hsize] at hgt
    exact ⟨fun h => absurd (hok h) hgt, fun _ hr => by cases hr⟩

/-- After a scan the byte that is left over is at the front of `buf`. -/
theorem Globals.At.moveRest (h : g.At bufsiz width S ws bytes i) (hne : bytes ≠ [])
    (hi : bytes.length ≤ i + 1) :
    ∃ ws' odd', (g.moveRest i).After bufsiz width S ws' odd' ∧
      ws' ++ odd'.toList = ws ++ bytes := by
  obtain ⟨⟨hN, hsize, hwidth, hto, hS⟩, heven, hpos, hle, hout, hread, hlen, hbuf⟩ := h
  have hnonempty := List.length_pos_iff.mpr hne
  have hlen' : (ws ++ bytes.take i).length = ws.length + i := by
    rw [List.length_append, List.length_take]
    omega
  rcases Nat.eq_or_lt_of_le hle with rfl | hlt
  · -- none is left over
    have hcond : ¬ bytes.length = g.len - 1 := by omega
    refine ⟨ws ++ bytes, none, ?_, by simp⟩
    rw [List.take_length] at hout hlen'
    rw [Globals.moveRest, if_neg hcond]
    exact ⟨⟨hN, hsize, hwidth, hto, hS⟩, by omega, hout, by dsimp only; omega, rfl, rfl⟩
  · have hcond : i = g.len - 1 := by omega
    have hlast : g.buf i = bytes[i] := by
      have hi' : i < (g.buf.take bytes.length).length := by rwa [hbuf]
      rw [← Buffer.getElem_take hi']
      simp only [hbuf]
    have htake : bytes.take i ++ [bytes[i]] = bytes := by
      have hsucc := List.take_add_one (l := bytes) (i := i)
      rw [List.take_of_length_le hi, List.getElem?_eq_getElem hlt] at hsucc
      exact hsucc.symm
    refine ⟨ws ++ bytes.take i, some bytes[i], ?_, ?_⟩
    · rw [Globals.moveRest, if_pos hcond]
      refine ⟨⟨hN, hsize, hwidth, hto, hS⟩, by omega, hout, by dsimp only; omega, rfl, ?_⟩
      simp [Buffer.take, hlast]
    · rw [List.append_assoc, Option.toList_some, htake]

/-! ## Files -/

/-- The file can be opened and read. -/
def File.Readable (f : File) : Prop := f.opens = true ∧ none ∉ f.reads

/-- A `read` that does not fail returns some of the bytes that are left, if there are any. -/
theorem OpenFile.read_spec {file : OpenFile} (hreads : none ∉ file.reads) : ∃ n reads,
    0 < n ∧ n ≤ BUFSIZ ∧ none ∉ reads ∧
      file.read BUFSIZ = (some (file.rest.take n), ⟨file.rest.drop n, reads⟩) := by
  rcases file with ⟨rest, _ | ⟨_ | k, reads⟩⟩
  · exact ⟨BUFSIZ, [], by decide, le_rfl, nofun, rfl⟩
  · simp at hreads
  · have hpos : 0 < min BUFSIZ (max 1 k) := by
      unfold BUFSIZ
      omega
    exact ⟨_, reads, hpos, Nat.min_le_left _ _, by simpa using hreads, rfl⟩

/-- The sizes of the results of the reads of a file, up to its end; `n` reads suffice. -/
def OpenFile.sizes : ℕ → OpenFile → List ℕ
  | 0, _ => []
  | n + 1, file =>
    match file.read BUFSIZ with
    | (some (b :: bs), file) => (b :: bs).length :: file.sizes n
    | _ => []

/-- The sizes of the results of the reads of all files, behind the first `s` bytes. -/
def sizes : ℕ → List File → List ℕ
  | _, [] => []
  | s, f :: fs => OpenFile.sizes f.contents.length ⟨f.contents.drop s, f.reads⟩ ++
      sizes (s - f.contents.length) fs

/-- Each result of the reads has room in `buf`, behind the odd byte of the bytes read before it, which
are `total` for the first. -/
def Fit (bufsiz : ℕ) : ℕ → List ℕ → Prop
  | _, [] => True
  | total, n :: ns => total % 2 + n ≤ bufsiz ∧ Fit bufsiz (total + n) ns

/-- Whether the reads fit can be computed. -/
instance Fit.decidable (bufsiz : ℕ) : ∀ total ns, Decidable (Fit bufsiz total ns)
  | _, [] => isTrue trivial
  | total, n :: ns => @instDecidableAnd _ _ _ (Fit.decidable bufsiz (total + n) ns)

/-- Reads after others fit if they do from the bytes held then. -/
theorem fit_append {total : ℕ} {ns ms : List ℕ} : Fit bufsiz total (ns ++ ms) ↔
    Fit bufsiz total ns ∧ Fit bufsiz (total + ns.sum) ms := by
  induction ns generalizing total with
  | nil => simp [Fit]
  | cons n ns ih => simp only [List.cons_append, Fit, ih, List.sum_cons, and_assoc, Nat.add_assoc]

/-- What is read of a file is all of it. -/
theorem OpenFile.sum_sizes {file : OpenFile} {n : ℕ} (hreads : none ∉ file.reads)
    (hn : file.rest.length ≤ n) : (file.sizes n).sum = file.rest.length := by
  induction n generalizing file with
  | zero => rw [sizes, List.sum_nil, Nat.le_zero.mp hn]
  | succ n ih =>
    obtain ⟨m, reads, hm, -, hreads', hread⟩ := OpenFile.read_spec hreads
    rw [sizes, hread]
    cases htake : file.rest.take m with
    | nil =>
      rw [(List.take_eq_nil_iff.mp htake).resolve_left hm.ne']
      rfl
    | cons b bs =>
      have hlen : (b :: bs).length + (file.rest.drop m).length = file.rest.length := by
        rw [← htake, ← List.length_append, List.take_append_drop]
      have hpos : 0 < (b :: bs).length := Nat.succ_pos _
      have hrest : (OpenFile.sizes n ⟨file.rest.drop m, reads⟩).sum = (file.rest.drop m).length :=
        ih hreads' (by dsimp only; omega)
      rw [List.sum_cons, hrest, hlen]

/-- A `read` returns no more than it is asked for. -/
theorem OpenFile.sizes_le (file : OpenFile) {n : ℕ} (hreads : none ∉ file.reads) :
    ∀ k ∈ file.sizes n, k ≤ BUFSIZ := by
  induction n generalizing file with
  | zero => exact fun k hk => absurd hk List.not_mem_nil
  | succ n ih =>
    obtain ⟨m, reads, -, hm, hreads', hread⟩ := OpenFile.read_spec hreads
    rw [sizes, hread]
    cases htake : file.rest.take m with
    | nil => exact fun k hk => absurd hk List.not_mem_nil
    | cons b bs =>
      refine List.forall_mem_cons.mpr ⟨?_, ih ⟨file.rest.drop m, reads⟩ hreads'⟩
      rw [← htake]
      exact (List.length_take_le _ _).trans hm

/-- In a buffer with room for one byte more than a `read` is asked for, every `read` has room. -/
theorem fit_of_lt {total : ℕ} {ns : List ℕ} (hsize : BUFSIZ < bufsiz) (hns : ∀ n ∈ ns, n ≤ BUFSIZ) :
    Fit bufsiz total ns := by
  induction ns generalizing total with
  | nil => trivial
  | cons n ns ih =>
    obtain ⟨hn, hns⟩ := List.forall_mem_cons.mp hns
    exact ⟨by omega, ih hns⟩

/-- At the end of a file nothing more is read. -/
theorem OpenFile.sizes_nil {reads : List (Option ℕ)} {n : ℕ} (hreads : none ∉ reads) :
    OpenFile.sizes n ⟨[], reads⟩ = [] := by
  cases n with
  | zero => rfl
  | succ n =>
    have hreads' : none ∉ (OpenFile.mk [] reads).reads := hreads
    obtain ⟨m, reads', -, -, -, hread⟩ := OpenFile.read_spec hreads'
    rw [sizes, hread, List.take_nil]

/-- No `read` of the files returns more than it is asked for. -/
theorem sizes_le {fs : List File} {s : ℕ} (hfs : ∀ f ∈ fs, f.Readable) :
    ∀ k ∈ sizes s fs, k ≤ BUFSIZ := by
  induction fs generalizing s with
  | nil => exact fun k hk => absurd hk List.not_mem_nil
  | cons f fs ih =>
    obtain ⟨hf, hfs⟩ := List.forall_mem_cons.mp hfs
    intro k hk
    rcases List.mem_append.mp hk with hk | hk
    · exact OpenFile.sizes_le ⟨f.contents.drop s, f.reads⟩ hf.2 k hk
    · exact ih hfs k hk

/-- Reading a file to its end prints the words that its bytes complete. -/
theorem readLoop_ends (file : OpenFile) {n : ℕ} (h : g.After bufsiz width S ws odd)
    (hreads : none ∉ file.reads) (hwidth : 0 < width) (hn : file.rest.length ≤ n)
    (hok : ok → S + (ws.length + odd.toList.length + file.rest.length) < 2 ^ 31 ∧
      Fit bufsiz (ws.length + odd.toList.length) (file.sizes n))
    (hfuel : file.rest.length < fuel) :
    Ends (readLoop fuel file g) ok fun r => r.2 = true ∧ r.1.skipBytes = g.skipBytes ∧
      Fit bufsiz (ws.length + odd.toList.length) (file.sizes n) ∧
      ∃ ws' odd', r.1.After bufsiz width S ws' odd' ∧
        ws' ++ odd'.toList = ws ++ (odd.toList ++ file.rest) := by
  induction fuel generalizing g ws odd file n with
  | zero => omega
  | succ fuel ih =>
    have hcount : g.count = BUFSIZ := by simp [Globals.count, h.set.Nflag, BUFSIZ]
    have hgo : ¬ (g.Nflag = true ∧ g.bytesToRead = 0) := by simp [h.set.Nflag]
    obtain ⟨m, reads, hm, -, hreads', hread⟩ := OpenFile.read_spec hreads
    rw [readLoop, if_neg hgo, hcount, hread]
    cases htake : file.rest.take m with
    | nil =>
      have hnil : file.rest = [] := (List.take_eq_nil_iff.mp htake).resolve_left hm.ne'
      have hsizes : file.sizes n = [] := by
        rw [show file = ⟨[], file.reads⟩ by rw [← hnil], OpenFile.sizes_nil hreads]
      exact .pure ⟨rfl, rfl, by rw [hsizes]; trivial, ws, odd, h, by simp [hnil]⟩
    | cons b bs =>
      have hrest : file.rest = (b :: bs) ++ file.rest.drop m := by
        rw [← htake, List.take_append_drop]
      have hlen : file.rest.length = (b :: bs).length + (file.rest.drop m).length := by
        rw [← List.length_append, ← hrest]
      have hbytes : (odd.toList ++ b :: bs).length = odd.toList.length + (b :: bs).length :=
        List.length_append
      have hpos : 0 < (b :: bs).length := Nat.succ_pos _
      obtain ⟨n, rfl⟩ : ∃ n', n = n' + 1 := ⟨n - 1, by omega⟩
      have hsizes : file.sizes (n + 1) =
          (b :: bs).length :: OpenFile.sizes n ⟨file.rest.drop m, reads⟩ := by
        rw [OpenFile.sizes, hread, htake]
      have hodd : (ws.length + odd.toList.length) % 2 = odd.toList.length := by
        have heven := h.even
        cases odd <;> simp <;> omega
      rw [hsizes, Fit, hodd] at hok ⊢
      refine (store_ends h fun hok' => (hok hok').2.1).bind ?_
      rintro g₀ ⟨hat, hskip₀, hroom⟩
      refine (scan_ends hat hwidth ?_ ?_).bind ?_
      · intro hok'
        have := (hok hok').1
        omega
      · have hlen' := hat.len
        omega
      · rintro ⟨i, g₁⟩ ⟨hat', hi, hskip⟩
        obtain ⟨ws', odd', hafter, hsplit⟩ := hat'.moveRest (by simp) hi
        have hsum : ws'.length + odd'.toList.length =
            ws.length + odd.toList.length + (b :: bs).length := by
          rw [← List.length_append, hsplit, List.length_append, hbytes, Nat.add_assoc]
        have hskip' : (g₁.moveRest i).skipBytes = g₁.skipBytes := by
          unfold Globals.moveRest
          split <;> rfl
        have hrest' := ih ⟨file.rest.drop m, reads⟩ (n := n) hafter hreads'
          (by dsimp only; omega) (by
            intro hok'
            rw [hsum]
            exact ⟨by have := (hok hok').1; dsimp only; omega, (hok hok').2.2⟩)
          (by dsimp only; omega)
        rw [hsum] at hrest'
        refine hrest'.imp ?_
        rintro r ⟨hr, hskip'', hfit, ws'', odd'', hafter', hsplit'⟩
        refine ⟨hr, hskip''.trans (hskip'.trans (hskip.trans hskip₀)), ⟨hroom, hfit⟩, ws'', odd'',
          hafter', ?_⟩
        calc ws'' ++ odd''.toList = ws' ++ odd'.toList ++ file.rest.drop m := by
              rw [hsplit', List.append_assoc]
          _ = ws ++ (odd.toList ++ (b :: bs ++ file.rest.drop m)) := by
              rw [hsplit, List.append_assoc, List.append_assoc]
          _ = ws ++ (odd.toList ++ file.rest) := by rw [← hrest]

/-- `od` skips bytes of the file, and prints the words that the others complete. -/
theorem od_ends {f : File} (h : g.After bufsiz width S ws odd) (hf : f.Readable) (hwidth : 0 < width)
    (hk : g.skipBytes = k)
    (hok : ok → S + (ws.length + odd.toList.length + (f.contents.drop k).length) < 2 ^ 31 ∧
      Fit bufsiz (ws.length + odd.toList.length)
        (OpenFile.sizes f.contents.length ⟨f.contents.drop k, f.reads⟩))
    (hfuel : f.contents.length < fuel) :
    Ends (od fuel g f) ok fun r => r.2 = true ∧
      r.1.skipBytes = ((k - f.contents.length : ℕ) : ℤ) ∧
      Fit bufsiz (ws.length + odd.toList.length)
        (OpenFile.sizes f.contents.length ⟨f.contents.drop k, f.reads⟩) ∧
      ∃ ws' odd', r.1.After bufsiz width S ws' odd' ∧
        ws' ++ odd'.toList = ws ++ (odd.toList ++ f.contents.drop k) := by
  obtain ⟨hopens, hreads⟩ := hf
  have hlen : (f.contents.drop k).length = f.contents.length - k := List.length_drop
  simp only [od, hopens, hk]
  rcases Nat.eq_zero_or_pos k with rfl | hpos
  · -- nothing is to be skipped
    have hzero : ¬ ((0 : ℕ) : ℤ) ≠ 0 := by simp
    rw [if_neg (by simp), if_neg hzero]
    refine (readLoop_ends ⟨f.contents, f.reads⟩ h hreads hwidth le_rfl hok hfuel).imp ?_
    rintro r ⟨hr, hskip, hafter⟩
    exact ⟨hr, by omega, hafter⟩
  · have hne : ((k : ℕ) : ℤ) ≠ 0 := by omega
    rw [if_neg (by simp), if_pos hne]
    obtain ⟨⟨hN, hsize, hw, hto, hS⟩, heven, hout, hread, hglen, hbuf⟩ := h
    split
    · -- the whole file is skipped
      rename_i hle
      have hnil : f.contents.drop k = [] := List.drop_eq_nil_of_le (by omega)
      rw [hnil, OpenFile.sizes_nil hreads]
      refine .pure ⟨rfl, by dsimp only; omega, trivial, ws, odd, ⟨⟨hN, hsize, hw, hto, hS⟩, heven,
        hout, hread, hglen, hbuf⟩, ?_⟩
      rw [List.append_nil]
    · rename_i hlt
      have hneg : ¬ ((k : ℕ) : ℤ) < 0 := by omega
      rw [if_neg hneg, Int.toNat_natCast]
      refine Ends.imp (readLoop_ends (g := { g with skipBytes := 0 })
        ⟨f.contents.drop k, f.reads⟩ ⟨⟨hN, hsize, hw, hto, hS⟩, heven, hout, hread, hglen,
        hbuf⟩ hreads hwidth (by dsimp only; omega) hok (by dsimp only; omega)) ?_
      rintro r ⟨hr, hskip, hafter⟩
      exact ⟨hr, by dsimp only at hskip; omega, hafter⟩

/-- The bytes of all files. -/
def concat (fs : List File) : List UInt8 := fs.flatMap File.contents

/-- `main` prints the words of all files, behind the bytes that are skipped. -/
theorem files_ends {fs : List File} (h : g.After bufsiz width S ws odd)
    (hfs : ∀ f ∈ fs, f.Readable) (hwidth : 0 < width) (hk : g.skipBytes = k)
    (hok : ok → S + (ws.length + odd.toList.length + ((concat fs).drop k).length) < 2 ^ 31 ∧
      Fit bufsiz (ws.length + odd.toList.length) (sizes k fs))
    (hfuel : (concat fs).length < fuel) :
    Ends (files fuel g fs) ok fun r => r.2 = true ∧
      Fit bufsiz (ws.length + odd.toList.length) (sizes k fs) ∧
      ∃ ws' odd', r.1.After bufsiz width S ws' odd' ∧
        ws' ++ odd'.toList = ws ++ (odd.toList ++ (concat fs).drop k) := by
  induction fs generalizing g ws odd k with
  | nil => exact .pure ⟨rfl, trivial, ws, odd, h, by simp [concat]⟩
  | cons f fs ih =>
    obtain ⟨hf, hfs⟩ := List.forall_mem_cons.mp hfs
    have hconcat : concat (f :: fs) = f.contents ++ concat fs := List.flatMap_cons
    have hdrop : (concat (f :: fs)).drop k =
        f.contents.drop k ++ (concat fs).drop (k - f.contents.length) := by
      rw [hconcat, List.drop_append]
    have hlen : ((concat (f :: fs)).drop k).length = (f.contents.drop k).length +
        ((concat fs).drop (k - f.contents.length)).length := by
      rw [hdrop, List.length_append]
    have hfuel' : f.contents.length + (concat fs).length < fuel := by
      rwa [← List.length_append, ← hconcat]
    have hsum : (OpenFile.sizes f.contents.length ⟨f.contents.drop k, f.reads⟩).sum =
        (f.contents.drop k).length :=
      OpenFile.sum_sizes hf.2 (by rw [List.length_drop]; exact Nat.sub_le _ _)
    rw [sizes, fit_append, hsum] at hok ⊢
    refine (od_ends h hf hwidth hk ?_ (by omega)).bind ?_
    · intro hok'
      have := (hok hok').1
      exact ⟨by omega, (hok hok').2.1⟩
    · rintro ⟨g₁, ok₁⟩ ⟨rfl, hskip, hfit, ws', odd', hafter, hsplit⟩
      have htotal : ws'.length + odd'.toList.length =
          ws.length + odd.toList.length + (f.contents.drop k).length := by
        rw [← List.length_append, hsplit, List.length_append, List.length_append, Nat.add_assoc]
      have hrest := ih hafter hfs hskip (by
        intro hok'
        rw [htotal]
        exact ⟨by have := (hok hok').1; omega, (hok hok').2.2⟩) (by omega)
      rw [htotal] at hrest
      refine hrest.bind ?_
      rintro ⟨g₂, ok₂⟩ ⟨rfl, hfit', ws'', odd'', hafter', hsplit'⟩
      refine .pure ⟨rfl, ⟨hfit, hfit'⟩, ws'', odd'', hafter', ?_⟩
      calc ws'' ++ odd''.toList
          = ws' ++ odd'.toList ++ (concat fs).drop (k - f.contents.length) := by
            rw [hsplit', List.append_assoc]
        _ = ws ++ (odd.toList ++ (f.contents.drop k ++
              (concat fs).drop (k - f.contents.length))) := by
            rw [hsplit, List.append_assoc, List.append_assoc]
        _ = ws ++ (odd.toList ++ (concat (f :: fs)).drop k) := by rw [hdrop]

/-- The last line is the address of the end. -/
theorem lastLine_ends {text : List Char} {n : ℕ} (hout : g.stdout = text)
    (hread : g.bytesHasRead = n) (hS : g.lineNumStart = S) (hok : ok → S + n < 2 ^ 31) :
    Ends ((addInt g.bytesHasRead g.lineNumStart).bind fun addr =>
      some (g.print ('\n' :: octal 7 addr ++ ['\n']))) ok fun g' =>
        g'.stdout = text ++ '\n' :: addressText (S + n) ++ ['\n'] ∧ S + n < 2 ^ 31 := by
  refine (addInt_ends ?_).bind ?_
  · intro h
    have := hok h
    omega
  · rintro addr ⟨rfl, hlt⟩
    have haddr : g.bytesHasRead + g.lineNumStart = ((S + n : ℕ) : ℤ) := by
      rw [hread, hS]
      omega
    rw [haddr] at hlt ⊢
    refine .pure ⟨?_, by omega⟩
    simp only [Globals.print, hout]
    rw [octal_address (by omega)]
    simp only [List.append_assoc, List.cons_append]

/-- The end of `main` completes the dump. -/
theorem finish_ends (h : g.After bufsiz width S ws odd) (hwidth : 0 < width)
    (hok : ok → S + (ws ++ odd.toList).length < 2 ^ 31) :
    Ends g.finish ok fun g' => g'.stdout = dump width S (ws ++ odd.toList) ∧
      S + (ws ++ odd.toList).length < 2 ^ 31 := by
  obtain ⟨hset, heven, hout, hread, hlen, hbuf⟩ := h
  rw [dump_odd heven, List.length_append]
  rw [List.length_append] at hok
  cases odd with
  | none =>
    have hcond : ¬ g.len ≠ 0 := by simp [hlen]
    simp only [Globals.finish, if_neg hcond]
    exact lastLine_ends (by simpa [oddText] using hout) (by simpa using hread) hset.lineNumStart hok
  | some b =>
    have hcond : g.len ≠ 0 := by simp [hlen]
    have hb : g.buf 0 = b := by simpa [Buffer.take] using hbuf
    have htotal : (some b).toList.length = 1 := rfl
    simp only [Globals.finish, if_pos hcond]
    refine (address_ends hset hwidth hread ?_).bind ?_
    · intro h
      have := hok h
      omega
    · rintro _ rfl
      refine (addInt_ends ?_).bind ?_
      · intro h
        have := hok h
        simp only [Globals.print]
        omega
      · rintro c ⟨rfl, -⟩
        refine lastLine_ends ?_ ?_ hset.lineNumStart hok
        · simp only [Globals.print, oddText, hout, hb, List.append_assoc]
        · simp only [Globals.print, htotal]
          omega

variable {fs : List File}

/-- What `main` prints is the dump of what is not skipped, and it prints it if the address of the end
is an `int` and the reads have room in `buf`. -/
theorem mainWith_ends (hfs : ∀ f ∈ fs, f.Readable) (hwidth : 0 < width)
    (hfuel : (concat fs).length < fuel) :
    Ends (mainWith bufsiz ⟨none, width, S⟩ fs fuel)
      (S + ((concat fs).drop S).length < 2 ^ 31 ∧ Fit bufsiz 0 (sizes S fs)) fun r =>
      r = (dump width S ((concat fs).drop S), true) ∧
        S + ((concat fs).drop S).length < 2 ^ 31 ∧ Fit bufsiz 0 (sizes S fs) := by
  have hstart : (Options.start ⟨none, width, S⟩ bufsiz).After bufsiz width S [] none :=
    ⟨⟨rfl, rfl, rfl, rfl, rfl⟩, Nat.dvd_zero 2, rfl, rfl, rfl, rfl⟩
  refine (files_ends hstart hfs hwidth rfl (fun h => by simpa using h) hfuel).bind ?_
  rintro ⟨g, ok⟩ ⟨rfl, hfit, ws, odd, hafter, hsplit⟩
  have hbytes : ws ++ odd.toList = (concat fs).drop S := by simpa using hsplit
  have hto : g.bytesToRead = 0 := hafter.set.bytesToRead
  simp only [if_pos hto]
  rw [← hbytes]
  refine (finish_ends hafter hwidth And.left).bind ?_
  rintro g' ⟨hout, hlt⟩
  exact .pure ⟨by rw [hout], hlt, hfit⟩

/-- The output ends, as the dump, if the address of the end is an `int` and the reads have room. -/
theorem mainWith_returns (hfs : ∀ f ∈ fs, f.Readable) (hwidth : 0 < width)
    (h : S + ((concat fs).drop S).length < 2 ^ 31) (hfit : Fit bufsiz 0 (sizes S fs)) :
    Returns (mainWith bufsiz ⟨none, width, S⟩ fs) (dump width S ((concat fs).drop S), true) := by
  refine ⟨(concat fs).length + 1, ?_⟩
  intro fuel hfuel
  have hends : Ends (mainWith bufsiz ⟨none, width, S⟩ fs fuel) _ _ := mainWith_ends hfs hwidth hfuel
  obtain ⟨r, hr⟩ := hends.defined ⟨h, hfit⟩
  rw [hr, (hends.result r hr).1]

/-- Output that ends has an end with an address in the range of `int`, and no `read` overran `buf`. -/
theorem of_mainWith_returns {r : List Char × Bool} (hfs : ∀ f ∈ fs, f.Readable) (hwidth : 0 < width)
    (h : Returns (mainWith bufsiz ⟨none, width, S⟩ fs) r) :
    S + ((concat fs).drop S).length < 2 ^ 31 ∧ Fit bufsiz 0 (sizes S fs) := by
  obtain ⟨n, hn⟩ := h
  have hrun := hn (max n ((concat fs).length + 1)) (Nat.le_max_left _ _)
  exact ((mainWith_ends hfs hwidth (Nat.le_max_right _ _)).result r hrun).2

/-- With a `buf` large enough for its reads, `od` prints the dump of the concatenated contents of its
files, behind the bytes it is to skip, however they are split over files and reads, and so does `od` of
one file with these contents, if and only if they are fewer than 2^31 bytes. -/
theorem od_concat_iff (hsize : BUFSIZ < bufsiz) (hfs : ∀ f ∈ fs, f.Readable) (hwidth : 0 < width)
    (hS : S < 2 ^ 31) :
    (Returns (mainWith bufsiz ⟨none, width, S⟩ fs) (dump width S ((concat fs).drop S), true) ∧
      ∀ f : File, f.Readable → f.contents = concat fs →
        Returns (mainWith bufsiz ⟨none, width, S⟩ [f]) (dump width S ((concat fs).drop S), true)) ↔
      (concat fs).length < 2 ^ 31 := by
  have hlen : S + ((concat fs).drop S).length < 2 ^ 31 ↔ (concat fs).length < 2 ^ 31 := by
    rw [List.length_drop]
    omega
  rw [← hlen]
  constructor
  · rintro ⟨hrun, -⟩
    exact (of_mainWith_returns hfs hwidth hrun).1
  · intro hlt
    refine ⟨mainWith_returns hfs hwidth hlt (fit_of_lt hsize (sizes_le hfs)), ?_⟩
    intro f hf hcontents
    have hone : concat [f] = concat fs := by simp [concat, hcontents]
    have hfs' : ∀ f' ∈ [f], f'.Readable := by simpa using hf
    rw [← hone] at hlt ⊢
    exact mainWith_returns hfs' hwidth hlt (fit_of_lt hsize (sizes_le hfs'))

/-- Two files, the first of which ends in an odd byte. -/
theorem od_concat_iff_two :
    (Returns (mainWith 8193 ⟨none, 16, 1⟩ [⟨true, [1, 2, 3, 4], [some 3]⟩, ⟨true, [5], []⟩])
        (dump 16 1 [2, 3, 4, 5], true) ∧ ∀ f : File, f.Readable → f.contents = [1, 2, 3, 4, 5] →
        Returns (mainWith 8193 ⟨none, 16, 1⟩ [f]) (dump 16 1 [2, 3, 4, 5], true)) ↔ 5 < 2 ^ 31 :=
  @od_concat_iff 8193 16 1 [⟨true, [1, 2, 3, 4], [some 3]⟩, ⟨true, [5], []⟩]
    (by decide) (by simp [File.Readable]) (by decide) (by decide)

/-- `od` does not end with a file that long. -/
theorem not_returns {contents : List UInt8} {r : List Char × Bool}
    (h : 2 ^ 31 ≤ contents.length) (hwidth : 0 < width) :
    ¬ Returns (mainWith bufsiz ⟨none, width, (0 : ℕ)⟩ [⟨true, contents, []⟩]) r := by
  intro hrun
  have hlt := (of_mainWith_returns (by simp [File.Readable]) hwidth hrun).1
  simp only [concat, List.flatMap_cons, List.flatMap_nil, List.append_nil, List.drop_zero] at hlt
  omega

/-- `bytes_has_read` overflows on a file of 2^32 bytes, whatever the size of `buf`. -/
theorem od_overflow : ¬ ∃ bufsiz, Returns
    (mainWith bufsiz ⟨none, (16 : ℕ), (0 : ℕ)⟩ [⟨true, List.replicate (2 ^ 32) 0, []⟩])
    (dump 16 0 (List.replicate (2 ^ 32) 0), true) := by
  rintro ⟨bufsiz, hrun⟩
  have hlen : (List.replicate (2 ^ 32) (0 : UInt8)).length = 2 ^ 32 := List.length_replicate
  exact not_returns (by rw [hlen]; decide) (by decide) hrun

end Od

end Ulsp
