import Ulsp.Cat.Flush
import Ulsp.Cat.Refill

/-!
# The bounds of the buffers of `cat`

Here `cat` is run with the sizes of its buffers: a byte stored through `bpout` at or behind `cap`, or
read through `bpin` behind `inbuf[insize]`, makes it undefined (`Checked`). There is one check of
`bpout` for a line and the buffer that is filled for it, and it leaves less than `outsize` bytes. Up
to the next one two line numbers, a `$` and a newline are appended, and two bytes at most for each
byte of `inbuf` that is left (`State.Bounded`). So no access is out of bounds (`cat_in_bounds`).
-/

namespace Ulsp

open Lib

namespace Cat

/-- The size of the output buffer that `main` allocates. -/
def bufsize (outsize insize : ℕ) : ℕ := outsize - 1 + insize * 4 + LineNum.bufLen

namespace Checked

variable (cap insize : ℕ)

/-- `*bpout++ = c`. -/
def put (c : UInt8) (o : Out) : Option Out := if o.bpout < cap then some (o.put c) else none

/-- `bpout = stpcpy(bpout, text)`, with the terminator behind the text. -/
def stpcpy (text : List UInt8) (o : Out) : Option Out :=
  if o.bpout + text.length < cap then some (o.stpcpy text) else none

/-- `next_line_num`, and the output of the number. -/
def number (s : State) : Option State := do
  let out ← stpcpy cap s.lineNum.next.text s.out
  return { s with lineNum := s.lineNum.next, out := out }

/-- `ch = *bpin++`. -/
def advance (s : State) : Option State := if s.bpin ≤ insize then some s.advance else none

/-- The end of a pass of the `do` loop. -/
def nextChar (f : Flags) (s : State) : Option State := do
  let s ← advance insize s
  if s.ch = 10 then return { s with pc := .top }
  else
    let s ← if 0 ≤ s.newlines ∧ f.nflag then number cap s else some s
    return { s with pc := .line }

/-- The output of a newline. -/
def endLine (f : Flags) (s : State) : Option State := do
  let out ← if f.Eflag then put cap 36 s.out else some s.out
  let out ← put cap s.ch out
  return { s with out := out }

/-- The branch of the `do` loop for a newline. -/
def newline (f : Flags) (s : State) : Option State :=
  let s := { s with newlines := s.newlines + 1 }
  if 0 < s.newlines then
    let s := { s with newlines := if 2 ≤ s.newlines then 2 else s.newlines }
    if 2 ≤ s.newlines ∧ f.sflag then some s
    else do
      let s ← if f.nflag && !f.bflag then number cap s else some s
      endLine cap f s
  else endLine cap f s

/-- A pass of the `do` loop, or the end of the file; the sentinel is stored behind the bytes read. -/
def doPass (f : Flags) (outsize : ℕ) (s : State) : Option (State ⊕ State) :=
  let s := { s with out := s.out.flush outsize }
  if s.eob < s.bpin then
    let s := { s with out := s.out.writePending }
    let bytes := s.file.take insize
    if bytes = [] then some (.inr s)
    else if bytes.length ≤ insize then
      (nextChar cap insize f { s with
        inbuf := Function.update (s.inbuf.store 0 bytes) bytes.length 10
        bpin := 0
        eob := bytes.length
        file := s.file.drop insize }).map .inl
    else none
  else do
    let s ← newline cap f s
    (nextChar cap insize f s).map .inl

/-- A pass of the loop over the bytes of a line. -/
def linePass (f : Flags) (s : State) : Option State :=
  if s.ch = 9 ∧ f.Tflag then do
    let out ← put cap 94 s.out
    let out ← put cap (s.ch + 64) out
    advance insize { s with out := out }
  else if s.ch ≠ 10 then do
    let out ← put cap s.ch s.out
    advance insize { s with out := out }
  else some { s with newlines := -1, pc := .top }

/-- A pass of either loop. -/
def pass (f : Flags) (outsize : ℕ) (s : State) : Option (State ⊕ State) :=
  match s.pc with
  | .top => if outsize = 0 then some (.inl s) else doPass cap insize f outsize s
  | .line => (linePass cap insize f s).map .inl

/-- `cat`, with the buffers that `main` allocates for the file. -/
def cat (f : Flags) (outsize fuel : ℕ) (g : Globals) (file : File) : Option (Option Globals) :=
  (partialLoop (pass (bufsize outsize file.insize) file.insize f outsize) fuel (start file g)).map
    (Option.map fun s => ⟨s.newlines, s.lineNum, s.out.stdout, s.out.appended⟩)

/-- The loop of `main` over the files. -/
def files (f : Flags) (outsize fuel : ℕ) : Globals → List File → Option (Option Globals)
  | g, [] => some (some g)
  | g, file :: fs =>
    match cat f outsize fuel g file with
    | none => none
    | some none => some none
    | some (some g) => files f outsize fuel g fs

/-- `main`. -/
def mainLoop (opts : List Char) (outsize fuel : ℕ) (fs : List File) : Option (Option Globals) :=
  files (flagsOf opts) outsize fuel ⟨0, .init, [], []⟩ fs

end Checked

variable {f : Flags} {s s' : State} {o : Out} {c : UInt8} {n : LineNum} {cap outsize insize : ℕ}

/-! ## The line numbers -/

/-- `line_buf` ends with its terminator, and the digits begin before it. -/
structure LineNum.Fits (n : LineNum) : Prop where
  start_le : n.start ≤ LineNum.last
  terminated : n.buf (LineNum.bufLen - 1) = 0

theorem LineNum.fits_init : LineNum.init.Fits := ⟨by decide, rfl⟩

/-- Counting up changes no byte behind the last digit. -/
theorem LineNum.carry_of_lt {start endp k : ℕ} (h : endp < k) (buf : Buffer) :
    (LineNum.carry start endp buf).1 k = buf k := by
  induction endp generalizing buf with
  | zero =>
    rw [LineNum.carry]
    split <;> exact Function.update_of_ne (by omega) _ _
  | succ endp ih =>
    rw [LineNum.carry]
    split
    · exact Function.update_of_ne (by omega) _ _
    · simp only
      split
      · rw [ih (by omega)]
        exact Function.update_of_ne (by omega) _ _
      · exact Function.update_of_ne (by omega) _ _

theorem LineNum.Fits.next (h : n.Fits) : n.next.Fits := by
  have hlast : LineNum.last = 17 := rfl
  have hend : LineNum.bufLen - 1 = 19 := rfl
  have hstart := h.start_le
  have hcarry : (LineNum.carry n.start LineNum.last n.buf).1 (LineNum.bufLen - 1) = _ :=
    LineNum.carry_of_lt (by omega) n.buf
  rw [h.terminated] at hcarry
  rw [LineNum.next]
  rcases hres : LineNum.carry n.start LineNum.last n.buf with ⟨buf, _ | _⟩
  · rw [hres] at hcarry
    have hne : LineNum.bufLen - 1 ≠ n.start - 1 := by omega
    have hne' : LineNum.bufLen - 1 ≠ 0 := by omega
    simp only
    split
    · exact ⟨(Nat.sub_le _ _).trans hstart, (Function.update_of_ne hne 49 buf).trans hcarry⟩
    · exact ⟨hstart, (Function.update_of_ne hne' 62 buf).trans hcarry⟩
  · rw [hres] at hcarry
    exact ⟨hstart, hcarry⟩

/-- The text of a number has at most 19 characters: the terminator is not one of them. -/
theorem LineNum.Fits.length_text (h : n.Fits) : n.text.length ≤ 19 := by
  by_contra hlong
  have hprefix : n.text <+: (n.buf.take LineNum.bufLen).drop n.print := List.takeWhile_prefix _
  have hlen : ((n.buf.take LineNum.bufLen).drop n.print).length = 20 - n.print := by
    simp [LineNum.bufLen]
  have hle := hprefix.length_le
  have hzero : n.print = 0 := by omega
  have hall : n.text = n.buf.take LineNum.bufLen := by
    have heq := hprefix.eq_of_length_le (by omega)
    rwa [hzero, List.drop_zero] at heq
  have hmem : 0 ∈ n.text := by
    rw [hall]
    exact List.mem_map.mpr ⟨LineNum.bufLen - 1, by decide, h.terminated⟩
  exact absurd (List.all_eq_true.mp List.all_takeWhile 0 hmem) (by decide)

/-! ## The accesses -/

theorem Checked.put_eq (h : o.bpout < cap) : Checked.put cap c o = some (o.put c) := if_pos h

theorem Checked.advance_eq (h : s.bpin ≤ insize) : Checked.advance insize s = some s.advance := if_pos h

/-- A number takes at most 20 bytes, with the terminator. -/
theorem Checked.number_eq (hn : s.lineNum.Fits) (h : s.out.bpout + 19 < cap) :
    Checked.number cap s = some s.number := by
  have hlen := hn.next.length_text
  have hput : Checked.stpcpy cap s.lineNum.next.text s.out = some (s.out.stpcpy s.lineNum.next.text) :=
    if_pos (by omega)
  rw [Checked.number, hput]
  rfl

theorem State.number_bpout (hn : s.lineNum.Fits) : s.number.out.bpout ≤ s.out.bpout + 19 :=
  Nat.add_le_add_left hn.next.length_text _

/-- The `$` and the newline. -/
theorem Checked.endLine_eq (h : s.out.bpout + 2 ≤ cap) :
    Checked.endLine cap f s = some (Cat.endLine f s) ∧
      (Cat.endLine f s).out.bpout ≤ s.out.bpout + 2 := by
  have hput : s.out.bpout + 1 = (s.out.put 36).bpout := rfl
  rw [Checked.endLine, Cat.endLine]
  cases f.Eflag with
  | true =>
    simp only [if_true, Checked.put_eq (show s.out.bpout < cap by omega), Option.bind_eq_bind,
      Option.bind_some, Checked.put_eq (show (s.out.put 36).bpout < cap by omega)]
    exact ⟨rfl, le_rfl⟩
  | false =>
    simp only [Bool.false_eq_true, if_false, Option.bind_eq_bind, Option.bind_some,
      Checked.put_eq (show s.out.bpout < cap by omega)]
    exact ⟨rfl, Nat.le_succ _⟩

/-- What is appended for a newline: a number, a `$` and the newline itself. -/
theorem Checked.newline_eq (hn : s.lineNum.Fits) (h : s.out.bpout + 21 ≤ cap) :
    Checked.newline cap f s = some (Cat.newline f s) ∧
      (Cat.newline f s).out.bpout ≤ s.out.bpout + 21 ∧ (Cat.newline f s).lineNum.Fits := by
  rw [Checked.newline, Cat.newline]
  simp only
  by_cases hpos : 0 < s.newlines + 1
  · simp only [if_pos hpos]
    generalize (if 2 ≤ s.newlines + 1 then 2 else s.newlines + 1) = k
    by_cases hskip : 2 ≤ k ∧ f.sflag
    · rw [if_pos hskip, if_pos hskip]
      exact ⟨rfl, Nat.le_add_right _ _, hn⟩
    simp only [if_neg hskip]
    cases f.nflag && !f.bflag with
    | true =>
      have hnum : (State.number { s with newlines := k }).out.bpout ≤ s.out.bpout + 19 :=
        State.number_bpout (s := { s with newlines := k }) hn
      obtain ⟨heq, hle⟩ : Checked.endLine cap f (State.number { s with newlines := k }) = _ ∧ _ :=
        Checked.endLine_eq (by omega)
      have hput : Checked.number cap { s with newlines := k } =
          some (State.number { s with newlines := k }) :=
        Checked.number_eq hn (show s.out.bpout + 19 < cap by omega)
      simp only [if_true, hput, Option.bind_eq_bind, Option.bind_some]
      exact ⟨heq, by omega, hn.next⟩
    | false =>
      obtain ⟨heq, hle⟩ : _ ∧ (Cat.endLine f { s with newlines := k }).out.bpout ≤ _ :=
        Checked.endLine_eq (show s.out.bpout + 2 ≤ cap by omega)
      simp only [Bool.false_eq_true, if_false, Option.bind_eq_bind, Option.bind_some]
      exact ⟨heq, hle.trans (Nat.add_le_add_left (by decide) _), hn⟩
  · simp only [if_neg hpos]
    obtain ⟨heq, hle⟩ : _ ∧ (Cat.endLine f { s with newlines := s.newlines + 1 }).out.bpout ≤ _ :=
      Checked.endLine_eq (show s.out.bpout + 2 ≤ cap by omega)
    exact ⟨heq, hle.trans (Nat.add_le_add_left (by decide) _), hn⟩

/-- The next byte, and a number before it. -/
theorem Checked.nextChar_eq (hn : s.lineNum.Fits) (h : s.out.bpout + 19 < cap) (hin : s.bpin ≤ insize) :
    Checked.nextChar cap insize f s = some (Cat.nextChar f s) ∧
      (Cat.nextChar f s).out.bpout ≤ s.out.bpout + 19 ∧ (Cat.nextChar f s).lineNum.Fits := by
  rw [Checked.nextChar, Cat.nextChar, Checked.advance_eq hin]
  simp only [Option.bind_eq_bind, Option.bind_some]
  split
  · exact ⟨rfl, Nat.le_add_right _ _, hn⟩
  · split
    · have hnum := State.number_bpout (s := s.advance) hn
      simp only [Checked.number_eq (s := s.advance) hn h, Option.bind_some]
      exact ⟨rfl, hnum, hn.next⟩
    · exact ⟨rfl, Nat.le_add_right _ _, hn⟩

/-- Before a pass: the bytes that may still be appended before the next check fit, and the buffer is
no larger than what was allocated. -/
structure State.Bounded (outsize insize : ℕ) (s : State) : Prop where
  inv : s.Inv
  eob_le : s.eob ≤ insize
  lineNum : s.lineNum.Fits
  line : s.pc = .line → s.out.bpout + 2 * (s.eob + 1 - s.bpin) ≤ outsize + 39 + 2 * insize

/-- What the flush leaves. -/
theorem Out.flush_bpout_lt (hsize : 0 < outsize) (o : Out) : (o.flush outsize).bpout < outsize := by
  by_cases hle : outsize ≤ o.bpout
  · rw [(Out.flush_spec hsize o hle).2.2]
    exact Nat.mod_lt _ hsize
  · rw [Out.flush, if_neg hle]
    exact Nat.lt_of_not_le hle

/-- A pass of the loop over the bytes of a line. -/
theorem Checked.linePass_eq (hout : 16 ≤ outsize) (hin : outsize ≤ insize)
    (hs : s.Bounded outsize insize) (hpc : s.pc = .line) :
    Checked.linePass (bufsize outsize insize) insize f s = some (Cat.linePass f s) ∧
      (Cat.linePass f s).Bounded outsize insize := by
  have hcap : bufsize outsize insize = outsize - 1 + insize * 4 + 20 := rfl
  have hinv := (linePass_keeps (f := f) hs.inv hpc).inv
  have hline := hs.line hpc
  have heob := hs.eob_le
  by_cases hch : s.ch = 10
  · have hpass : Cat.linePass f s = { s with newlines := -1, pc := .top } := by simp [Cat.linePass, hch]
    refine ⟨by simp [Checked.linePass, Cat.linePass, hch], hinv, ?_, ?_, ?_⟩
    · rwa [hpass]
    · rw [hpass]
      exact hs.lineNum
    · rw [hpass]
      intro hline'
      cases hline'
  -- a byte before the sentinel, for which there is room for two
  have hle : s.bpin ≤ s.eob := Nat.le_of_not_lt fun hlt => hch (hs.inv.at_end hpc hlt)
  have hnext (o : Out) : Checked.advance insize { s with out := o } =
      some { s with out := o }.advance :=
    Checked.advance_eq (hle.trans heob)
  have hput : Checked.put (bufsize outsize insize) s.ch s.out = some (s.out.put s.ch) :=
    Checked.put_eq (by omega)
  by_cases htab : s.ch = 9 ∧ f.Tflag
  · have hpass : Cat.linePass f s = { s with out := (s.out.put 94).put (s.ch + 64) }.advance :=
      if_pos htab
    have hfirst : Checked.put (bufsize outsize insize) 94 s.out = some (s.out.put 94) :=
      Checked.put_eq (by omega)
    have hsecond : Checked.put (bufsize outsize insize) (s.ch + 64) (s.out.put 94) =
        some ((s.out.put 94).put (s.ch + 64)) :=
      Checked.put_eq (show s.out.bpout + 1 < _ by omega)
    rw [hpass] at hinv ⊢
    refine ⟨?_, hinv, heob, hs.lineNum, ?_⟩
    · simp only [Checked.linePass, if_pos htab, hfirst, hsecond, Option.bind_eq_bind, Option.bind_some,
        hnext]
    · intro _
      show s.out.bpout + 1 + 1 + 2 * (s.eob + 1 - (s.bpin + 1)) ≤ _
      omega
  · have hpass : Cat.linePass f s = { s with out := s.out.put s.ch }.advance := by
      rw [Cat.linePass, if_neg htab, if_pos hch]
    rw [hpass] at hinv ⊢
    refine ⟨?_, hinv, heob, hs.lineNum, ?_⟩
    · simp only [Checked.linePass, if_neg htab, if_pos hch, hput, Option.bind_eq_bind, Option.bind_some,
        hnext]
    · intro _
      show s.out.bpout + 1 + 2 * (s.eob + 1 - (s.bpin + 1)) ≤ _
      omega

/-- A pass of the `do` loop that goes on keeps what is known of the input buffer. -/
theorem State.Inv.doPass {t : State} (hs : s.Inv) (hout : 0 < outsize) (hin : 0 < insize)
    (hpc : s.pc = .top) (h : Cat.doPass f outsize insize s = .inl t) : t.Inv := by
  have hpass : Cat.pass f outsize insize s = .inl t := by simp only [Cat.pass, hpc, if_neg hout.ne', h]
  rcases pass_spec hs hout hin with ⟨t', ht', hkeeps⟩ | ⟨t', ht', -⟩
  · obtain rfl := Sum.inl.inj (hpass.symm.trans ht')
    exact hkeeps.inv
  · cases hpass.symm.trans ht'

/-- What the next byte leaves, after at most 21 bytes have been appended. -/
theorem Checked.nextChar_bounded (hin : outsize ≤ insize) (hout : s.out.bpout ≤ outsize + 20)
    (hn : s.lineNum.Fits) (hle : s.bpin ≤ s.eob) (heob : s.eob ≤ insize)
    (hinv : (Cat.nextChar f s).Inv) (hout' : 16 ≤ outsize) :
    Checked.nextChar (bufsize outsize insize) insize f s = some (Cat.nextChar f s) ∧
      (Cat.nextChar f s).Bounded outsize insize := by
  have hcap : bufsize outsize insize = outsize - 1 + insize * 4 + 20 := rfl
  obtain ⟨heq, hbpout, hnum⟩ : Checked.nextChar (bufsize outsize insize) insize f s = _ ∧ _ :=
    Checked.nextChar_eq hn (by omega) (hle.trans heob)
  have htakes := takes_nextChar (f := f) s
  refine ⟨heq, hinv, ?_, hnum, ?_⟩
  · rw [htakes.eob]
    exact heob
  · intro _
    rw [htakes.eob, htakes.bpin]
    omega

/-- A pass of the `do` loop that fills the buffer: nothing is pending then. -/
theorem Checked.doPass_fill_eq (hout : 16 ≤ outsize) (hin : outsize ≤ insize)
    (hs : s.Bounded outsize insize) (hpc : s.pc = .top) (hlt : s.eob < s.bpin) :
    Checked.doPass (bufsize outsize insize) insize f outsize s =
      some (Cat.doPass f outsize insize s) ∧
    ∀ s', Cat.doPass f outsize insize s = .inl s' → s'.Bounded outsize insize := by
  by_cases hnone : s.file.take insize = []
  · rw [Checked.doPass, Cat.doPass]
    simp only [if_pos hlt, if_pos hnone]
    refine ⟨trivial, ?_⟩
    rintro s' ⟨⟩
  have hlen : (s.file.take insize).length ≤ insize := List.length_take_le _ _
  let u : State := { s with
    out := (s.out.flush outsize).writePending
    inbuf := Function.update (s.inbuf.store 0 (s.file.take insize)) (s.file.take insize).length 10
    bpin := 0
    eob := (s.file.take insize).length
    file := s.file.drop insize }
  have hfill : Cat.doPass f outsize insize s = .inl (Cat.nextChar f u) := by
    rw [Cat.doPass]
    simp only [if_pos hlt, if_neg hnone]
    rfl
  obtain ⟨heq, hbounded⟩ := Checked.nextChar_bounded (s := u) hin (Nat.zero_le _) hs.lineNum
    (Nat.zero_le _) hlen (hs.inv.doPass (by omega) (by omega) hpc hfill) hout
  refine ⟨?_, ?_⟩
  · rw [hfill, Checked.doPass]
    simp only [if_pos hlt, if_neg hnone, if_pos hlen]
    exact congrArg (Option.map Sum.inl) heq
  · intro s' hs'
    obtain rfl := Sum.inl.inj (hfill.symm.trans hs')
    exact hbounded

/-- A pass of the `do` loop for a newline. -/
theorem Checked.doPass_newline_eq (hout : 16 ≤ outsize) (hin : outsize ≤ insize)
    (hs : s.Bounded outsize insize) (hpc : s.pc = .top) (hge : ¬s.eob < s.bpin) :
    Checked.doPass (bufsize outsize insize) insize f outsize s =
      some (Cat.doPass f outsize insize s) ∧
    ∀ s', Cat.doPass f outsize insize s = .inl s' → s'.Bounded outsize insize := by
  have hcap : bufsize outsize insize = outsize - 1 + insize * 4 + 20 := rfl
  have hflush := Out.flush_bpout_lt (show 0 < outsize by omega) s.out
  have hch : s.ch = 10 := hs.inv.newline hpc (Nat.le_of_not_lt hge)
  obtain ⟨hnewline, hbpout, hnum⟩ :
      Checked.newline (bufsize outsize insize) f { s with out := s.out.flush outsize } = _ ∧ _ :=
    Checked.newline_eq hs.lineNum (show (s.out.flush outsize).bpout + 21 ≤ _ by omega)
  obtain ⟨o, hu, -⟩ := newline_spec (f := f) (s := { s with out := s.out.flush outsize }) hch
  have hline : Cat.doPass f outsize insize s =
      .inl (Cat.nextChar f (Cat.newline f { s with out := s.out.flush outsize })) := by
    rw [Cat.doPass]
    simp only [if_neg hge]
  have hbpin : (Cat.newline f { s with out := s.out.flush outsize }).bpin = s.bpin := by rw [hu]
  have heob : (Cat.newline f { s with out := s.out.flush outsize }).eob = s.eob := by rw [hu]
  have hsmall : (Cat.newline f { s with out := s.out.flush outsize }).out.bpout ≤ outsize + 20 := by
    refine hbpout.trans ?_
    show (s.out.flush outsize).bpout + 21 ≤ _
    omega
  obtain ⟨heq, hbounded⟩ := Checked.nextChar_bounded hin hsmall hnum (by omega)
    (by rw [heob]; exact hs.eob_le) (hs.inv.doPass (by omega) (by omega) hpc hline) hout
  refine ⟨?_, ?_⟩
  · rw [hline, Checked.doPass]
    simp only [if_neg hge, hnewline, Option.bind_eq_bind, Option.bind_some, heq, Option.map_some]
  · intro s' hs'
    obtain rfl := Sum.inl.inj (hline.symm.trans hs')
    exact hbounded

/-- A pass of either loop. -/
theorem Checked.pass_eq (hout : 16 ≤ outsize) (hin : outsize ≤ insize)
    (hs : s.Bounded outsize insize) :
    Checked.pass (bufsize outsize insize) insize f outsize s = some (Cat.pass f outsize insize s) ∧
    ∀ s', Cat.pass f outsize insize s = .inl s' → s'.Bounded outsize insize := by
  cases hpc : s.pc with
  | top =>
    have hne : outsize ≠ 0 := by omega
    simp only [Checked.pass, Cat.pass, hpc, if_neg hne]
    by_cases hlt : s.eob < s.bpin
    · exact Checked.doPass_fill_eq hout hin hs hpc hlt
    · exact Checked.doPass_newline_eq hout hin hs hpc hlt
  | line =>
    obtain ⟨heq, hbounded⟩ := Checked.linePass_eq (f := f) hout hin hs hpc
    rw [Checked.pass, Cat.pass, hpc]
    refine ⟨congrArg (Option.map Sum.inl) heq, ?_⟩
    rintro s' ⟨⟩
    exact hbounded

/-! ## The files -/

/-- The end of a file leaves the line number. -/
theorem pass_end_lineNum {t : State} (h : Cat.pass f outsize insize s = .inr t) :
    t.lineNum = s.lineNum := by
  rw [Cat.pass] at h
  split at h
  · split at h
    · cases h
    · rw [doPass] at h
      simp only at h
      split at h
      · split at h
        · obtain rfl := Sum.inr.inj h
          rfl
        · cases h
      · cases h
  · cases h

/-- `cat` keeps within the buffers of a file, and leaves a line number to count on from. -/
theorem Checked.cat_eq (hout : 16 ≤ outsize) {file : File} (hin : outsize ≤ file.insize) {g : Globals}
    (hg : g.lineNum.Fits) (fuel : ℕ) :
    Checked.cat f outsize fuel g file = some (Cat.cat f outsize fuel g file) ∧
      ∀ g', Cat.cat f outsize fuel g file = some g' → g'.lineNum.Fits := by
  have hstart : (start file g).Bounded outsize file.insize :=
    ⟨⟨Nat.le_refl _, nofun, nofun, nofun⟩, Nat.zero_le _, hg, nofun⟩
  refine ⟨?_, ?_⟩
  · have hloop := partialLoop_eq (I := State.Bounded outsize file.insize)
      (fun s hs => Checked.pass_eq (f := f) hout hin hs) hstart fuel
    rw [Checked.cat, hloop]
    rfl
  · intro g' hret
    obtain ⟨t, hloop, rfl⟩ := Option.map_eq_some_iff.mp hret
    refine loop_result (I := State.Bounded outsize file.insize) (Q := fun t => t.lineNum.Fits) ?_ hstart
      hloop
    intro s hs
    refine ⟨(Checked.pass_eq hout hin hs).2, ?_⟩
    intro t ht
    rw [pass_end_lineNum ht]
    exact hs.lineNum

/-- The files one after the other. -/
theorem Checked.files_eq (hout : 16 ≤ outsize) {fs : List File}
    (hin : ∀ file ∈ fs, outsize ≤ file.insize)
    {g : Globals} (hg : g.lineNum.Fits) (fuel : ℕ) :
    Checked.files f outsize fuel g fs = some (fs.foldlM (Cat.cat f outsize fuel) g) := by
  induction fs generalizing g with
  | nil => rfl
  | cons file fs ih =>
    obtain ⟨heq, hnum⟩ := Checked.cat_eq (f := f) hout (hin file List.mem_cons_self) hg fuel
    rw [Checked.files, heq, List.foldlM_cons]
    rcases hcat : Cat.cat f outsize fuel g file with _ | g'
    · rfl
    · exact ih (fun file hmem => hin file (List.mem_cons_of_mem _ hmem)) (hnum g' hcat)

/-- `cat`, for all options, files and sizes of blocks, the buffers being at least as large as the
blocks of the output: it stores nothing behind the output buffer and reads nothing behind the
sentinel. -/
theorem cat_in_bounds (opts : List Char) (hout : 16 ≤ outsize) (fs : List File)
    (hin : ∀ file ∈ fs, outsize ≤ file.insize) (fuel : ℕ) :
    Checked.mainLoop opts outsize fuel fs = some (mainLoop opts outsize fuel fs) :=
  Checked.files_eq hout hin LineNum.fits_init fuel

/-- `cat -n` of two lines, with blocks of 16 bytes. -/
theorem cat_in_bounds_two :
    Checked.mainLoop ['n'] 16 9 [⟨[97, 10, 98], 16, by decide, fun _ => 0, fun _ => 0⟩] =
      some (mainLoop ['n'] 16 9 [⟨[97, 10, 98], 16, by decide, fun _ => 0, fun _ => 0⟩]) :=
  cat_in_bounds ['n'] (by decide) _ (by simp) 9

end Cat

end Ulsp
