import Ulsp.Cat.Transform

/-!
# `cat` over buffers and files

What is left of the input is the byte in `ch`, the bytes of the buffer before the sentinel, and the
file; past the sentinel only the file is left. `State.outcome` is what the output, `newlines` and the
line number come to when the rest of the input is followed byte by byte. Every pass keeps it, whether
it takes a byte, reads the sentinel or fills the buffer, so the output depends on the bytes alone.
-/

namespace Ulsp

open Lib

namespace Cat

variable {f : Flags} {s s' : State} {c : UInt8} {cs ds acc : List UInt8} {newlines : ℤ}
  {n : LineNum} {outsize insize : ℕ}

/-! ## The input to come -/

/-- What follows a sequence of bytes that is output after `acc`. -/
def follow (f : Flags) (acc : List UInt8) (newlines : ℤ) (n : LineNum) (cs : List UInt8) :
    List UInt8 × ℤ × LineNum :=
  (acc ++ (trans f newlines n cs).1, (trans f newlines n cs).2)

/-- Nothing is emitted for no characters. -/
@[simp]
theorem follow_nil : follow f acc newlines n [] = (acc, newlines, n) := by
  simp [follow, trans]

/-- A character and those behind it. -/
theorem follow_cons : follow f acc newlines n (c :: cs) =
    follow f (acc ++ (emit f newlines n c).1) (emit f newlines n c).2.1 (emit f newlines n c).2.2
      cs := by
  simp only [follow, trans_cons, List.append_assoc]

/-- The characters of two parts, one after the other. -/
theorem follow_append : follow f acc newlines n (cs ++ ds) =
    follow f (follow f acc newlines n cs).1 (follow f acc newlines n cs).2.1
      (follow f acc newlines n cs).2.2 ds := by
  simp only [follow, trans_append, List.append_assoc]

/-- The input after `ch`. -/
def State.rest (s : State) : List UInt8 := s.inbuf.slice s.bpin (s.eob - s.bpin) ++ s.file

/-- The input to come, with `ch`. -/
def State.remaining (s : State) : List UInt8 :=
  if s.eob < s.bpin then s.file else s.ch :: s.rest

/-- The value of `newlines` that counts: in a line it is set at its end only. -/
def State.mode (s : State) : ℤ :=
  match s.pc with
  | .top => s.newlines
  | .line => -1

/-- What the output, `newlines` and the line number come to. -/
def State.outcome (f : Flags) (s : State) : List UInt8 × ℤ × LineNum :=
  follow f s.out.appended s.mode s.lineNum s.remaining

/-- The sentinel stands at the end of the buffer, and `ch` is a newline in the `do` loop, unless the
buffer is to be filled, and in a line when the sentinel was read. -/
structure State.Inv (s : State) : Prop where
  bpin_le : s.bpin ≤ s.eob + 1
  sentinel : s.bpin ≤ s.eob → s.inbuf s.eob = 10
  newline : s.pc = .top → s.bpin ≤ s.eob → s.ch = 10
  at_end : s.pc = .line → s.eob < s.bpin → s.ch = 10

/-- The passes that are left at most. -/
def State.passes (s : State) : ℕ :=
  4 * s.remaining.length + (if s.eob < s.bpin then 2 else 0) + if s.pc = .line then 1 else 0

/-- `t` has taken the next byte of `s`. -/
structure State.Takes (s t : State) : Prop where
  inbuf : t.inbuf = s.inbuf
  bpin : t.bpin = s.bpin + 1
  eob : t.eob = s.eob
  ch : t.ch = s.inbuf s.bpin
  file : t.file = s.file

/-- The next byte, before the sentinel. -/
theorem State.rest_cons (hlt : s.bpin < s.eob) : ∃ cs, s.rest = s.inbuf s.bpin :: cs := by
  obtain ⟨k, hk⟩ : ∃ k, s.eob - s.bpin = k + 1 := ⟨s.eob - s.bpin - 1, by omega⟩
  exact ⟨_, by rw [State.rest, hk, Buffer.slice_succ, List.cons_append]⟩

/-- What is left is what followed `ch`. -/
theorem State.Takes.remaining (h : s.Takes s') (hle : s.bpin ≤ s.eob) : s'.remaining = s.rest := by
  rw [State.remaining, State.rest, State.rest, h.inbuf, h.bpin, h.eob, h.ch, h.file]
  split
  · rw [show s.eob - s.bpin = 0 by omega, Buffer.slice_zero, List.nil_append]
  · rw [show s.eob - s.bpin = s.eob - (s.bpin + 1) + 1 by omega, Buffer.slice_succ,
      List.cons_append]

/-- Taking a character up to the sentinel keeps the invariant. -/
theorem State.Takes.inv (h : s.Takes s') (hle : s.bpin ≤ s.eob) (hsent : s.inbuf s.eob = 10)
    (htop : s'.pc = .top → s'.ch = 10) : s'.Inv := by
  refine ⟨?_, ?_, fun hpc _ => htop hpc, ?_⟩
  · rw [h.bpin, h.eob]
    omega
  · intro _
    rw [h.inbuf, h.eob, hsent]
  · intro _ hlt
    rw [h.bpin, h.eob] at hlt
    rw [h.ch, show s.bpin = s.eob by omega, hsent]

/-! ## The output buffer -/

/-- Writing out changes nothing in what was appended so far. -/
theorem Out.writeOut_appended (fuel wout rem : ℕ) (o : Out) :
    (Out.writeOut outsize fuel wout rem o).2.2.appended = o.appended := by
  induction fuel generalizing wout rem o with
  | zero => rfl
  | succ fuel ih =>
    rw [Out.writeOut]
    split
    · rw [ih]
    · rfl

/-- Nor does a flush. -/
@[simp]
theorem Out.flush_appended (o : Out) : (o.flush outsize).appended = o.appended := by
  rw [Out.flush]
  split
  · exact Out.writeOut_appended _ _ _ _
  · rfl

/-! ## The passes -/

/-- A byte of a line. -/
theorem emit_line (hc : c ≠ 10) : emit f (-1) n c = (copy f c, -1, n) := by simp [emit, hc]

/-- The next byte after a pass of the `do` loop is taken, and a number is written if it begins a
line. -/
theorem takes_nextChar (s : State) : s.Takes (nextChar f s) := by
  rw [nextChar]
  split
  · exact ⟨rfl, rfl, rfl, rfl, rfl⟩
  · split <;> exact ⟨rfl, rfl, rfl, rfl, rfl⟩

/-- The program comes back to the top of its loop at a newline. -/
theorem nextChar_top (h : (nextChar f s).pc = .top) : (nextChar f s).ch = 10 := by
  rw [(takes_nextChar s).ch]
  rw [nextChar] at h
  split at h
  · assumption
  · cases h

/-- `nextChar` leads to the same outcome as following the bytes that are left. -/
theorem nextChar_outcome (hle : s.bpin ≤ s.eob) (hsent : s.inbuf s.eob = 10) :
    (nextChar f s).outcome f = follow f s.out.appended s.newlines s.lineNum s.rest := by
  rw [State.outcome, (takes_nextChar s).remaining hle]
  rcases Decidable.em (s.inbuf s.bpin = 10) with hch | hch
  · have hnext : nextChar f s = { s.advance with pc := .top } := by
      simp [nextChar, State.advance, hch]
    rw [hnext]
    rfl
  · have hlt : s.bpin < s.eob := Nat.lt_of_le_of_ne hle fun h => hch (h ▸ hsent)
    obtain ⟨cs, hcs⟩ := s.rest_cons hlt
    rw [hcs, follow_cons, follow_cons]
    rcases Decidable.em (0 ≤ s.newlines ∧ f.nflag) with hnum | hnum
    · have hnext : nextChar f s = { s.advance.number with pc := .line } := by
        simp [nextChar, State.advance, hch, hnum]
      simp [hnext, State.mode, State.number, State.advance, Out.stpcpy, emit, hch, hnum]
    · have hnext : nextChar f s = { s.advance with pc := .line } := by
        simp [nextChar, State.advance, hch, hnum]
      simp [hnext, State.mode, State.advance, emit, hch, hnum]

/-- At a newline `endLine` appends the ending of the line, and changes nothing else. -/
theorem endLine_spec (hch : s.ch = 10) :
    ∃ o, endLine f s = { s with out := o } ∧ o.appended = s.out.appended ++ ending f := by
  refine ⟨_, rfl, ?_⟩
  cases hE : f.Eflag <;> simp [ending, Out.put, hE, hch]

/-- The branch of the `do` loop for a newline leaves the input alone, and does what a newline does. -/
theorem newline_spec (hch : s.ch = 10) :
    ∃ o, newline f s = { s with
        newlines := (emitNewline f s.newlines s.lineNum).2.1
        lineNum := (emitNewline f s.newlines s.lineNum).2.2
        out := o } ∧
      o.appended = s.out.appended ++ (emitNewline f s.newlines s.lineNum).1 := by
  rw [newline, emitNewline]
  dsimp only
  rcases Decidable.em (0 < s.newlines + 1) with hpos | hpos
  · have hcap : (2 ≤ if 2 ≤ s.newlines + 1 then 2 else s.newlines + 1) ↔ 2 ≤ s.newlines + 1 := by
      split <;> omega
    simp only [if_pos hpos, hcap]
    rcases Decidable.em (2 ≤ s.newlines + 1 ∧ f.sflag) with hs | hs
    · simp only [if_pos hs]
      exact ⟨s.out, by simp [hs], by simp⟩
    · simp only [if_neg hs]
      cases hn : f.nflag && !f.bflag with
      | true =>
        obtain ⟨o, ho, happ⟩ := endLine_spec (f := f) (s := State.number
          { s with newlines := if 2 ≤ s.newlines + 1 then 2 else s.newlines + 1 }) hch
        exact ⟨o, ho, by simpa [State.number, Out.stpcpy] using happ⟩
      | false =>
        obtain ⟨o, ho, happ⟩ := endLine_spec (f := f) (s :=
          { s with newlines := if 2 ≤ s.newlines + 1 then 2 else s.newlines + 1 }) hch
        exact ⟨o, ho, happ⟩
  · simp only [if_neg hpos]
    obtain ⟨o, ho, happ⟩ := endLine_spec (f := f) (s := { s with newlines := s.newlines + 1 }) hch
    exact ⟨o, ho, happ⟩

/-- What a pass keeps: the invariant and the outcome, and there are fewer passes left. -/
structure State.Keeps (f : Flags) (s t : State) : Prop where
  inv : t.Inv
  outcome : t.outcome f = s.outcome f
  passes : t.passes < s.passes

/-- A state that has taken `ch` has fewer passes left. -/
theorem State.Takes.passes (h : s.Takes s') (hle : s.bpin ≤ s.eob) : s'.passes < s.passes := by
  have hrem : s.remaining.length = s'.remaining.length + 1 := by
    rw [h.remaining hle, State.remaining, if_neg (by omega), List.length_cons]
  rw [State.passes, State.passes]
  split <;> split <;> omega

/-- A pass of the loop over the bytes of a line. -/
theorem linePass_keeps (hs : s.Inv) (hpc : s.pc = .line) : s.Keeps f (linePass f s) := by
  rcases Decidable.em (s.ch = 10) with hch | hch
  · have hpass : linePass f s = { s with newlines := -1, pc := .top } := by
      simp [linePass, hch]
    rw [hpass]
    refine ⟨⟨hs.bpin_le, hs.sentinel, fun _ _ => hch, nofun⟩, ?_, ?_⟩
    · simp [State.outcome, State.mode, State.remaining, State.rest, hpc]
    · simp [State.passes, State.remaining, State.rest, hpc]
  · have hle : s.bpin ≤ s.eob := Nat.le_of_not_lt fun hlt => hch (hs.at_end hpc hlt)
    obtain ⟨o, hpass, happ⟩ : ∃ o, linePass f s = { s with out := o }.advance ∧
        o.appended = s.out.appended ++ copy f s.ch := by
      rcases Decidable.em (s.ch = 9 ∧ f.Tflag) with htab | htab
      · exact ⟨_, by rw [linePass, if_pos htab], by simp [Out.put, copy, htab]⟩
      · exact ⟨_, by rw [linePass, if_neg htab, if_pos hch], by simp [Out.put, copy, htab]⟩
    have htakes : s.Takes (linePass f s) := hpass ▸ ⟨rfl, rfl, rfl, rfl, rfl⟩
    have hpc' : (linePass f s).pc = .line := by rw [hpass]; exact hpc
    refine ⟨htakes.inv hle (hs.sentinel hle) (by simp [hpc']), ?_, htakes.passes hle⟩
    have hrem : s.remaining = s.ch :: s.rest := if_neg (by omega)
    rw [State.outcome, State.outcome, htakes.remaining hle, hrem, follow_cons]
    simp only [State.mode, hpc, hpc', emit_line hch, ← happ]
    rw [hpass]
    rfl

/-- The end of a pass of the `do` loop. -/
theorem nextChar_keeps (hle : s'.bpin ≤ s'.eob) (hsent : s'.inbuf s'.eob = 10)
    (hout : follow f s'.out.appended s'.newlines s'.lineNum s'.rest = s.outcome f)
    (hlt : (nextChar f s').passes < s.passes) : s.Keeps f (nextChar f s') :=
  ⟨(takes_nextChar s').inv hle hsent nextChar_top, (nextChar_outcome hle hsent).trans hout, hlt⟩

/-- A pass of the `do` loop for a newline. -/
theorem doPass_newline (hs : s.Inv) (hpc : s.pc = .top) (hle : s.bpin ≤ s.eob) :
    ∃ t, doPass f outsize insize s = .inl t ∧ s.Keeps f t := by
  have hch : s.ch = 10 := hs.newline hpc hle
  have hrem : s.remaining = s.ch :: s.rest := if_neg (by omega)
  obtain ⟨o, hnew, happ⟩ := newline_spec (f := f) (s := { s with out := s.out.flush outsize }) hch
  refine ⟨_, by rw [doPass, if_neg (Nat.not_lt.mpr hle)], ?_⟩
  dsimp only at hnew happ ⊢
  generalize newline f _ = u at hnew ⊢
  have hbpin : u.bpin = s.bpin := by rw [hnew]
  have heob : u.eob = s.eob := by rw [hnew]
  have hrest : u.rest = s.rest := by rw [hnew]; rfl
  have hle' : u.bpin ≤ u.eob := by omega
  refine nextChar_keeps hle' ?_ ?_ ?_
  · rw [hnew]
    exact hs.sentinel hle
  · rw [State.outcome, hrem, hrest, follow_cons, hch, hnew]
    simp only [State.mode, hpc, emit, if_true, happ, Out.flush_appended]
  · have hpasses : u.passes = s.passes := by
      rw [hnew]
      rfl
    exact hpasses ▸ (takes_nextChar u).passes hle'

/-- The buffer after it was filled: the bytes read, before the sentinel. -/
theorem slice_refill (b : Buffer) (bytes : List UInt8) :
    Buffer.slice 0 bytes.length (Function.update (b.store 0 bytes) bytes.length 10) = bytes := by
  have htake : Buffer.take (0 + bytes.length) (b.store 0 bytes) = b.take 0 ++ bytes :=
    Buffer.take_store
  rw [Nat.zero_add, show Buffer.take 0 b = [] from rfl, List.nil_append] at htake
  simp only [Buffer.slice, Nat.zero_add]
  rw [Buffer.take_update (Nat.le_refl _), htake]

/-- A pass of the `do` loop that fills the buffer. -/
theorem doPass_refill (hpc : s.pc = .top) (hlt : s.eob < s.bpin) (hsize : 0 < insize)
    (hfile : s.file ≠ []) : ∃ t, doPass f outsize insize s = .inl t ∧ s.Keeps f t := by
  have hrem : s.remaining = s.file := if_pos hlt
  have hbytes : s.file.take insize ≠ [] := by
    simp [List.take_eq_nil_iff, hfile, Nat.ne_of_gt hsize]
  refine ⟨_, by simp only [doPass, if_pos hlt, if_neg hbytes]; rfl, ?_⟩
  generalize hu : State.mk _ _ _ _ _ _ _ _ _ = u
  have hbpin : u.bpin = 0 := hu ▸ rfl
  have heob : u.eob = (s.file.take insize).length := hu ▸ rfl
  have hpos : 0 < u.eob := heob ▸ List.length_pos_iff.mpr hbytes
  have hrest : u.rest = s.file := by
    rw [State.rest, hbpin, heob, Nat.sub_zero, ← hu, slice_refill, List.take_append_drop]
  have hle : u.bpin ≤ u.eob := by omega
  have htakes := takes_nextChar (f := f) u
  refine nextChar_keeps hle ?_ ?_ ?_
  · rw [← hu]
    exact Function.update_self _ _ _
  · rw [hrest, State.outcome, hrem, State.mode, hpc, ← hu]
    simp [Out.writePending]
  · rw [State.passes, State.passes, htakes.remaining hle, htakes.bpin, htakes.eob, hrest, hrem,
      if_neg (by omega), if_pos hlt]
    split <;> omega

/-- A pass of the `do` loop that finds the end of the file. -/
theorem doPass_end (hpc : s.pc = .top) (hlt : s.eob < s.bpin) (hfile : s.file = []) :
    ∃ t, doPass f outsize insize s = .inr t ∧
      (t.out.appended, t.newlines, t.lineNum) = s.outcome f := by
  have hrem : s.remaining = [] := by rw [State.remaining, if_pos hlt, hfile]
  refine ⟨_, by simp only [doPass, if_pos hlt, hfile, List.take_nil, if_true]; rfl, ?_⟩
  simp [State.outcome, hrem, State.mode, hpc, Out.writePending]

/-- A pass of either loop goes on and keeps the outcome, or ends with it. -/
theorem pass_spec (hs : s.Inv) (hout : 0 < outsize) (hsize : 0 < insize) :
    (∃ t, pass f outsize insize s = .inl t ∧ s.Keeps f t) ∨
      ∃ t, pass f outsize insize s = .inr t ∧
        (t.out.appended, t.newlines, t.lineNum) = s.outcome f := by
  cases hpc : s.pc with
  | line => exact .inl ⟨_, by rw [pass, hpc], linePass_keeps hs hpc⟩
  | top =>
    have hpass : pass f outsize insize s = doPass f outsize insize s := by
      simp only [pass, hpc, if_neg hout.ne']
    rw [hpass]
    rcases Nat.lt_or_ge s.eob s.bpin with hlt | hle
    · rcases Decidable.em (s.file = []) with hfile | hfile
      · exact .inr (doPass_end hpc hlt hfile)
      · exact .inl (doPass_refill hpc hlt hsize hfile)
    · exact .inl (doPass_newline hs hpc hle)

/-! ## The files -/

/-- `cat` goes through a file byte by byte, from the state that the files before it left. -/
theorem cat_follows (f : Flags) (hout : 0 < outsize) (g : Globals) (file : File) :
    ∃ g', Returns (fun fuel => cat f outsize fuel g file) g' ∧
      (g'.appended, g'.newlines2, g'.lineNum) =
        follow f g.appended g.newlines2 g.lineNum file.contents := by
  have hstart : (start file g).Inv := ⟨Nat.le_refl _, nofun, nofun, nofun⟩
  obtain ⟨t, ht, houtcome⟩ : ∃ t, Returns (fun fuel => loop (pass f outsize file.insize) fuel
      (start file g)) t ∧ (t.out.appended, t.newlines, t.lineNum) = (start file g).outcome f := by
    refine loop_returns (I := fun s => s.Inv ∧ s.outcome f = (start file g).outcome f) State.passes
      (fun s ⟨hs, heq⟩ => ?_) ⟨hstart, rfl⟩
    rw [← heq]
    exact (pass_spec hs hout file.insize_pos).imp_left fun ⟨t, ht, hk⟩ =>
      ⟨t, ht, ⟨hk.inv, hk.outcome⟩, hk.passes⟩
  exact ⟨_, ht.map _, houtcome⟩

/-- The files are gone through as one. -/
theorem files_follow (f : Flags) (hout : 0 < outsize) (g : Globals) (files : List File) :
    ∃ g', Returns (fun fuel => files.foldlM (cat f outsize fuel) g) g' ∧
      (g'.appended, g'.newlines2, g'.lineNum) =
        follow f g.appended g.newlines2 g.lineNum (files.flatMap File.contents) := by
  induction files generalizing g with
  | nil => exact ⟨g, ⟨0, fun _ _ => rfl⟩, follow_nil.symm⟩
  | cons file files ih =>
    obtain ⟨g₁, hret₁, h₁⟩ := cat_follows f hout g file
    obtain ⟨g₂, hret₂, h₂⟩ := ih g₁
    refine ⟨g₂, ?_, ?_⟩
    · simp only [List.foldlM_cons]
      exact hret₁.bind hret₂
    · rw [h₂, List.flatMap_cons, follow_append, ← h₁]

/-- What `cat` appends to its output is the transform of the files, one after the other, whatever
the sizes of their buffers and of the blocks of the output. -/
theorem cat_computes_reference (opts : List Char) (hout : 0 < outsize) (files : List File) :
    ∃ g, Returns (fun fuel => mainLoop opts outsize fuel files) g ∧
      g.appended = reference (flagsOf opts) (files.flatMap File.contents) := by
  obtain ⟨g, hret, hg⟩ := files_follow (flagsOf opts) hout ⟨0, .init, [], []⟩ files
  refine ⟨g, hret, ?_⟩
  have happ := congrArg Prod.fst hg
  rw [follow, List.nil_append] at happ
  exact happ.trans (trans_eq_reference _ (Int.le_refl 0))

/-- Two files, read by two bytes and by one, the first of which ends within a line; an empty line is
left out, and a tab shown. -/
theorem cat_computes_reference_two : ∃ g, Returns (fun fuel => mainLoop ['s', 'b', 'T', 'E'] 4 fuel
      [⟨[97, 10, 10, 10, 9], 2, by decide, fun _ => 0, fun _ => 0⟩,
        ⟨[98, 10], 1, by decide, fun _ => 0, fun _ => 0⟩]) g ∧
    g.appended = [32, 32, 32, 32, 32, 49, 9, 97, 36, 10, 36, 10, 32, 32, 32, 32, 32, 50, 9, 94, 73, 98,
      36, 10] := by
  obtain ⟨g, hret, hg⟩ := cat_computes_reference ['s', 'b', 'T', 'E'] (show 0 < 4 by decide)
    [⟨[97, 10, 10, 10, 9], 2, by decide, fun _ => 0, fun _ => 0⟩,
      ⟨[98, 10], 1, by decide, fun _ => 0, fun _ => 0⟩]
  exact ⟨g, hret, hg.trans (by decide)⟩

end Cat

end Ulsp
