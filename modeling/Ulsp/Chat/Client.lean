import Ulsp.Lib.Buffer
import Ulsp.Lib.Run

/-!
# The select chat client (`net/chat_client_select.c`)

The loop of `main`, one step for each round of the environment: which of the descriptors are ready, and
the line that is read when stdin is. A round in which `select` reports nothing that the client watches
leaves it waiting. The server does not close the connection, and what it sends, which is only printed,
is left out, as is the end of stdin, which fails an assertion. `none` is a line that does not fit into
`send_buf`.

The client watches for the socket to become writable until it has written, and no longer than until the
next round in which stdin is not readable, whether it has written or not. `sent_iff`: it writes its name
and all lines, once and in order, exactly if nothing else is ready before the socket is writable, for
the name and after each line, and the lines are strings that fit.
-/

namespace Ulsp

open Lib

namespace ChatClient

/-- `BUFSIZE`. -/
def bufsize : ℕ := 512

/-- What is ready: stdin, with the line that is read from it, and the socket for reading and writing. -/
structure Round where
  line : Option (List UInt8)
  readable : Bool
  writable : Bool
  deriving DecidableEq, Repr

/-- The lines that are read. -/
def linesOf (rounds : List Round) : List (List UInt8) := rounds.filterMap Round.line

/-- The client: whether the socket is in `write_fds`, and what was written to it. -/
structure State where
  writeFds : Bool
  welcome : Bool
  sendBuf : Buffer
  written : List (List UInt8)

/-- Before the loop. -/
def init : State := ⟨true, true, fun _ => 0, []⟩

/-- The socket is writable and the client watches for it. -/
def State.canWrite (s : State) (r : Round) : Bool := s.writeFds && r.writable

/-- `select` reports something. -/
def State.Selects (s : State) (r : Round) : Prop :=
  r.line ≠ none ∨ r.readable = true ∨ s.canWrite r = true

instance (s : State) (r : Round) : Decidable (s.Selects r) := by
  unfold State.Selects
  infer_instance

/-- `write`, of the name or of `send_buf`. -/
def State.write (name : List UInt8) (s : State) : Option State :=
  let text := if s.welcome then some name else s.sendBuf.cstring bufsize
  text.map fun text => { s with welcome := false, written := s.written ++ [text], writeFds := false }

/-- `memset` of `send_buf` and `scanf`, which stores nothing for an empty line. -/
def scanLine (line : List UInt8) : Option Buffer :=
  if line = [] then some fun _ => 0 else Buffer.writeAt bufsize (fun _ => 0) 0 (line ++ [0])

/-- The branches on whether stdin is readable. -/
def State.read (line : Option (List UInt8)) (s : State) : Option State :=
  match line with
  | none => some { s with writeFds := false }
  | some line => do
    let sendBuf ← scanLine line
    return { s with sendBuf, writeFds := true }

/-- A round. -/
def next (name : List UInt8) (s : State) (r : Round) : Option State :=
  if s.Selects r then
    (if s.canWrite r then s.write name else some s).bind (State.read r.line)
  else some s

/-- Nothing is ready. -/
def Round.quiet (r : Round) : Bool := r.line.isNone && !r.readable && !r.writable

/-- The socket is writable in the first round in which anything is ready. -/
def WritableFirst (rounds : List Round) : Prop :=
  ∃ r ∈ rounds.find? fun r => !r.quiet, r.writable = true

/-- It is so after every round in which a line is read. -/
def LinesServed (rounds : List Round) : Prop :=
  ∀ before r after, rounds = before ++ r :: after → r.line ≠ none → WritableFirst after

/-- The line read in a round and those of the later rounds. -/
theorem linesOf_cons {r : Round} {rounds : List Round} :
    linesOf (r :: rounds) = r.line.toList ++ linesOf rounds := by
  rw [linesOf, List.filterMap_cons]
  cases r.line <;> rfl

variable {name text line : List UInt8} {s t : State} {r : Round} {rounds : List Round}

/-! ## Rounds -/

/-- A line is sent if the round is writable, or if it is quiet and the later rounds send it. -/
theorem writableFirst_cons :
    WritableFirst (r :: rounds) ↔ r.writable = true ∨ r.quiet = true ∧ WritableFirst rounds := by
  unfold WritableFirst
  rw [List.find?_cons]
  cases hquiet : r.quiet with
  | true =>
    have hw : r.writable = false := by
      simp only [Round.quiet, Bool.and_eq_true, Bool.not_eq_true'] at hquiet
      exact hquiet.2
    simp [hw]
  | false => simp

/-- A round in which a line is read or the server has sent is not quiet. -/
theorem quiet_eq_false (h : r.line ≠ none ∨ r.readable = true) : r.quiet = false := by
  rcases h with hl | hr
  · simp [Round.quiet, Option.isNone_iff_eq_none.not.mpr hl]
  · simp [Round.quiet, hr]

/-- `select` does not return in a quiet round. -/
theorem not_selects_of_quiet (h : r.quiet = true) : ¬ s.Selects r := by
  simp only [Round.quiet, Bool.and_eq_true, Option.isNone_iff_eq_none, Bool.not_eq_true'] at h
  obtain ⟨⟨hl, hr⟩, hw⟩ := h
  simp [State.Selects, State.canWrite, hl, hr, hw]

/-- The lines of a run are served if the first one is and the later ones are. -/
theorem linesServed_cons :
    LinesServed (r :: rounds) ↔ (r.line ≠ none → WritableFirst rounds) ∧ LinesServed rounds := by
  refine ⟨?_, ?_⟩
  · intro h
    refine ⟨h [] r rounds rfl, ?_⟩
    rintro before r' after rfl
    exact h (r :: before) r' after rfl
  · rintro ⟨hfirst, hrest⟩ before r' after heq
    cases before with
    | nil =>
      cases heq
      exact hfirst
    | cons _ before =>
      cases heq
      exact hrest before r' after rfl

/-! ## Steps -/

/-- A line in `send_buf`. -/
theorem scanLine_eq_some {b : Buffer} (h : scanLine line = some b) :
    line.length < bufsize ∧ b.Holds (line.takeWhile (· ≠ 0)) := by
  unfold scanLine at h
  split at h
  · rename_i hnil
    rw [← Option.some.inj h, hnil]
    exact ⟨by decide, rfl, rfl, List.not_mem_nil⟩
  · obtain ⟨hfit, rfl⟩ := Buffer.writeAt_eq_some h
    rw [List.length_append, List.length_singleton] at hfit
    rw [← Buffer.takeWhile_concat_zero]
    exact ⟨by omega, Buffer.holds_store_takeWhile⟩

/-- A line that fits, with its zero byte, is scanned. -/
theorem exists_scanLine (h : line.length < bufsize) : ∃ b, scanLine line = some b := by
  unfold scanLine
  split
  · exact ⟨_, rfl⟩
  · exact ⟨_, Buffer.writeAt_of_le (i := 0) (by rw [List.length_append, List.length_singleton]; omega)⟩

/-- What reading leaves: the client watches for the socket if there was a line. -/
theorem read_eq_some (h : s.read r.line = some t) : t.writeFds = r.line.isSome ∧
    t.written = s.written ∧ ∀ line ∈ r.line, line.length < bufsize := by
  cases hline : r.line with
  | none =>
    rw [hline] at h
    cases h
    exact ⟨rfl, rfl, nofun⟩
  | some line =>
    rw [hline] at h
    obtain ⟨b, hb, h⟩ := Option.bind_eq_some_iff.mp h
    cases h
    refine ⟨rfl, rfl, ?_⟩
    rintro _ ⟨⟩
    exact (scanLine_eq_some hb).1

/-- What writing leaves. -/
theorem write_eq_some (h : s.write name = some t) : ∃ text,
    t.written = s.written ++ [text] := by
  obtain ⟨text, -, rfl⟩ := Option.map_eq_some_iff.mp h
  exact ⟨text, rfl⟩

/-- The cases of a round. -/
inductive Moves (name : List UInt8) (s : State) (r : Round) (t : State) : Prop
  | waits : r.line = none → r.readable = false → s.canWrite r = false → t = s → Moves name s r t
  | writes (u : State) : s.canWrite r = true → s.write name = some u → u.read r.line = some t →
    Moves name s r t
  | reads : s.canWrite r = false → r.line ≠ none ∨ r.readable = true → s.read r.line = some t →
    Moves name s r t

/-- What one round can do. -/
theorem next_cases (h : next name s r = some t) : Moves name s r t := by
  unfold next at h
  split at h
  · rename_i hsel
    obtain ⟨u, hu, h⟩ := Option.bind_eq_some_iff.mp h
    split at hu
    · rename_i hw
      exact .writes u hw hu h
    · rename_i hw
      cases hu
      refine .reads (Bool.eq_false_iff.mpr hw) ?_ h
      rcases hsel with hl | hr | hw'
      · exact .inl hl
      · exact .inr hr
      · exact absurd hw' hw
  · rename_i hsel
    simp only [State.Selects, not_or, not_not, Bool.not_eq_true] at hsel
    exact .waits hsel.1 hsel.2.1 hsel.2.2 (Option.some.inj h).symm

/-! ## What is lost -/

/-- The texts that are written or waiting. -/
def State.due (s : State) : ℕ := s.written.length + s.writeFds.toNat

/-- The client stops waiting without having written. -/
def State.loses (s : State) (r : Round) : Bool := s.writeFds && !r.writable && !r.quiet

/-- A line is one more text, unless one is lost. -/
theorem due_step (h : next name s r = some t) :
    t.due + (s.loses r).toNat = s.due + r.line.toList.length := by
  have hline : r.line.toList.length = r.line.isSome.toNat := by cases r.line <;> rfl
  rw [hline]
  cases next_cases h with
  | waits hl hr hw heq =>
    subst heq
    simp only [State.canWrite, Bool.and_eq_false_iff] at hw
    rcases hw with hw | hw <;> simp [State.loses, Round.quiet, hl, hr, hw]
  | writes u hw hu ht =>
    obtain ⟨text, hwritten⟩ := write_eq_some hu
    obtain ⟨hfds, hsame, -⟩ := read_eq_some ht
    simp only [State.canWrite, Bool.and_eq_true] at hw
    simp only [State.due, State.loses, hfds, hsame, hwritten, hw, List.length_append,
      List.length_singleton]
    simp
  | reads hw hany ht =>
    obtain ⟨hfds, hsame, -⟩ := read_eq_some ht
    have hquiet := quiet_eq_false hany
    simp only [State.canWrite, Bool.and_eq_false_iff] at hw
    simp only [State.due, State.loses, hfds, hsame, hquiet]
    rcases hw with hw | hw
    · simp [hw]
    · simp only [hw, Bool.not_false, Bool.and_true]
      omega

/-- Nothing is lost: neither what waits nor a line. -/
def State.Served (s : State) (rounds : List Round) : Prop :=
  (s.writeFds = true → WritableFirst rounds) ∧ LinesServed rounds

/-- With no round left, nothing may be waiting. -/
theorem served_nil : s.Served [] ↔ s.writeFds = false := by
  refine ⟨fun h => ?_, fun h => ⟨fun h' => absurd h' (by simp [h]), ?_⟩⟩
  · refine Bool.eq_false_iff.mpr fun hw => ?_
    obtain ⟨_, hmem, -⟩ := h.1 hw
    cases hmem
  · intro before r after heq
    simp at heq

/-- A round loses nothing if a waiting line can be written, or nothing happens. -/
theorem loses_eq_false : s.loses r = false ↔
    (s.writeFds = true → r.writable = true ∨ r.quiet = true) := by
  unfold State.loses
  cases s.writeFds <;> cases r.writable <;> simp

/-- A round of a served run loses nothing. -/
theorem State.Served.loses (h : s.Served (r :: rounds)) : s.loses r = false := by
  rw [loses_eq_false]
  intro hw
  exact (writableFirst_cons.mp (h.1 hw)).imp_right And.left

/-- Nothing is lost in a round and in those after it. -/
theorem served_cons (h : next name s r = some t) :
    s.Served (r :: rounds) ↔ s.loses r = false ∧ t.Served rounds := by
  unfold State.Served
  rw [loses_eq_false, writableFirst_cons, linesServed_cons]
  cases next_cases h with
  | waits hl hr hw heq =>
    subst heq
    simp only [State.canWrite, Bool.and_eq_false_iff] at hw
    rcases hw with hw | hw <;> simp [Round.quiet, hl, hr, hw]
  | writes u hw hu ht =>
    obtain ⟨hfds, -, -⟩ := read_eq_some ht
    simp only [State.canWrite, Bool.and_eq_true] at hw
    simp [hw, hfds, Option.isSome_iff_ne_none]
  | reads hw hany ht =>
    obtain ⟨hfds, -, -⟩ := read_eq_some ht
    have hquiet := quiet_eq_false hany
    simp only [State.canWrite, Bool.and_eq_false_iff] at hw
    rcases hw with hw | hw <;> simp [hw, hfds, hquiet, Option.isSome_iff_ne_none]

/-! ## Runs -/

/-- A run is its first round and the later ones. -/
theorem exec_cons : exec (next name) s (r :: rounds) =
    (next name s r).bind fun t => exec (next name) t rounds := by
  rw [exec, List.foldlM_cons]
  rfl

/-- The lines of a run all fit. -/
theorem length_of_exec (h : exec (next name) s rounds = some t) :
    ∀ line ∈ linesOf rounds, line.length < bufsize := by
  induction rounds generalizing s with
  | nil => exact nofun
  | cons r rounds ih =>
    rw [exec_cons] at h
    obtain ⟨u, hstep, hrest⟩ := Option.bind_eq_some_iff.mp h
    have hline : ∀ line ∈ r.line, line.length < bufsize := by
      cases next_cases hstep with
      | waits hl => simp [hl]
      | writes _ _ _ ht => exact (read_eq_some ht).2.2
      | reads _ _ ht => exact (read_eq_some ht).2.2
    rw [linesOf_cons, List.forall_mem_append]
    exact ⟨fun line hmem => hline line (Option.mem_toList.mp hmem), ih hrest⟩

/-- No more is written than the name and the lines. -/
theorem due_le (h : exec (next name) s rounds = some t) :
    t.due ≤ s.due + (linesOf rounds).length := by
  induction rounds generalizing s with
  | nil =>
    cases h
    exact Nat.le_refl _
  | cons r rounds ih =>
    rw [exec_cons] at h
    obtain ⟨u, hstep, hrest⟩ := Option.bind_eq_some_iff.mp h
    have hdue := due_step hstep
    have hle := ih hrest
    rw [linesOf_cons, List.length_append]
    omega

/-- If as much is written, nothing was lost. -/
theorem served_of_length (h : exec (next name) s rounds = some t)
    (hlen : s.due + (linesOf rounds).length ≤ t.written.length) : s.Served rounds := by
  induction rounds generalizing s with
  | nil =>
    cases h
    rw [served_nil]
    unfold State.due at hlen
    cases hw : t.writeFds with
    | false => rfl
    | true =>
      rw [hw, Bool.toNat_true] at hlen
      omega
  | cons r rounds ih =>
    rw [exec_cons] at h
    obtain ⟨u, hstep, hrest⟩ := Option.bind_eq_some_iff.mp h
    have hdue := due_step hstep
    have hle := due_le hrest
    have hwritten : t.written.length ≤ t.due := Nat.le_add_right _ _
    rw [linesOf_cons, List.length_append] at hlen
    have hnone : (s.loses r).toNat = 0 := by omega
    rw [served_cons hstep]
    exact ⟨by simpa using hnone, ih hrest (by omega)⟩

/-! ## What is written -/

/-- `send_buf` holds a string, and a client that has not written its name waits to write it. -/
structure State.Ok (s : State) (text : List UInt8) : Prop where
  holds : s.sendBuf.Holds text
  length_lt : text.length < bufsize
  welcome : s.welcome = true → s.writeFds = true

/-- What the client waits to write. -/
def State.waiting (name text : List UInt8) (s : State) : List (List UInt8) :=
  if s.writeFds then [if s.welcome then name else text] else []

/-- A line read is the next to be written. -/
theorem read_ok {line : Option (List UInt8)} (hok : s.Ok text) (hnamed : s.welcome = false)
    (hline : ∀ l ∈ line, l.length < bufsize) : ∃ t text', s.read line = some t ∧ t.Ok text' ∧
      t.written ++ t.waiting name text' = s.written ++ line.toList.map (·.takeWhile (· ≠ 0)) := by
  cases line with
  | none =>
    exact ⟨_, text, rfl, ⟨hok.holds, hok.length_lt, fun h => absurd h (by simp [hnamed])⟩, rfl⟩
  | some line =>
    obtain ⟨b, hb⟩ := exists_scanLine (hline line rfl)
    obtain ⟨hlen, hholds⟩ := scanLine_eq_some hb
    have hle := (List.takeWhile_prefix (· ≠ 0) (l := line)).length_le
    refine ⟨{ s with sendBuf := b, writeFds := true }, _, ?_, ⟨hholds, by omega, fun _ => rfl⟩, ?_⟩
    · rw [State.read, hb]
      rfl
    · simp [State.waiting, hnamed]

/-- What is written or waits grows by the line, if nothing is lost. -/
theorem next_ok (name : List UInt8) (hok : s.Ok text) (hloses : s.loses r = false)
    (hline : ∀ l ∈ r.line, l.length < bufsize) : ∃ t text', next name s r = some t ∧ t.Ok text' ∧
      t.written ++ t.waiting name text' =
        s.written ++ s.waiting name text ++ r.line.toList.map (·.takeWhile (· ≠ 0)) := by
  unfold next
  by_cases hsel : s.Selects r
  · rw [if_pos hsel]
    by_cases hw : s.canWrite r = true
    · have hfds : s.writeFds = true := (Bool.and_eq_true_iff.mp hw).1
      have hwrite : s.write name = some { s with
          welcome := false
          written := s.written ++ [if s.welcome then name else text]
          writeFds := false } := by
        rw [State.write, hok.holds.cstring hok.length_lt]
        cases s.welcome <;> rfl
      rw [if_pos hw, hwrite, Option.bind_some, State.waiting, if_pos hfds]
      exact read_ok ⟨hok.holds, hok.length_lt, nofun⟩ rfl hline
    · have hfds : s.writeFds = false := by
        refine Bool.eq_false_iff.mpr fun hfds => ?_
        rcases loses_eq_false.mp hloses hfds with hwritable | hquiet
        · exact hw (Bool.and_eq_true_iff.mpr ⟨hfds, hwritable⟩)
        · exact not_selects_of_quiet hquiet hsel
      have hnamed : s.welcome = false := Bool.eq_false_iff.mpr fun h => by
        simpa [hfds] using hok.welcome h
      rw [if_neg hw, Option.bind_some, State.waiting, hfds, if_neg Bool.false_ne_true, List.append_nil]
      exact read_ok hok hnamed hline
  · have hnone : r.line = none := by_contra fun h => hsel (.inl h)
    rw [if_neg hsel, hnone]
    exact ⟨s, text, rfl, hok, (List.append_nil _).symm⟩

/-- What is written if nothing is lost. -/
theorem exec_ok (name : List UInt8) (hok : s.Ok text) (hserved : s.Served rounds)
    (hlines : ∀ l ∈ linesOf rounds, l.length < bufsize) : ∃ t, exec (next name) s rounds = some t ∧
      t.written = s.written ++ s.waiting name text ++ (linesOf rounds).map (·.takeWhile (· ≠ 0)) := by
  induction rounds generalizing s text with
  | nil =>
    refine ⟨s, rfl, ?_⟩
    simp [State.waiting, served_nil.mp hserved, linesOf]
  | cons r rounds ih =>
    rw [linesOf_cons, List.forall_mem_append] at hlines
    have hline : ∀ l ∈ r.line, l.length < bufsize := fun l hl => hlines.1 l (Option.mem_toList.mpr hl)
    obtain ⟨u, text', hstep, hok', hwritten⟩ := next_ok name hok hserved.loses hline
    obtain ⟨t, hexec, heq⟩ := ih hok' ((served_cons hstep).mp hserved).2 hlines.2
    refine ⟨t, ?_, ?_⟩
    · rw [exec_cons, hstep]
      exact hexec
    · rw [heq, hwritten, linesOf_cons, List.map_append, List.append_assoc]

/-- For every name and all rounds: the client writes its name and all lines, once and in order, exactly
if the socket is writable in the first round in which anything is ready, and in the first after each
round in which a line is read, and the lines contain no null character and fit into `send_buf`. -/
theorem sent_iff (name : List UInt8) (rounds : List Round) :
    (∃ t, exec (next name) init rounds = some t ∧ t.written = name :: linesOf rounds) ↔
      WritableFirst rounds ∧ LinesServed rounds ∧
        ∀ line ∈ linesOf rounds, 0 ∉ line ∧ line.length < bufsize := by
  have hinit : init.Served rounds ↔ WritableFirst rounds ∧ LinesServed rounds := by
    simp [State.Served, init]
  have hok : init.Ok [] := ⟨⟨rfl, rfl, List.not_mem_nil⟩, by decide, fun _ => rfl⟩
  rw [← and_assoc, ← hinit]
  refine ⟨?_, ?_⟩
  · rintro ⟨t, hexec, hwritten⟩
    have hlen : init.due + (linesOf rounds).length ≤ t.written.length := by
      rw [hwritten, List.length_cons, Nat.add_comm]
      rfl
    have hserved := served_of_length hexec hlen
    have hfit := length_of_exec hexec
    obtain ⟨t', hexec', heq⟩ := exec_ok name hok hserved hfit
    obtain rfl := Option.some.inj (hexec.symm.trans hexec')
    have hsame : (linesOf rounds).map (·.takeWhile (· ≠ 0)) = (linesOf rounds).map id := by
      rw [List.map_id]
      exact (List.cons.inj (heq.symm.trans hwritten)).2
    refine ⟨hserved, fun line hline => ⟨?_, hfit line hline⟩⟩
    exact Buffer.takeWhile_eq_self.mp (List.map_inj_left.mp hsame line hline)
  · rintro ⟨hserved, hlines⟩
    obtain ⟨t, hexec, heq⟩ := exec_ok name hok hserved fun l hl => (hlines l hl).2
    have hsame : (linesOf rounds).map (·.takeWhile (· ≠ 0)) = (linesOf rounds).map id :=
      List.map_congr_left fun line hline => Buffer.takeWhile_eq_self.mpr (hlines line hline).1
    refine ⟨t, hexec, ?_⟩
    rw [heq, hsame, List.map_id]
    rfl

/-- After the last line there are rounds in which the socket is writable for each line and the name. -/
def EnoughWritable (rounds : List Round) : Prop :=
  (linesOf rounds).length + 1 ≤
    (rounds.reverse.takeWhile fun r => r.line.isNone).countP fun r => r.writable

/-- A line that is read is lost when the server sends something before the socket is writable. -/
theorem line_lost : EnoughWritable [⟨none, false, true⟩, ⟨some [104, 105], false, false⟩,
      ⟨none, true, false⟩, ⟨none, false, true⟩, ⟨none, false, true⟩] ∧
    ¬ ∃ t, exec (next [97, 108]) init [⟨none, false, true⟩, ⟨some [104, 105], false, false⟩,
      ⟨none, true, false⟩, ⟨none, false, true⟩, ⟨none, false, true⟩] = some t ∧
      t.written = [[97, 108], [104, 105]] := by
  refine ⟨Nat.le_refl 2, ?_⟩
  rintro ⟨t, hexec, hwritten⟩
  have hserved := served_of_length hexec (by rw [hwritten]; exact Nat.le_refl 2)
  obtain ⟨r, hr, hw⟩ := hserved.2 [⟨none, false, true⟩] ⟨some [104, 105], false, false⟩ _ rfl nofun
  cases hr
  cases hw

end ChatClient

end Ulsp
