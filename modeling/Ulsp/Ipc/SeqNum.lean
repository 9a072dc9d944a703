import Mathlib.Order.ConditionallyCompleteLattice.Finset
import Mathlib.Order.CompletePartialOrder
import Mathlib.Data.Int.ConditionallyCompleteOrder
import Ulsp.Lib.Run
import Ulsp.Stdlib

/-!
# The sequence-number server (`ipc/fifo_seqnum_server.c`, `ipc/fifo_seqnum_client.c`)

A client makes a FIFO of its own, writes a request for `seqLen` numbers to the FIFO of the server and
reads the first of its numbers from its own FIFO. The server answers one request after the other with
its counter `seqNum`, which it then moves on by `seqLen`. The length is whatever `atoi` makes of the
client's argument, so it may be zero or negative, and the counter wraps.

`State.log` is the ranges the server has assigned, in the order it read the requests: they are
`assigned 0` of the lengths (`log_of_run`), and they lie one behind the other exactly if the counter
advances from each of them to the next (`assigned_ordered_iff`).
-/

namespace Ulsp

open Lib

namespace SeqNum

/-- `struct request`. -/
structure Request (C : Type) where
  pid : C
  seqLen : ℤ
  deriving DecidableEq

/-- `struct response`. -/
structure Response where
  seqNum : ℤ
  deriving DecidableEq

/-- Where a client is: at `mkfifo`, at the `write` of its request, in `open(clientFifo)`, in the
`read` of the response, at the `printf` of it, or gone. Its FIFO exists from `mkfifo` on, and
`deleteFifo` removes it when the client goes. -/
inductive ClientPc where
  | mkfifo
  | write
  | openFifo
  | read
  | print (resp : Response)
  | gone
  deriving DecidableEq

/-- Where the server is: at the `read` of a request, at `open(clientFifoName)`, in an `open` that waits
for the client to open its FIFO too, at the `write` for the request it has read, or gone. -/
inductive ServerPc (C : Type) where
  | read
  | openFifo (req : Request C)
  | inOpen (req : Request C)
  | write (req : Request C)
  | gone
  deriving DecidableEq

/-- A range of numbers: the first, and how many. -/
structure Assigned where
  seqNum : ℤ
  seqLen : ℤ
  deriving DecidableEq

/-- The clients, the requests in the server's FIFO, the server with its counter, and the ranges it
has assigned, in order. -/
structure State (C : Type) where
  client : C → ClientPc
  fifo : List (Request C)
  server : ServerPc C
  seqNum : ℤ
  log : List Assigned

/-- Who takes a step; `leave c` is the end of a client after it has written its request, and `enter`
the server's call of an `open` that has to wait. -/
inductive Label (C : Type) where
  | client (c : C)
  | leave (c : C)
  | server
  | enter

variable {C : Type} [DecidableEq C]

/-- A step of the client `c`, with argument `argv1`. Without an argument it ends at `atoi`, and
without a server it ends when it opens the server's FIFO. It stays in `open` until the server opens
its FIFO too, and in `read` until the server has written. -/
def clientNext (argv1 : C → Option (List Char)) (s : State C) (c : C) : Option (State C) :=
  match s.client c with
  | .mkfifo => some { s with client := Function.update s.client c .write }
  | .write =>
    match s.server, argv1 c with
    | .gone, _ | _, none => some { s with client := Function.update s.client c .gone }
    | _, some arg =>
      some { s with
        client := Function.update s.client c .openFifo
        fifo := s.fifo ++ [⟨c, atoi arg⟩] }
  | .openFifo | .read => none
  | .print _ => some { s with client := Function.update s.client c .gone }
  | .gone => none

/-- A step of the server. It ends when the FIFO of a client is gone, and stays in an `open` whose client
has gone meanwhile; a client that is gone when its response is written is passed over. -/
def serverNext (s : State C) : Option (State C) :=
  match s.server with
  | .read =>
    match s.fifo with
    | [] => none
    | req :: rest => some { s with server := .openFifo req, fifo := rest }
  | .openFifo req =>
    match s.client req.pid with
    | .openFifo =>
      some { s with server := .write req, client := Function.update s.client req.pid .read }
    | .gone => some { s with server := .gone }
    | _ => none
  | .inOpen req =>
    match s.client req.pid with
    | .openFifo =>
      some { s with server := .write req, client := Function.update s.client req.pid .read }
    | _ => none
  | .write req =>
    let resp : Response := ⟨s.seqNum⟩
    some { s with
      server := .read
      client :=
        match s.client req.pid with
        | .read => Function.update s.client req.pid (.print resp)
        | _ => s.client
      seqNum := toInt32 (s.seqNum + req.seqLen)
      log := s.log ++ [⟨resp.seqNum, req.seqLen⟩] }
  | .gone => none

/-- One step of the system. -/
def next (argv1 : C → Option (List Char)) (s : State C) : Label C → Option (State C)
  | .client c => clientNext argv1 s c
  | .leave c =>
    match s.client c with
    | .openFifo | .read | .print _ => some { s with client := Function.update s.client c .gone }
    | _ => none
  | .server => serverNext s
  | .enter =>
    match s.server with
    | .openFifo req =>
      match s.client req.pid with
      | .openFifo => some { s with server := .inOpen req }
      | _ => none
    | _ => none

/-- A step of the system. -/
def Step (argv1 : C → Option (List Char)) (s : State C) (l : Label C) (s' : State C) : Prop :=
  next argv1 s l = some s'

/-- Before any client has started. -/
def State.init : State C where
  client _ := .mkfifo
  fifo := []
  server := .read
  seqNum := 0
  log := []

/-! ## Ranges that are handed out one after the other -/

/-- The numbers of a range. -/
def Assigned.range (a : Assigned) : Set ℤ := Set.Ico a.seqNum (a.seqNum + a.seqLen)

/-- The range `a` lies before `b`: it starts before `b` does, and they have no number in common. -/
def Assigned.Before (a b : Assigned) : Prop := a.seqNum < b.seqNum ∧ Disjoint a.range b.range

/-- The ranges of the given lengths, from the counter `n` on. -/
def assigned (n : ℤ) : List ℤ → List Assigned
  | [] => []
  | l :: ls => ⟨n, l⟩ :: assigned (toInt32 (n + l)) ls

/-- The counter after them. -/
def counter (n : ℤ) : List ℤ → ℤ
  | [] => n
  | l :: ls => counter (toInt32 (n + l)) ls

/-- From each of the lengths to the next the counter `n` goes up, and stays in the range of `int`. -/
def Advances (n : ℤ) : List ℤ → Prop
  | [] | [_] => True
  | l :: l' :: ls => 0 < l ∧ n + l < 2 ^ 31 ∧ Advances (n + l) (l' :: ls)

theorem assigned_append {n l : ℤ} {ls : List ℤ} :
    assigned n (ls ++ [l]) = assigned n ls ++ [⟨counter n ls, l⟩] := by
  induction ls generalizing n with
  | nil => rfl
  | cons k ks ih => rw [List.cons_append, assigned, ih, assigned, counter, List.cons_append]

theorem counter_append {n l : ℤ} {ls : List ℤ} :
    counter n (ls ++ [l]) = toInt32 (counter n ls + l) := by
  induction ls generalizing n with
  | nil => rfl
  | cons k ks ih => rw [List.cons_append, counter, ih, counter]

/-- The ranges have the given lengths. -/
theorem assigned_lengths {n : ℤ} {ls : List ℤ} : (assigned n ls).map Assigned.seqLen = ls := by
  induction ls generalizing n with
  | nil => rfl
  | cons l ls ih => rw [assigned, List.map_cons, ih]

/-- A counter that advances assigns no number below where it starts. -/
theorem le_of_advances {n : ℤ} {ls : List ℤ} (hn : 0 ≤ n) (h : Advances n ls) :
    ∀ b ∈ assigned n ls, n ≤ b.seqNum := by
  induction ls generalizing n with
  | nil => nofun
  | cons l ls ih =>
    rw [assigned, List.forall_mem_cons]
    refine ⟨le_rfl, ?_⟩
    intro b hb
    cases ls with
    | nil => cases hb
    | cons l' ls =>
      obtain ⟨hpos, hlt, hadv⟩ := h
      rw [toInt32_of_range (by omega) hlt] at hb
      have hle := ih (by omega) hadv b hb
      omega

/-- A range ends before another one that starts where it ends or behind. -/
theorem before_of_le {n l : ℤ} {b : Assigned} (hpos : 0 < l) (h : n + l ≤ b.seqNum) :
    Assigned.Before ⟨n, l⟩ b := by
  refine ⟨?_, Set.disjoint_left.mpr ?_⟩
  · show n < b.seqNum
    omega
  · intro x hx hx'
    have hlt : x < n + l := hx.2
    have hle : b.seqNum ≤ x := hx'.1
    omega

/-- The next range starts behind this one only if the counter advances. -/
theorem advance_of_lt {n l : ℤ} (hn : 0 ≤ n) (hn' : n < 2 ^ 31) (hl : -2 ^ 31 ≤ l) (hl' : l < 2 ^ 31)
    (h : n < toInt32 (n + l)) : 0 < l ∧ n + l < 2 ^ 31 := by
  rcases lt_or_ge (n + l) (2 ^ 31) with hlt | hge
  · rw [toInt32_of_range (by omega) hlt] at h
    exact ⟨by omega, hlt⟩
  · rw [toInt32_of_ge hge (by omega)] at h
    omega

/-- The ranges lie one behind the other exactly if the counter advances. -/
theorem assigned_ordered_iff {n : ℤ} {ls : List ℤ} (hn : 0 ≤ n) (hn' : n < 2 ^ 31)
    (hls : ∀ l ∈ ls, -2 ^ 31 ≤ l ∧ l < 2 ^ 31) :
    (assigned n ls).Pairwise Assigned.Before ↔ Advances n ls := by
  induction ls generalizing n with
  | nil => simp [assigned, Advances]
  | cons l ls ih =>
    obtain ⟨⟨hl, hl'⟩, hls⟩ := List.forall_mem_cons.mp hls
    rw [assigned, List.pairwise_cons]
    cases ls with
    | nil => simp [assigned, Advances]
    | cons l' ls =>
      constructor
      · rintro ⟨hbefore, hrest⟩
        have hlt : n < toInt32 (n + l) := (hbefore _ List.mem_cons_self).1
        obtain ⟨hpos, hsum⟩ := advance_of_lt hn hn' hl hl' hlt
        rw [toInt32_of_range (by omega) hsum] at hrest
        exact ⟨hpos, hsum, (ih (by omega) hsum hls).mp hrest⟩
      · rintro ⟨hpos, hsum, hadv⟩
        rw [toInt32_of_range (by omega) hsum]
        refine ⟨fun b hb => before_of_le hpos ?_, (ih (by omega) hsum hls).mpr hadv⟩
        exact le_of_advances (by omega) hadv b hb

/-! ## Runs -/

/-- The invariant: lengths are `int`s, and the log is what the counter assigns to them. -/
structure State.Ok (s : State C) : Prop where
  fifo : ∀ req ∈ s.fifo, -2 ^ 31 ≤ req.seqLen ∧ req.seqLen < 2 ^ 31
  server : ∀ req, s.server = .openFifo req ∨ s.server = .inOpen req ∨ s.server = .write req →
    -2 ^ 31 ≤ req.seqLen ∧ req.seqLen < 2 ^ 31
  lengths : ∀ a ∈ s.log, -2 ^ 31 ≤ a.seqLen ∧ a.seqLen < 2 ^ 31
  log : s.log = assigned 0 (s.log.map Assigned.seqLen)
  seqNum : s.seqNum = counter 0 (s.log.map Assigned.seqLen)

variable {argv1 : C → Option (List Char)} {s s' : State C} {l : Label C}

/-- A client writes the value of its argument. -/
theorem ok_client {c : C} (hs : s.Ok) (h : clientNext argv1 s c = some s') : s'.Ok := by
  obtain ⟨hfifo, hserver, hlengths, hlog, hseq⟩ := hs
  simp only [clientNext] at h
  split at h
  · cases h
    exact ⟨hfifo, hserver, hlengths, hlog, hseq⟩
  · split at h
    · cases h
      exact ⟨hfifo, hserver, hlengths, hlog, hseq⟩
    · cases h
      exact ⟨hfifo, hserver, hlengths, hlog, hseq⟩
    · cases h
      refine ⟨?_, hserver, hlengths, hlog, hseq⟩
      intro req hreq
      rcases List.mem_append.mp hreq with hold | hnew
      · exact hfifo req hold
      · rw [List.mem_singleton.mp hnew]
        exact ⟨(toInt32_cases _).1, (toInt32_cases _).2.1⟩
  · cases h
  · cases h
  · cases h
    exact ⟨hfifo, hserver, hlengths, hlog, hseq⟩
  · cases h

/-- The server assigns the range from its counter on. -/
theorem ok_server (hs : s.Ok) (h : serverNext s = some s') : s'.Ok := by
  obtain ⟨hfifo, hserver, hlengths, hlog, hseq⟩ := hs
  simp only [serverNext] at h
  split at h
  · split at h
    · cases h
    · rename_i req rest hreq
      cases h
      rw [hreq] at hfifo
      obtain ⟨hreq, hrest⟩ := List.forall_mem_cons.mp hfifo
      exact ⟨hrest, by simpa using hreq, hlengths, hlog, hseq⟩
  · rename_i req hopen
    have hreq := hserver req (.inl hopen)
    split at h
    · cases h
      exact ⟨hfifo, by simpa using hreq, hlengths, hlog, hseq⟩
    · cases h
      exact ⟨hfifo, by simp, hlengths, hlog, hseq⟩
    · cases h
  · rename_i req hopen
    have hreq := hserver req (.inr (.inl hopen))
    split at h
    · cases h
      exact ⟨hfifo, by simpa using hreq, hlengths, hlog, hseq⟩
    · cases h
  · rename_i req hwrite
    have hreq := hserver req (.inr (.inr hwrite))
    cases h
    refine ⟨hfifo, by simp, ?_, ?_, ?_⟩
    · intro a ha
      rcases List.mem_append.mp ha with hold | hnew
      · exact hlengths a hold
      · rw [List.mem_singleton.mp hnew]
        exact hreq
    · rw [List.map_append, List.map_singleton, assigned_append, ← hlog, ← hseq]
    · rw [List.map_append, List.map_singleton, counter_append, ← hseq]
  · cases h

/-- Every step keeps the invariant. -/
theorem ok_step (hs : s.Ok) (h : Step argv1 s l s') : s'.Ok := by
  cases l with
  | client c => exact ok_client hs h
  | server => exact ok_server hs h
  | leave c =>
    obtain ⟨hfifo, hserver, hlengths, hlog, hseq⟩ := hs
    simp only [Step, next] at h
    split at h
    · cases h
      exact ⟨hfifo, hserver, hlengths, hlog, hseq⟩
    · cases h
      exact ⟨hfifo, hserver, hlengths, hlog, hseq⟩
    · cases h
      exact ⟨hfifo, hserver, hlengths, hlog, hseq⟩
    · cases h
  | enter =>
    obtain ⟨hfifo, hserver, hlengths, hlog, hseq⟩ := hs
    simp only [Step, next] at h
    split at h
    · rename_i req hopen
      split at h
      · cases h
        exact ⟨hfifo, by simpa using hserver req (.inl hopen), hlengths, hlog, hseq⟩
      · cases h
    · cases h

/-- Every state of a run satisfies the invariant. -/
theorem ok_run {ls : List (Label C)} (h : Run (Step argv1) State.init ls s) : s.Ok :=
  h.invariant (fun _ _ _ hs hstep => ok_step hs hstep) ⟨nofun, by simp [State.init], nofun, rfl, rfl⟩

/-- In every run, with any clients and arguments, the ranges assigned so far lie one behind the other
if and only if every one but the last is of a positive number of numbers and ends in the range of
`int`. -/
theorem ranges_ordered_iff {ls : List (Label C)} (h : Run (Step argv1) State.init ls s) :
    s.log.Pairwise Assigned.Before ↔ Advances 0 (s.log.map Assigned.seqLen) := by
  have hs := ok_run h
  rw [hs.log, assigned_lengths]
  refine assigned_ordered_iff le_rfl (by decide) ?_
  intro l hl
  obtain ⟨a, ha, rfl⟩ := List.mem_map.mp hl
  exact hs.lengths a ha

/-- Two clients that ask for 3 and 2 numbers. -/
theorem ranges_ordered_iff_two : ∃ s : State Bool,
    Run (Step fun c => some (if c then ['3'] else ['2'])) State.init
      [.client true, .client true, .client false, .client false, .server, .server, .server,
        .server, .server, .server] s ∧
    s.log = [⟨0, 3⟩, ⟨3, 2⟩] ∧
    (s.log.Pairwise Assigned.Before ↔ Advances 0 (s.log.map Assigned.seqLen)) := by
  have hexec : (exec (next (C := Bool) fun c => some (if c then ['3'] else ['2'])) State.init
      [.client true, .client true, .client false, .client false, .server, .server, .server,
        .server, .server, .server]).map State.log = some [⟨0, 3⟩, ⟨3, 2⟩] := by decide
  obtain ⟨s, hrun, hlog⟩ := Run.of_exec_map hexec
  exact ⟨s, hrun, hlog, ranges_ordered_iff hrun⟩

/-- Two clients of which the first asks for no numbers are assigned ranges that start at the same
number. -/
theorem same_number_twice : ∃ s : State Bool,
    Run (Step fun c => some (if c then ['0'] else ['5'])) State.init
      [.client true, .client true, .client false, .client false, .server, .server, .server,
        .server, .server, .server] s ∧
    s.log = [⟨0, 0⟩, ⟨0, 5⟩] ∧ ¬ s.log.Pairwise Assigned.Before := by
  have hexec : (exec (next (C := Bool) fun c => some (if c then ['0'] else ['5'])) State.init
      [.client true, .client true, .client false, .client false, .server, .server, .server,
        .server, .server, .server]).map State.log = some [⟨0, 0⟩, ⟨0, 5⟩] := by decide
  obtain ⟨s, hrun, hlog⟩ := Run.of_exec_map hexec
  refine ⟨s, hrun, hlog, ?_⟩
  intro hpair
  rw [hlog, List.pairwise_cons] at hpair
  exact lt_irrefl _ (hpair.1 _ List.mem_cons_self).1

end SeqNum

end Ulsp
