import Mathlib.Data.List.Nodup
import Ulsp.Ipc.SeqNum
import Ulsp.Lib.Fair

/-!
# Every client of the sequence-number server is answered

The server ignores `SIGPIPE` and passes over a client that has gone when its response is written. One
that goes before the server has opened its FIFO is another matter: the server ends at the `open`, or
stays in it if it has entered it already, and nobody is answered any more (`unanswered`). While no
client goes at that point the requests that are still to be answered are those of the clients that wait
for the server to open their FIFO, in the order of the server's own FIFO (`Lined`), and every step of
the server brings a client nearer to its response (`answered_if_in_time`).
-/

namespace Ulsp

open Lib

namespace SeqNum

/-- The clients whose FIFO the server is about to open. -/
def ServerPc.opens {C : Type} : ServerPc C → List C
  | .openFifo req => [req.pid]
  | .inOpen req => [req.pid]
  | _ => []

/-- The clients whose requests the server has not opened a FIFO for, in order. -/
def State.pending {C : Type} (s : State C) : List C := s.server.opens ++ s.fifo.map Request.pid

/-- A client does not go before the server has opened its FIFO. -/
def InTime {C : Type} (s : State C) : Label C → Prop
  | .leave c => s.client c ≠ .openFifo
  | _ => True

instance {C : Type} (s : State C) : (l : Label C) → Decidable (InTime s l)
  | .leave c => inferInstanceAs (Decidable (s.client c ≠ .openFifo))
  | .client _ => isTrue trivial
  | .server => isTrue trivial
  | .enter => isTrue trivial

/-- The steps of the server. -/
def Label.ofServer {C : Type} (l : Label C) : Prop := l = .server ∨ l = .enter

/-- The server has ended, or is to open the FIFO of a client that has gone. -/
def State.Stopped {C : Type} (s : State C) : Prop :=
  s.server = .gone ∨
    ∃ req, (s.server = .openFifo req ∨ s.server = .inOpen req) ∧ s.client req.pid = .gone

/-- The pending requests are those of the clients that wait for their FIFO to be opened, each once. A
client that reads is the one the server writes to. -/
structure State.Lined {C : Type} (s : State C) : Prop where
  nodup : s.pending.Nodup
  mem : ∀ c, c ∈ s.pending ↔ s.client c = .openFifo
  reading : ∀ c, s.client c = .read → ∃ req, s.server = .write req ∧ req.pid = c
  alive : s.server ≠ .gone

/-- Before any client has started there is no request. -/
theorem init_lined {C : Type} : (State.init : State C).Lined :=
  ⟨.nil, by simp [State.pending, State.init, ServerPc.opens], nofun, nofun⟩

section

variable {C : Type} {s : State C}

/-- The request whose FIFO the server is to open is the first of those pending. -/
theorem State.pending_opening {req : Request C}
    (h : s.server = .openFifo req ∨ s.server = .inOpen req) :
    s.pending = req.pid :: s.fifo.map Request.pid := by
  rcases h with h | h <;> simp [State.pending, h, ServerPc.opens]

/-- The client whose FIFO the server is to open waits in its own `open`. -/
theorem State.Lined.opening (hs : s.Lined) {req : Request C}
    (h : s.server = .openFifo req ∨ s.server = .inOpen req) : s.client req.pid = .openFifo :=
  (hs.mem _).mp (by rw [State.pending_opening h]; exact List.mem_cons_self)

/-- No client reads where the server does not write. -/
theorem State.Lined.not_reading (hs : s.Lined) (h : ∀ req, s.server ≠ .write req) (c : C) :
    s.client c ≠ .read := fun hc => by
  obtain ⟨req, hreq, -⟩ := hs.reading c hc
  exact h req hreq

end

variable {C : Type} [DecidableEq C] {argv1 : C → Option (List Char)} {s s' : State C} {l : Label C}
  {c : C}

/-! ## The steps -/

/-- A client's own step: it writes its request, or starts, or goes without waiting for a response. -/
theorem client_cases (h : clientNext argv1 s c = some s') :
    (∃ n, s.client c = .write ∧ s' = { s with
      client := Function.update s.client c .openFifo, fifo := s.fifo ++ [⟨c, n⟩] }) ∨
    ∃ pc, s.client c ≠ .openFifo ∧ s.client c ≠ .read ∧ (pc = .write ∨ pc = .gone) ∧
      s' = { s with client := Function.update s.client c pc } := by
  simp only [clientNext] at h
  split at h
  · rename_i hc
    cases h
    exact .inr ⟨.write, by simp [hc], by simp [hc], .inl rfl, rfl⟩
  · rename_i hc
    split at h
    · cases h
      exact .inr ⟨.gone, by simp [hc], by simp [hc], .inr rfl, rfl⟩
    · cases h
      exact .inr ⟨.gone, by simp [hc], by simp [hc], .inr rfl, rfl⟩
    · cases h
      exact .inl ⟨_, hc, rfl⟩
  · cases h
  · cases h
  · rename_i hc
    cases h
    exact .inr ⟨.gone, by simp [hc], by simp [hc], .inr rfl, rfl⟩
  · cases h

/-- A client goes after it has written its request. -/
theorem leave_cases (h : next argv1 s (.leave c) = some s') :
    (s.client c = .openFifo ∨ s.client c = .read ∨ ∃ resp, s.client c = .print resp) ∧
      s' = { s with client := Function.update s.client c .gone } := by
  simp only [next] at h
  split at h
  · rename_i hc
    cases h
    exact ⟨.inl hc, rfl⟩
  · rename_i hc
    cases h
    exact ⟨.inr (.inl hc), rfl⟩
  · rename_i resp hc
    cases h
    exact ⟨.inr (.inr ⟨resp, hc⟩), rfl⟩
  · cases h

/-- A step of the server that has not ended and does not end: it takes a request, enters an `open`,
opens a FIFO, or writes a response. -/
theorem server_cases (hl : l.ofServer) (h : next argv1 s l = some s') (halive : s'.server ≠ .gone) :
    (∃ req rest, s.server = .read ∧ s.fifo = req :: rest ∧
      s' = { s with server := .openFifo req, fifo := rest }) ∨
    (∃ req, s.server = .openFifo req ∧ s.client req.pid = .openFifo ∧
      s' = { s with server := .inOpen req }) ∨
    (∃ req, (s.server = .openFifo req ∨ s.server = .inOpen req) ∧ s.client req.pid = .openFifo ∧
      s' = { s with server := .write req, client := Function.update s.client req.pid .read }) ∨
    ∃ req, s.server = .write req ∧ s'.server = .read ∧ s'.fifo = s.fifo ∧
      (s.client req.pid = .read →
        s'.client = Function.update s.client req.pid (.print ⟨s.seqNum⟩)) ∧
      (s.client req.pid ≠ .read → s'.client = s.client) := by
  rcases hl with rfl | rfl
  · simp only [next, serverNext] at h
    split at h
    · rename_i hread
      split at h
      · cases h
      · rename_i req rest hfifo
        cases h
        exact .inl ⟨req, rest, hread, hfifo, rfl⟩
    · rename_i req hopen
      split at h
      · rename_i hc
        cases h
        exact .inr (.inr (.inl ⟨req, .inl hopen, hc, rfl⟩))
      · cases h
        exact absurd rfl halive
      · cases h
    · rename_i req hopen
      split at h
      · rename_i hc
        cases h
        exact .inr (.inr (.inl ⟨req, .inr hopen, hc, rfl⟩))
      · cases h
    · rename_i req hwrite
      cases h
      refine .inr (.inr (.inr ⟨req, hwrite, rfl, rfl, ?_, ?_⟩))
      · intro hc
        simp [hc]
      · intro hc
        dsimp only
        split
        · exact absurd ‹_› hc
        · rfl
    · cases h
  · simp only [next] at h
    split at h
    · rename_i req hopen
      split at h
      · rename_i hc
        cases h
        exact .inr (.inl ⟨req, hopen, hc, rfl⟩)
      · cases h
    · cases h

/-! ## The queue of the requests -/

/-- A change of a client that does not wait for its FIFO, before or after. -/
theorem State.Lined.update (hs : s.Lined) {pc : ClientPc} (hc : s.client c ≠ .openFifo)
    (hpc : pc = .write ∨ pc = .gone) :
    ({ s with client := Function.update s.client c pc } : State C).Lined := by
  have hopen : pc ≠ .openFifo := by rcases hpc with rfl | rfl <;> nofun
  have hread : pc ≠ .read := by rcases hpc with rfl | rfl <;> nofun
  refine ⟨hs.nodup, ?_, ?_, hs.alive⟩
  · intro d
    show d ∈ s.pending ↔ Function.update s.client c pc d = .openFifo
    rw [hs.mem]
    rcases eq_or_ne d c with rfl | hne
    · simp [hc, hopen]
    · rw [Function.update_of_ne hne]
  · intro d hd
    rcases eq_or_ne d c with rfl | hne
    · simp [hread] at hd
    · exact hs.reading d (by simpa [hne] using hd)

/-- A client queues up with its request. -/
theorem State.Lined.client (hs : s.Lined) (h : clientNext argv1 s c = some s') : s'.Lined := by
  rcases client_cases h with ⟨n, hc, rfl⟩ | ⟨pc, hc, -, hpc, rfl⟩
  · have hnot : c ∉ s.pending := by simp [hs.mem, hc]
    have happend : s.server.opens ++ (s.fifo ++ [(⟨c, n⟩ : Request C)]).map Request.pid =
        s.pending ++ [c] := by
      simp [State.pending]
    refine ⟨?_, ?_, ?_, hs.alive⟩
    · show (s.server.opens ++ (s.fifo ++ [(⟨c, n⟩ : Request C)]).map Request.pid).Nodup
      rw [happend]
      exact List.nodup_append'.mpr ⟨hs.nodup, by simp, by simpa using hnot⟩
    · intro d
      show d ∈ s.server.opens ++ (s.fifo ++ [(⟨c, n⟩ : Request C)]).map Request.pid ↔
        Function.update s.client c .openFifo d = .openFifo
      rw [happend, List.mem_append, hs.mem]
      rcases eq_or_ne d c with rfl | hne
      · simp
      · simp [hne]
    · intro d hd
      rcases eq_or_ne d c with rfl | hne
      · simp at hd
      · exact hs.reading d (by simpa [hne] using hd)
  · exact hs.update hc hpc

/-- The server takes the requests in order. -/
theorem State.Lined.server (hs : s.Lined) (hl : l.ofServer) (h : next argv1 s l = some s')
    (halive : s'.server ≠ .gone) : s'.Lined := by
  rcases server_cases hl h halive with ⟨req, rest, hread, hfifo, rfl⟩ | ⟨req, hopen, hc, rfl⟩ |
    ⟨req, hopen, hc, rfl⟩ | ⟨req, hwrite, hserver, hfifo, hprint, hsame⟩
  · have hpending : s.pending = req.pid :: rest.map Request.pid := by
      simp [State.pending, hread, hfifo, ServerPc.opens]
    have hnodup := hs.nodup
    rw [hpending] at hnodup
    refine ⟨hnodup, ?_, fun d hd => absurd hd (hs.not_reading (by simp [hread]) d), nofun⟩
    intro d
    rw [← hs.mem, hpending]
    rfl
  · have hpending := State.pending_opening (.inl hopen)
    have hnodup := hs.nodup
    rw [hpending] at hnodup
    refine ⟨hnodup, ?_, fun d hd => absurd hd (hs.not_reading (by simp [hopen]) d), nofun⟩
    intro d
    rw [← hs.mem, hpending]
    rfl
  · have hpending := State.pending_opening hopen
    obtain ⟨hnot, hnodup⟩ := List.nodup_cons.mp (hpending ▸ hs.nodup)
    refine ⟨hnodup, ?_, fun d hd => ⟨req, rfl, ?_⟩, nofun⟩
    · intro d
      show d ∈ s.fifo.map Request.pid ↔ Function.update s.client req.pid .read d = .openFifo
      rcases eq_or_ne d req.pid with rfl | hne
      · simpa using hnot
      · rw [Function.update_of_ne hne, ← hs.mem, hpending, List.mem_cons]
        exact ⟨.inr, fun h => h.resolve_left hne⟩
    · by_contra hne
      refine hs.not_reading ?_ d (by simpa [Ne.symm hne] using hd)
      intro r
      rcases hopen with hopen | hopen <;> simp [hopen]
  · have hpending : s'.pending = s.pending := by
      simp [State.pending, hserver, hfifo, hwrite, ServerPc.opens]
    have hclient : ∀ d, s'.client d = s.client d ∨ d = req.pid ∧ s.client d = .read ∧
        s'.client d = .print ⟨s.seqNum⟩ := by
      intro d
      by_cases hc : s.client req.pid = .read
      · rw [hprint hc]
        rcases eq_or_ne d req.pid with rfl | hne
        · exact .inr ⟨rfl, hc, Function.update_self ..⟩
        · exact .inl (Function.update_of_ne hne _ _)
      · exact .inl (congrFun (hsame hc) d)
    refine ⟨hpending ▸ hs.nodup, ?_, ?_, halive⟩
    · intro d
      rw [hpending, hs.mem]
      rcases hclient d with heq | ⟨-, hread, hgot⟩
      · rw [heq]
      · simp [hread, hgot]
    · intro d hd
      rcases hclient d with heq | ⟨-, -, hgot⟩
      · obtain ⟨r, hr, rfl⟩ := hs.reading d (heq ▸ hd)
        obtain rfl : req = r := by cases hwrite.symm.trans hr; rfl
        rw [hprint (heq ▸ hd), Function.update_self] at hd
        cases hd
      · cases hgot.symm.trans hd

/-- The server does not end at a request whose client has not gone. -/
theorem State.Lined.server_alive (hs : s.Lined) (hl : l.ofServer) (h : next argv1 s l = some s') :
    s'.server ≠ .gone := by
  rcases hl with rfl | rfl
  · simp only [next, serverNext] at h
    split at h
    · split at h <;> cases h
      intro hgone
      cases hgone
    · rename_i req hopen
      have hc := hs.opening (.inl hopen)
      simp only [hc] at h
      cases h
      intro hgone
      cases hgone
    · split at h <;> cases h
      intro hgone
      cases hgone
    · cases h
      intro hgone
      cases hgone
    · cases h
  · simp only [next] at h
    split at h
    · split at h <;> cases h
      intro hgone
      cases hgone
    · cases h

/-- Every step at which no client goes too early keeps the queue. -/
theorem State.Lined.step (hs : s.Lined) (h : Guarded (Step argv1) InTime s l s') : s'.Lined := by
  obtain ⟨hstep, hin⟩ := h
  cases l with
  | client c => exact hs.client hstep
  | leave c =>
    obtain ⟨-, rfl⟩ := leave_cases hstep
    exact hs.update hin (.inr rfl)
  | server => exact hs.server (.inl rfl) hstep (hs.server_alive (.inl rfl) hstep)
  | enter => exact hs.server (.inr rfl) hstep (hs.server_alive (.inr rfl) hstep)

/-- In every run in which no client goes too early the requests are queued. -/
theorem lined_of_run {ls : List (Label C)} (h : Run (Guarded (Step argv1) InTime) State.init ls s) :
    s.Lined :=
  h.invariant (fun _ _ _ hs hstep => hs.step hstep) init_lined

/-! ## The way to the response -/

/-- A client waits for its response, in the `open` of its FIFO or in the `read`. -/
def State.Waits {C : Type} (s : State C) (c : C) : Prop := s.client c = .openFifo ∨ s.client c = .read

/-- The steps that the server has still to make for the request it has taken. -/
def ServerPc.toGo {C : Type} : ServerPc C → ℕ
  | .openFifo _ => 3
  | .inOpen _ => 2
  | .write _ => 1
  | _ => 0

/-- The requests that the server has still to take, up to that of the client `c`. -/
def State.ahead (s : State C) (c : C) : ℕ :=
  if c ∈ s.fifo.map Request.pid then (s.fifo.map Request.pid).idxOf c + 1 else 0

/-- A bound on the steps of the server up to the response for the client `c`. -/
def State.distance (s : State C) (c : C) : ℕ := 4 * s.ahead c + s.server.toGo

/-- The steps of the clients neither answer a client that waits nor put it back. -/
theorem distance_client {d : C} (hw : s.Waits c) (h : clientNext argv1 s d = some s') :
    s'.Waits c ∧ s'.distance c = s.distance c := by
  rcases client_cases h with ⟨n, hd, rfl⟩ | ⟨pc, hd, hd', -, rfl⟩
  · have hne : c ≠ d := by
      rintro rfl
      rcases hw with hc | hc <;> cases hc.symm.trans hd
    refine ⟨?_, ?_⟩
    · simpa only [State.Waits, Function.update_of_ne hne] using hw
    · simp only [State.distance, State.ahead, List.map_append, List.map_cons, List.map_nil,
        List.mem_append, List.mem_singleton, hne, or_false]
      split
      · rename_i hmem
        rw [List.idxOf_append_of_mem hmem]
      · rfl
  · have hne : c ≠ d := by
      rintro rfl
      exact hw.elim hd hd'
    refine ⟨?_, rfl⟩
    simpa only [State.Waits, Function.update_of_ne hne] using hw

/-- Every step of the server answers a client that waits or brings it nearer to its response. -/
theorem State.Lined.distance_lt (hs : s.Lined) (hw : s.Waits c) (hl : l.ofServer)
    (h : next argv1 s l = some s') : (∃ resp, s'.client c = .print resp) ∨
      s'.Waits c ∧ s'.distance c < s.distance c := by
  rcases server_cases hl h (hs.server_alive hl h) with ⟨req, rest, hread, hfifo, rfl⟩ |
    ⟨req, hopen, hc, rfl⟩ | ⟨req, hopen, hc, rfl⟩ | ⟨req, hwrite, hserver, hfifo, hprint, hsame⟩
  · -- no client is being written to, so the request of `c` is in the FIFO
    have hc : s.client c = .openFifo := hw.resolve_right (hs.not_reading (by simp [hread]) c)
    have hmem := (hs.mem c).mpr hc
    have hnodup := hs.nodup
    simp only [State.pending, hread, hfifo, ServerPc.opens, List.nil_append, List.map_cons] at hmem hnodup
    have hnot := (List.nodup_cons.mp hnodup).1
    refine .inr ⟨hw, ?_⟩
    simp only [State.distance, State.ahead, hread, hfifo, List.map_cons, hmem, if_true, ServerPc.toGo]
    rcases List.mem_cons.mp hmem with rfl | hin
    · rw [if_neg hnot]
      omega
    · have hne : req.pid ≠ c := fun he => hnot (he ▸ hin)
      rw [if_pos hin, List.idxOf_cons_ne _ hne]
      omega
  · refine .inr ⟨hw, ?_⟩
    simp only [State.distance, hopen, ServerPc.toGo]
    exact Nat.add_lt_add_left (by omega) _
  · refine .inr ⟨?_, ?_⟩
    · rcases eq_or_ne c req.pid with rfl | hne
      · exact .inr (Function.update_self ..)
      · simpa only [State.Waits, Function.update_of_ne hne] using hw
    · rcases hopen with hopen | hopen <;> simp only [State.distance, hopen, ServerPc.toGo] <;>
        exact Nat.add_lt_add_left (by omega) _
  · rcases hw with hc | hc
    · have hne : s'.client c = .openFifo := by
        rcases eq_or_ne c req.pid with rfl | hne
        · rw [hsame (by simp [hc]), hc]
        · by_cases hread : s.client req.pid = .read
          · rw [hprint hread, Function.update_of_ne hne, hc]
          · rw [hsame hread, hc]
      refine .inr ⟨.inl hne, ?_⟩
      simp only [State.distance, State.ahead, hserver, hfifo, hwrite, ServerPc.toGo]
      omega
    · obtain ⟨r, hr, rfl⟩ := hs.reading c hc
      obtain rfl : req = r := by cases hwrite.symm.trans hr; rfl
      exact .inl ⟨_, by rw [hprint hc, Function.update_self]⟩

/-- While a client waits, the server can take a step. -/
theorem State.Lined.server_enabled (hs : s.Lined) (hw : s.Waits c) :
    ∃ l s', Label.ofServer l ∧ Step argv1 s l s' := by
  refine ⟨.server, ?_⟩
  simp only [Step, next, serverNext]
  cases hserver : s.server with
  | read =>
    have hc : s.client c = .openFifo := hw.resolve_right (hs.not_reading (by simp [hserver]) c)
    have hmem := (hs.mem c).mpr hc
    cases hfifo : s.fifo with
    | nil => simp [State.pending, hserver, hfifo, ServerPc.opens] at hmem
    | cons req rest => exact ⟨_, .inl rfl, rfl⟩
  | openFifo req =>
    have hc := hs.opening (.inl hserver)
    simp only [hc]
    exact ⟨_, .inl rfl, rfl⟩
  | inOpen req =>
    have hc := hs.opening (.inr hserver)
    simp only [hc]
    exact ⟨_, .inl rfl, rfl⟩
  | write req => exact ⟨_, .inl rfl, rfl⟩
  | gone => exact absurd hserver hs.alive

/-- In a fair execution in which no client goes too early, a client that waits is answered or goes. -/
theorem answered_or_gone {π : Path (Step argv1)} (h0 : (π.state 0).Lined)
    (hfair : π.Fair Label.ofServer) (hin : π.Within InTime) {n : ℕ} (hw : (π.state n).Waits c) :
    ∃ m, n ≤ m ∧ ((∃ resp, (π.state m).client c = .print resp) ∨ (π.state m).client c = .gone) := by
  have hlined : ∀ m, (π.state m).Lined := fun m => by
    obtain ⟨ls, hrun⟩ := π.run_within hin m
    exact hrun.invariant (fun _ _ _ hs hstep => hs.step hstep) h0
  refine hfair.leadsTo (P := fun s => s.Lined ∧ s.Waits c)
    (Q := fun s => (∃ resp, s.client c = .print resp) ∨ s.client c = .gone) (State.distance · c)
    (fun s hs => hs.1.server_enabled hs.2) ?_ ⟨hlined n, hw⟩
  intro m l hl hs
  have hstep : next argv1 (π.state m) l = some (π.state (m + 1)) := π.moves m l hl
  have hnext := hlined (m + 1)
  have hserver : l.ofServer → _ := fun hof => hs.1.distance_lt hs.2 hof hstep
  cases l with
  | client d =>
    obtain ⟨hw', heq⟩ := distance_client hs.2 hstep
    exact .inr ⟨⟨hnext, hw'⟩, heq.le, by rintro (h | h) <;> cases h⟩
  | leave d =>
    obtain ⟨-, heq⟩ := leave_cases hstep
    rcases eq_or_ne c d with rfl | hne
    · exact .inl (.inr (by simp [heq]))
    · refine .inr ⟨⟨hnext, ?_⟩, by rw [heq]; rfl, by rintro (h | h) <;> cases h⟩
      rw [heq]
      simpa only [State.Waits, Function.update_of_ne hne] using hs.2
  | server =>
    rcases hserver (.inl rfl) with hgot | ⟨hw', hlt⟩
    · exact .inl (.inl hgot)
    · exact .inr ⟨⟨hnext, hw'⟩, hlt.le, fun _ => hlt⟩
  | enter =>
    rcases hserver (.inr rfl) with hgot | ⟨hw', hlt⟩
    · exact .inl (.inl hgot)
    · exact .inr ⟨⟨hnext, hw'⟩, hlt.le, fun _ => hlt⟩

/-- In every run in which no client goes between writing its request and the server's opening of its
FIFO, the server has not ended; and in every execution that goes on so, and in which the server takes a
step at some time or other while it can, each client that waits for a response and stays until it is
answered gets one. -/
theorem answered_if_in_time {ls : List (Label C)}
    (h : Run (Guarded (Step argv1) InTime) State.init ls s) :
    s.server ≠ .gone ∧ ∀ π : Path (Step argv1), π.state 0 = s → π.Fair Label.ofServer →
      π.Within InTime → ∀ c n, (π.state n).Waits c →
        (∀ m, n ≤ m → (π.state m).client c = .gone →
          ∃ k, n ≤ k ∧ k ≤ m ∧ ∃ resp, (π.state k).client c = .print resp) →
        ∃ m, n ≤ m ∧ ∃ resp, (π.state m).client c = .print resp := by
  have hs := lined_of_run h
  refine ⟨hs.alive, fun π h0 hfair hin c n hw hstays => ?_⟩
  obtain ⟨m, hm, hgot | hgone⟩ := answered_or_gone (h0 ▸ hs) hfair hin hw
  · exact ⟨m, hm, hgot⟩
  · obtain ⟨k, hk, -, hgot⟩ := hstays m hm hgone
    exact ⟨k, hk, hgot⟩

/-! ## A client that goes too early -/

/-- A server that has stopped stays so, and answers nobody. -/
theorem State.Stopped.step (hs : s.Stopped) (h : Step argv1 s l s') :
    s'.Stopped ∧ ∀ c resp, s'.client c = .print resp → s.client c = .print resp := by
  -- a client that has gone takes no step, and no other client's step concerns it
  have hkeep : ∀ d pc fifo, (pc = .gone ∨ s.client d ≠ .gone) →
      ({ s with client := Function.update s.client d pc, fifo } : State C).Stopped := by
    intro d pc fifo hd
    refine hs.imp_right ?_
    rintro ⟨req, hopen, hgone⟩
    refine ⟨req, hopen, ?_⟩
    rcases eq_or_ne req.pid d with rfl | hne
    · exact (Function.update_self ..).trans (hd.resolve_right (absurd hgone ·))
    · exact (Function.update_of_ne hne ..).trans hgone
  have hsilent : ∀ d pc, (∀ resp, pc ≠ .print resp) → ∀ c resp,
      Function.update s.client d pc c = .print resp → s.client c = .print resp := by
    intro d pc hpc c resp hc
    rcases eq_or_ne c d with rfl | hne
    · exact absurd (by simpa using hc) (hpc resp)
    · rwa [Function.update_of_ne hne] at hc
  cases l with
  | client d =>
    have hd : s.client d ≠ .gone := by
      intro hgone
      simp [Step, next, clientNext, hgone] at h
    rcases client_cases h with ⟨n, -, rfl⟩ | ⟨pc, -, -, hpc, rfl⟩
    · refine ⟨hkeep d _ _ (.inr hd), hsilent d _ ?_⟩
      rintro resp ⟨⟩
    · refine ⟨hkeep d pc s.fifo (.inr hd), hsilent d pc ?_⟩
      rcases hpc with rfl | rfl
      · rintro resp ⟨⟩
      · rintro resp ⟨⟩
  | leave d =>
    obtain ⟨-, rfl⟩ := leave_cases h
    refine ⟨hkeep d .gone s.fifo (.inl rfl), hsilent d .gone ?_⟩
    rintro resp ⟨⟩
  | server =>
    rcases hs with hgone | ⟨req, hopen | hopen, hgone⟩
    · simp [Step, next, serverNext, hgone] at h
    · simp only [Step, next, serverNext, hopen, hgone, Option.some.injEq] at h
      subst h
      exact ⟨.inl rfl, fun _ _ hc => hc⟩
    · simp [Step, next, serverNext, hopen, hgone] at h
  | enter =>
    rcases hs with hgone | ⟨req, hopen | hopen, hgone⟩
    · simp [Step, next, hgone] at h
    · simp [Step, next, hopen, hgone] at h
    · simp [Step, next, hopen] at h

/-- Nobody is answered any more once the server is to open the FIFO of a client that has gone. -/
theorem unanswered {ls : List (Label C)} (hs : s.Stopped) (h : Run (Step argv1) s ls s') (c : C)
    (resp : Response) (hc : s'.client c = .print resp) : s.client c = .print resp := by
  have hrun := h.invariant (I := fun t => t.Stopped ∧
      ∀ c resp, t.client c = .print resp → s.client c = .print resp)
    (fun t _ u ht hstep => ?_) ⟨hs, fun _ _ hc => hc⟩
  · exact hrun.2 c resp hc
  · obtain ⟨hu, hsilent⟩ := ht.1.step hstep
    exact ⟨hu, fun c resp hc => ht.2 c resp (hsilent c resp hc)⟩

/-- A run of two clients, of which the first goes when the server has opened its FIFO. -/
def firstGoes : List (Label Bool) :=
  [.client true, .client true, .client false, .client false, .server, .enter, .server, .leave true,
    .server, .server, .server, .server]

/-- The second of them is answered. -/
theorem answered_if_in_time_two : ∃ π : Path (Step (C := Bool) fun _ => some ['1']),
    (π.state 8).client true = .gone ∧ ∃ m, 4 ≤ m ∧ ∃ resp, (π.state m).client false = .print resp := by
  have hexec : ((exec (guardedNext (next fun _ => some ['1']) InTime) State.init firstGoes).map
      fun s => (s.server, s.fifo, s.client false)) = some (.read, [], .print ⟨1⟩) := by decide
  have hstays : ∀ m < 12, ((exec (guardedNext (next fun _ => some ['1']) InTime) State.init
      (firstGoes.take m)).map (·.client false)) ≠ some .gone := by decide
  obtain ⟨t, ht, hend⟩ := Option.map_eq_some_iff.mp hexec
  obtain ⟨hserver, hfifo, hprint⟩ := by simpa using hend
  obtain ⟨π, hin, hstate, -⟩ := Path.of_exec_guarded ht
  have h0 : π.state 0 = State.init := (Option.some.inj (hstate 0)).symm
  have hlast : ∀ m, 12 ≤ m → π.state m = t := by
    intro m hm
    have hm' := hstate m
    rw [List.take_of_length_le hm, ht] at hm'
    exact (Option.some.inj hm').symm
  have hgone : (some (π.state 8)).map (·.client true) = some .gone := by
    rw [← hstate 8]
    decide
  have hwaits : (some (π.state 4)).map (·.client false) = some .openFifo := by
    rw [← hstate 4]
    decide
  have hfair : π.Fair Label.ofServer := by
    refine Path.fair_of_rest hlast ?_
    rintro l s (rfl | rfl) hstep <;> simp [next, serverNext, hserver, hfifo] at hstep
  refine ⟨π, Option.some.inj hgone, (answered_if_in_time .refl).2 π h0 hfair hin false 4
    (.inl (Option.some.inj hwaits)) ?_⟩
  intro m _ hm
  rcases lt_or_ge m 12 with hlt | hge
  · refine absurd ?_ (hstays m hlt)
    rw [hstate m, Option.map_some, hm]
  · rw [hlast m hge, hprint] at hm
    cases hm

/-- A client that goes when it has written its request: the server ends, and the other client, which
waits for its response, is never answered. -/
theorem server_ends_early : ∃ (ls : List (Label Bool)) (s : State Bool),
    Run (Step fun _ => some ['1']) State.init ls s ∧ s.server = .gone ∧ s.Waits false ∧
      ∀ ls' s', Run (Step fun _ => some ['1']) s ls' s' → ∀ resp, s'.client false ≠ .print resp := by
  have hexec : ((exec (next (C := Bool) fun _ => some ['1']) State.init
      [.client true, .client true, .client false, .client false, .leave true, .server, .server]).map
      fun s => (s.server, s.client false)) = some (.gone, .openFifo) := by decide
  obtain ⟨s, hrun, hend⟩ := Run.of_exec_map hexec
  obtain ⟨hserver, hwaits⟩ := Prod.mk.inj hend
  refine ⟨_, s, hrun, hserver, .inl hwaits, ?_⟩
  intro ls' s' hrun' resp hresp
  have hold := unanswered (.inl hserver) hrun' false resp hresp
  cases hwaits.symm.trans hold

end SeqNum

end Ulsp
