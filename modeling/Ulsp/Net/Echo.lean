import Mathlib.Algebra.Order.Ring.Int
import Ulsp.Lib.Buffer
import Ulsp.Lib.Epoll
import Ulsp.Lib.Run

/-!
# The echo server (`net/echo_server_epoll.c`)

One process answers the connections of `listenfd` and the datagrams of `udpfd`, all registered
edge-triggered. Its steps are those of the loop over the events of an `epoll_wait`: an `accept` or a
`recvfrom` for each event of these two, and for an event of a connection `recv` and `send` in turn
until nothing is left to read. Clients connect, send and shut down between any two of them. What a
connection has sent comes back to it (`echoed`), but connections and datagrams whose arrival merged
with an earlier event are left waiting (`stranded`). All three kinds of input share `buf`, and `sendto`
is called for each datagram, with zeros behind it; but the length it is given for the address of the
client is the address of `client_addrlen`, and unless that happens to be a possible length nothing is
sent (`none_answered`).
-/

namespace Ulsp

open Lib

namespace Echo

/-- The most bytes that are read at a time, `BUFSIZE - 1`. -/
def maxRead : ℕ := 511

/-- `MAX_EVENT_NUMBER`. -/
def maxEventNumber : ℕ := 1024

/-- The descriptors that are watched. -/
inductive Fd where
  | listenfd
  | udpfd
  | connfd (fd : ℕ)
  deriving DecidableEq, Repr

/-- A connection: all that its client has sent, what of that is not read yet, whether the client has
shut down, what was sent back, and whether every `send` took all its bytes. -/
structure Conn where
  sent : List UInt8
  unread : List UInt8
  eof : Bool
  echoed : List UInt8
  whole : Bool
  deriving DecidableEq, Repr

/-- What a client does with its connection. -/
inductive Segment where
  | data (bytes : List UInt8)
  | shutdown
  deriving DecidableEq, Repr

/-- The connection after that; nothing follows a shutdown. -/
def Conn.receive (c : Conn) : Segment → Conn
  | .data bytes => if c.eof then c else { c with sent := c.sent ++ bytes, unread := c.unread ++ bytes }
  | .shutdown => { c with eof := true }

/-- There is something for `recv`. -/
def Conn.readable (c : Conn) : Bool := c.unread ≠ [] || c.eof

/-- A connection of a client that has done this. -/
def Conn.after (as : List Segment) : Conn := as.foldl Conn.receive ⟨[], [], false, [], true⟩

/-- A datagram, with the address it comes from. -/
abbrev Datagram := ℕ × List UInt8

/-- Where the server is: in `epoll_wait`, at the events that are left, before a `recv` on a
connection, or before the `send` of the bytes received. -/
inductive Pc where
  | wait
  | dispatch (events : List Fd)
  | recv (fd : ℕ) (events : List Fd)
  | send (fd ret : ℕ) (events : List Fd)
  deriving DecidableEq, Repr

/-- `sendto` takes an address of this length: it is that of a `struct sockaddr_in` at least, and no more
than the `struct sockaddr_storage` of the kernel. Any other length is refused (`EINVAL`). -/
def AddrLen (n : ℕ) : Prop := 16 ≤ n ∧ n ≤ 128

instance : DecidablePred AddrLen := fun n => inferInstanceAs (Decidable (16 ≤ n ∧ n ≤ 128))

/-- The server. `lenptr` is the address of `client_addrlen`. `finished` are the connections that were
closed at the end of their input, `answers` the datagrams that `sendto` was called for, `replies` those
that were sent, `refused` the number of calls of `accept` that failed, and `merged` and `mergedUdp` the
arrivals that had no event of their own. -/
structure State where
  epoll : Epoll Fd
  buf : Buffer
  lenptr : ℕ
  backlog : List Conn
  conns : ℕ → Option Conn
  finished : List Conn
  datagrams : List Datagram
  received : List Datagram
  answers : List Datagram
  replies : List Datagram
  refused : ℕ
  merged : ℕ
  mergedUdp : ℕ
  pc : Pc

/-- The server before its loop, with the connections and datagrams that are there already. -/
def init (buf : Buffer) (lenptr : ℕ) (clients : List (List Segment))
    (datagrams : List Datagram) : State where
  epoll := (Epoll.create.add .listenfd (!clients.isEmpty)).add .udpfd (!datagrams.isEmpty)
  buf := buf
  lenptr := lenptr
  backlog := clients.map Conn.after
  conns _ := none
  finished := []
  datagrams := datagrams
  received := datagrams
  answers := []
  replies := []
  refused := 0
  merged := clients.length - 1
  mergedUdp := datagrams.length - 1
  pc := .wait

/-- What happens: a client connects, does something with a connection that is waiting or accepted, or
sends a datagram; or the server takes a step, with the result of its call. -/
inductive Label where
  | connect
  | early (j : ℕ) (a : Segment)
  | segment (fd : ℕ) (a : Segment)
  | datagram (d : Datagram)
  | wait
  | next
  | accept (fd : ℕ)
  | recvfrom (fails : Bool)
  | recv (n : ℕ)
  | recvFails
  | send (n : ℕ)
  deriving DecidableEq, Repr

/-- `close` of a connection; nothing happens to a descriptor that is closed already. -/
def State.close (s : State) (fd : ℕ) : State :=
  { s with conns := Function.update s.conns fd none, epoll := s.epoll.close (.connfd fd) }

/-- `sendto` of a datagram, with a pointer as the length of the address: as an `int`, it has the low 32
bits of the pointer. It may fail for another reason (`fails`); the code ignores its result. -/
def State.sendto (s : State) (d : Datagram) (addrlen : ℕ) (fails : Bool) : State :=
  { s with
    answers := s.answers ++ [d]
    replies := if AddrLen (addrlen % 2 ^ 32) ∧ !fails then s.replies ++ [d] else s.replies }

/-- An event of `udpfd`: `buf` is cleared, a datagram read into it, and `sendto` called with it. -/
def recvfrom (s : State) (fails : Bool) : State :=
  let buf : Buffer := fun _ => 0
  match s.datagrams with
  | [] => { s with buf }
  | (client, bytes) :: datagrams =>
    let buf := buf.store 0 (bytes.take maxRead)
    if bytes = [] then { s with buf, datagrams }
    else { s with buf, datagrams }.sendto (client, buf.take maxRead) s.lenptr fails

/-- `recv` on a connection that does not fail, with the number of bytes it returns: 0 at the end of the
input, where the connection is closed and the loop goes on, or where there is none yet. -/
def recv (s : State) (fd n : ℕ) (events : List Fd) : Option State :=
  match s.conns fd with
  | none => none
  | some c =>
    if n = 0 then
      if c.unread ≠ [] then none
      else if c.eof then some { s.close fd with finished := s.finished ++ [c], pc := .recv fd events }
      else some { s with pc := .dispatch events }
    else if n ≤ maxRead ∧ n ≤ c.unread.length then
      some { s with
        buf := s.buf.store 0 (c.unread.take n)
        conns := Function.update s.conns fd (some { c with unread := c.unread.drop n })
        pc := .send fd n events }
    else none

/-- `send` on a connection of the `ret` bytes received, of which it takes `n`. -/
def send (s : State) (fd ret n : ℕ) (events : List Fd) : Option State :=
  if n ≤ ret then
    (s.conns fd).map fun c => { s with
      conns := Function.update s.conns fd (some { c with
        echoed := c.echoed ++ (s.buf.take ret).take n
        whole := c.whole && n == ret })
      pc := .recv fd events }
  else none

/-- The steps. -/
def next (s : State) : Label → Option State
  | .connect => some { s with
      backlog := s.backlog ++ [.after []]
      epoll := s.epoll.notify .listenfd
      merged := s.merged + (s.epoll.merges .listenfd (!s.backlog.isEmpty)).toNat }
  | .early j a => (s.backlog[j]?).map fun c => { s with backlog := s.backlog.set j (c.receive a) }
  | .segment fd a => (s.conns fd).map fun c => { s with
      conns := Function.update s.conns fd (some (c.receive a))
      epoll := s.epoll.notify (.connfd fd) }
  | .datagram d => some { s with
      datagrams := s.datagrams ++ [d]
      received := s.received ++ [d]
      epoll := s.epoll.notify .udpfd
      mergedUdp := s.mergedUdp + (s.epoll.merges .udpfd (!s.datagrams.isEmpty)).toNat }
  | .wait =>
    match s.pc with
    | .wait =>
      if s.epoll.ready = [] then none
      else
        let (events, epoll) := s.epoll.wait maxEventNumber
        some { s with epoll, pc := .dispatch events }
    | _ => none
  | .next =>
    match s.pc with
    | .dispatch [] => some { s with pc := .wait }
    | .dispatch (.listenfd :: events) =>
        some { s with refused := s.refused + 1, pc := .dispatch events }
    | .dispatch (.connfd fd :: events) => some { s with pc := .recv fd events }
    | _ => none
  | .accept fd =>
    match s.pc, s.backlog with
    | .dispatch (.listenfd :: events), c :: backlog =>
      if (s.conns fd).isSome then none
      else some { s with
        backlog
        conns := Function.update s.conns fd (some c)
        epoll := s.epoll.add (.connfd fd) c.readable
        pc := .dispatch events }
    | _, _ => none
  | .recvfrom fails =>
    match s.pc with
    | .dispatch (.udpfd :: events) => some { recvfrom s fails with pc := .dispatch events }
    | _ => none
  | .recv n =>
    match s.pc with
    | .recv fd events => recv s fd n events
    | _ => none
  | .recvFails => -- also the second pass over a descriptor that was closed at the end of its input
    match s.pc with
    | .recv fd events => some { s.close fd with pc := .dispatch events }
    | _ => none
  | .send n =>
    match s.pc with
    | .send fd ret events => send s fd ret n events
    | _ => none

/-- The step relation. -/
def Step (s : State) (l : Label) (t : State) : Prop := next s l = some t

/-- The server is blocked in `epoll_wait`. -/
def State.Idle (s : State) : Prop := s.pc = .wait ∧ s.epoll.ready = []

/-- The events the server still has to handle. -/
def Pc.events : Pc → List Fd
  | .wait => []
  | .dispatch events | .recv _ events | .send _ _ events => events

/-- The connection whose event the server handles. -/
def Pc.handles : Pc → Option ℕ
  | .recv fd _ | .send fd _ _ => some fd
  | _ => none

/-- The descriptor has an event, queued or taken, or is at work. -/
def State.Due (s : State) (fd : ℕ) : Prop :=
  .connfd fd ∈ s.epoll.ready ∨ .connfd fd ∈ s.pc.events ∨ s.pc.handles = some fd

/-! ## What a step does -/

/-- The cases of a step. -/
inductive Moves (s s' : State) : Prop
  | connects : s' = { s with
      backlog := s.backlog ++ [.after []]
      epoll := s.epoll.notify .listenfd
      merged := s.merged + (s.epoll.merges .listenfd (!s.backlog.isEmpty)).toNat } → Moves s s'
  | early (j : ℕ) (a : Segment) (c : Conn) : s.backlog[j]? = some c →
    s' = { s with backlog := s.backlog.set j (c.receive a) } → Moves s s'
  | segment (fd : ℕ) (a : Segment) (c : Conn) : s.conns fd = some c → s' = { s with
      conns := Function.update s.conns fd (some (c.receive a))
      epoll := s.epoll.notify (.connfd fd) } → Moves s s'
  | datagram (d : Datagram) : s' = { s with
      datagrams := s.datagrams ++ [d]
      received := s.received ++ [d]
      epoll := s.epoll.notify .udpfd
      mergedUdp := s.mergedUdp + (s.epoll.merges .udpfd (!s.datagrams.isEmpty)).toNat } → Moves s s'
  | waits : s.pc = .wait → s' = { s with
      epoll := (s.epoll.wait maxEventNumber).2
      pc := .dispatch (s.epoll.wait maxEventNumber).1 } → Moves s s'
  | ends : s.pc = .dispatch [] → s' = { s with pc := .wait } → Moves s s'
  | refuses (events : List Fd) : s.pc = .dispatch (.listenfd :: events) →
    s' = { s with refused := s.refused + 1, pc := .dispatch events } → Moves s s'
  | begins (fd : ℕ) (events : List Fd) : s.pc = .dispatch (.connfd fd :: events) →
    s' = { s with pc := .recv fd events } → Moves s s'
  | accepts (fd : ℕ) (c : Conn) (backlog : List Conn) (events : List Fd) :
    s.pc = .dispatch (.listenfd :: events) → s.backlog = c :: backlog → s.conns fd = none →
    s' = { s with
      backlog
      conns := Function.update s.conns fd (some c)
      epoll := s.epoll.add (.connfd fd) c.readable
      pc := .dispatch events } → Moves s s'
  | answers (fails : Bool) (events : List Fd) : s.pc = .dispatch (.udpfd :: events) →
    s' = { recvfrom s fails with pc := .dispatch events } → Moves s s'
  | reads (fd n : ℕ) (c : Conn) (events : List Fd) : s.pc = .recv fd events → s.conns fd = some c →
    n ≤ c.unread.length → s' = { s with
      buf := s.buf.store 0 (c.unread.take n)
      conns := Function.update s.conns fd (some { c with unread := c.unread.drop n })
      pc := .send fd n events } → Moves s s'
  | finishes (fd : ℕ) (c : Conn) (events : List Fd) : s.pc = .recv fd events → s.conns fd = some c →
    c.unread = [] → s' = { s.close fd with finished := s.finished ++ [c], pc := .recv fd events } →
    Moves s s'
  | drained (fd : ℕ) (c : Conn) (events : List Fd) : s.pc = .recv fd events → s.conns fd = some c →
    c.readable = false → s' = { s with pc := .dispatch events } → Moves s s'
  | fails (fd : ℕ) (events : List Fd) : s.pc = .recv fd events →
    s' = { s.close fd with pc := .dispatch events } → Moves s s'
  | sends (fd ret n : ℕ) (c : Conn) (events : List Fd) : s.pc = .send fd ret events →
    s.conns fd = some c → n ≤ ret → s' = { s with
      conns := Function.update s.conns fd (some { c with
        echoed := c.echoed ++ (s.buf.take ret).take n
        whole := c.whole && n == ret })
      pc := .recv fd events } → Moves s s'

variable {s s' : State} {l : Label} {fd n : ℕ} {events : List Fd} {c : Conn}

/-- What `recv` makes of the bytes is one of these cases. -/
theorem recv_cases (hpc : s.pc = .recv fd events) (h : recv s fd n events = some s') : Moves s s' := by
  unfold recv at h
  cases hc : s.conns fd with
  | none =>
    rw [hc] at h
    cases h
  | some c =>
    simp only [hc] at h
    split at h
    · split at h
      · cases h
      · rename_i hunread
        have hnil : c.unread = [] := not_not.mp hunread
        split at h
        · cases h
          exact .finishes fd c events hpc hc hnil rfl
        · rename_i heof
          cases h
          exact .drained fd c events hpc hc (by simp [Conn.readable, hnil, heof]) rfl
    · split at h
      · rename_i hn
        cases h
        exact .reads fd n c events hpc hc hn.2 rfl
      · cases h

/-- A step is one of these cases. -/
theorem step_cases (h : Step s l s') : Moves s s' := by
  cases l with
  | connect =>
    cases h
    exact .connects rfl
  | early j a =>
    obtain ⟨c, hc, heq⟩ := Option.map_eq_some_iff.mp h
    exact .early j a c hc heq.symm
  | segment fd a =>
    obtain ⟨c, hc, heq⟩ := Option.map_eq_some_iff.mp h
    exact .segment fd a c hc heq.symm
  | datagram d =>
    cases h
    exact .datagram d rfl
  | wait =>
    cases hpc : s.pc with
    | wait =>
      simp only [Step, next, hpc] at h
      obtain ⟨-, heq⟩ := Option.ite_none_left_eq_some.mp h
      exact .waits hpc (Option.some.inj heq).symm
    | _ => simp [Step, next, hpc] at h
  | next =>
    simp only [Step, next] at h
    split at h
    · exact .ends ‹_› (Option.some.inj h).symm
    · exact .refuses _ ‹_› (Option.some.inj h).symm
    · exact .begins _ _ ‹_› (Option.some.inj h).symm
    · cases h
  | accept fd =>
    simp only [Step, next] at h
    split at h
    · rename_i events c backlog hpc hback
      obtain ⟨hnone, heq⟩ := Option.ite_none_left_eq_some.mp h
      exact .accepts fd c backlog events hpc hback (Option.not_isSome_iff_eq_none.mp hnone)
        (Option.some.inj heq).symm
    · cases h
  | recvfrom fails =>
    simp only [Step, next] at h
    split at h
    · exact .answers fails _ ‹_› (Option.some.inj h).symm
    · cases h
  | recv n =>
    simp only [Step, next] at h
    split at h
    · exact recv_cases ‹_› h
    · cases h
  | recvFails =>
    simp only [Step, next] at h
    split at h
    · exact .fails _ _ ‹_› (Option.some.inj h).symm
    · cases h
  | send n =>
    simp only [Step, next] at h
    split at h
    · obtain ⟨hn, h⟩ := Option.ite_none_right_eq_some.mp h
      obtain ⟨c, hc, heq⟩ := Option.map_eq_some_iff.mp h
      exact .sends _ _ n c _ ‹_› hc hn heq.symm
    · cases h

/-! ## What comes back to a connection -/

/-- What is sent back, what is received and not sent back yet, and what is not read are what the
client has sent, in its order: all of it, unless a `send` has left some out. -/
structure Conn.Ok (c : Conn) (inflight : List UInt8) : Prop where
  order : List.Sublist (c.echoed ++ inflight ++ c.unread) c.sent
  whole : c.whole = true → c.echoed ++ inflight ++ c.unread = c.sent

section Conn

variable {inflight : List UInt8}

/-- A segment that arrives is neither lost nor echoed yet. -/
theorem Conn.Ok.receive (h : c.Ok inflight) (a : Segment) : (c.receive a).Ok inflight := by
  cases a with
  | shutdown => exact ⟨h.order, h.whole⟩
  | data bytes =>
    simp only [Conn.receive]
    split
    · exact h
    · refine ⟨?_, fun hw => ?_⟩
      · rw [← List.append_assoc]
        exact h.order.append_right bytes
      · rw [← List.append_assoc, h.whole hw]

/-- Nothing that a connection has received before it is accepted is lost. -/
theorem Conn.ok_after (as : List Segment) : (Conn.after as).Ok [] := by
  have hall : ∀ c : Conn, c.Ok [] → (as.foldl Conn.receive c).Ok [] := by
    induction as with
    | nil => exact fun c h => h
    | cons a as ih => exact fun c h => ih _ (h.receive a)
  exact hall _ ⟨.refl _, fun _ => rfl⟩

/-- What is read is in flight. -/
theorem Conn.Ok.read (h : c.Ok []) (n : ℕ) :
    Conn.Ok { c with unread := c.unread.drop n } (c.unread.take n) := by
  have hsplit : c.echoed ++ c.unread.take n ++ c.unread.drop n = c.echoed ++ [] ++ c.unread := by
    rw [List.append_assoc, List.take_append_drop, List.append_nil]
  refine ⟨?_, fun hw => ?_⟩
  · rw [hsplit]
    exact h.order
  · rw [hsplit]
    exact h.whole hw

/-- What is in flight is echoed by a `send`. -/
theorem Conn.Ok.send (h : c.Ok inflight) (n : ℕ) : Conn.Ok { c with
    echoed := c.echoed ++ inflight.take n
    whole := c.whole && n == inflight.length } [] := by
  refine ⟨?_, fun hw => ?_⟩
  · have htake : List.Sublist (c.echoed ++ inflight.take n ++ [] ++ c.unread)
        (c.echoed ++ inflight ++ c.unread) := by
      rw [List.append_nil]
      exact ((List.take_sublist n inflight).append_left c.echoed).append_right c.unread
    exact htake.trans h.order
  · obtain ⟨hwhole, hn⟩ := Bool.and_eq_true_iff.mp hw
    obtain rfl := eq_of_beq hn
    rw [List.take_length, List.append_nil]
    exact h.whole hwhole

end Conn

/-- What was received from a connection and not sent back yet. -/
def State.inflight (s : State) (fd : ℕ) : List UInt8 :=
  match s.pc with
  | .send fd' ret _ => if fd' = fd then s.buf.take ret else []
  | _ => []

/-- The connections have got back what they should, but for what is on its way. -/
def AllOk (conns : ℕ → Option Conn) (inflight : ℕ → List UInt8) : Prop :=
  ∀ fd c, conns fd = some c → c.Ok (inflight fd)

/-- Every connection has got back what it should. -/
structure Echoes (s : State) : Prop where
  conns : AllOk s.conns s.inflight
  backlog : ∀ c ∈ s.backlog, c.Ok []
  finished : ∀ c ∈ s.finished, c.unread = [] ∧ c.Ok []

/-- One connection changes. -/
theorem AllOk.update {conns : ℕ → Option Conn} {inflight inflight' : ℕ → List UInt8}
    (h : AllOk conns inflight) {x : Option Conn} (hx : ∀ c, x = some c → c.Ok (inflight' fd))
    (hsame : ∀ fd', fd' ≠ fd → inflight' fd' = inflight fd') :
    AllOk (Function.update conns fd x) inflight' := by
  intro fd' c hc
  rcases eq_or_ne fd' fd with rfl | hne
  · rw [Function.update_self] at hc
    exact hx c hc
  · rw [Function.update_of_ne hne] at hc
    rw [hsame fd' hne]
    exact h fd' c hc

/-- Nothing is in flight but between a `recv` and a `send`. -/
theorem inflight_eq_nil (hpc : ∀ fd ret events, s.pc ≠ .send fd ret events) :
    s.inflight = fun _ => [] := by
  funext fd
  unfold State.inflight
  split
  · exact absurd ‹_› (hpc _ _ _)
  · rfl

/-- Between them it is what was read into the buffer. -/
theorem inflight_send {ret : ℕ} (hpc : s.pc = .send fd ret events) :
    s.inflight = fun fd' => if fd = fd' then s.buf.take ret else [] := by
  funext fd'
  unfold State.inflight
  rw [hpc]

/-- A step loses no byte between what is read and what is echoed. -/
theorem echoes_step (h : Echoes s) (hstep : Step s l s') : Echoes s' := by
  -- between a `send` and the next `recv` that returns something nothing is on its way
  have hnone : ∀ {pc : Pc}, s.pc = pc → (∀ fd ret events, pc ≠ .send fd ret events) →
      AllOk s.conns fun _ => [] := by
    rintro pc rfl hpc
    rw [← inflight_eq_nil hpc]
    exact h.conns
  cases step_cases hstep with
  | connects heq =>
    subst heq
    exact ⟨h.conns, by simpa [or_imp, forall_and] using ⟨h.backlog, Conn.ok_after []⟩, h.finished⟩
  | early j a c hc heq =>
    subst heq
    refine ⟨h.conns, fun c' hc' => ?_, h.finished⟩
    rcases List.mem_or_eq_of_mem_set hc' with hmem | rfl
    · exact h.backlog c' hmem
    · exact (h.backlog c (List.mem_of_getElem? hc)).receive a
  | segment fd a c hc heq =>
    subst heq
    refine ⟨h.conns.update ?_ fun _ _ => rfl, h.backlog, h.finished⟩
    rintro _ ⟨⟩
    exact (h.conns fd c hc).receive a
  | datagram d heq =>
    subst heq
    exact ⟨h.conns, h.backlog, h.finished⟩
  | waits hpc heq =>
    subst heq
    exact ⟨hnone hpc nofun, h.backlog, h.finished⟩
  | ends hpc heq =>
    subst heq
    exact ⟨hnone hpc nofun, h.backlog, h.finished⟩
  | refuses events hpc heq =>
    subst heq
    exact ⟨hnone hpc nofun, h.backlog, h.finished⟩
  | begins fd events hpc heq =>
    subst heq
    exact ⟨hnone hpc nofun, h.backlog, h.finished⟩
  | accepts fd c backlog events hpc hback hfree heq =>
    subst heq
    obtain ⟨hc, hrest⟩ := List.forall_mem_cons.mp (hback ▸ h.backlog)
    refine ⟨(hnone hpc nofun).update ?_ fun _ _ => rfl, hrest, h.finished⟩
    rintro _ ⟨⟩
    exact hc
  | answers fails events hpc heq =>
    subst heq
    have hall := hnone hpc nofun
    unfold recvfrom
    split
    · exact ⟨hall, h.backlog, h.finished⟩
    · split
      · exact ⟨hall, h.backlog, h.finished⟩
      · exact ⟨hall, h.backlog, h.finished⟩
  | reads fd n c events hpc hc hn heq =>
    subst heq
    have hall := hnone hpc nofun
    have htake : (s.buf.store 0 (c.unread.take n)).take n = c.unread.take n := by
      have hstored : (s.buf.store 0 (c.unread.take n)).take (0 + (c.unread.take n).length) =
          s.buf.take 0 ++ c.unread.take n := Buffer.take_store
      rwa [Nat.zero_add, List.length_take_of_le hn] at hstored
    refine ⟨hall.update ?_ fun fd' hne => if_neg hne.symm, h.backlog, h.finished⟩
    rintro _ ⟨⟩
    change Conn.Ok _ (if fd = fd then _ else [])
    rw [if_pos rfl, htake]
    exact (hall fd c hc).read n
  | finishes fd c events hpc hc hnil heq =>
    subst heq
    have hall := hnone hpc nofun
    refine ⟨hall.update nofun fun _ _ => rfl, h.backlog, fun c' hc' => ?_⟩
    rcases List.mem_append.mp hc' with hmem | hmem
    · exact h.finished c' hmem
    · obtain rfl := List.mem_singleton.mp hmem
      exact ⟨hnil, hall fd c' hc⟩
  | drained fd c events hpc hc hnot heq =>
    subst heq
    exact ⟨hnone hpc nofun, h.backlog, h.finished⟩
  | fails fd events hpc heq =>
    subst heq
    exact ⟨(hnone hpc nofun).update nofun fun _ _ => rfl, h.backlog, h.finished⟩
  | sends fd ret n c events hpc hc hn heq =>
    subst heq
    have hall := h.conns
    rw [inflight_send hpc] at hall
    refine ⟨hall.update ?_ fun fd' hne => (if_neg hne.symm).symm, h.backlog, h.finished⟩
    rintro _ ⟨⟩
    have hok := (hall fd c hc).send n
    simp only [if_true, Buffer.length_take] at hok
    exact hok

/-! ## Events -/

/-- Every connection is registered, and those with something to read are due. -/
structure Watched (s : State) : Prop where
  registered : ∀ fd c, s.conns fd = some c → .connfd fd ∈ s.epoll.interest
  due : ∀ fd c, s.conns fd = some c → c.readable = true → s.Due fd

/-- A step after which what was due is so, but for one connection. -/
theorem Watched.update (h : Watched s) (fd : ℕ) (hconns : ∀ fd', fd' ≠ fd → s'.conns fd' = s.conns fd')
    (hinterest : ∀ fd', fd' ≠ fd → Fd.connfd fd' ∈ s.epoll.interest → Fd.connfd fd' ∈ s'.epoll.interest)
    (hdue : ∀ fd', fd' ≠ fd → s.Due fd' → s'.Due fd')
    (hfd : ∀ c, s'.conns fd = some c →
      .connfd fd ∈ s'.epoll.interest ∧ (c.readable = true → s'.Due fd)) :
    Watched s' := by
  refine ⟨fun fd' c hc => ?_, fun fd' c hc hread => ?_⟩
  · rcases eq_or_ne fd' fd with rfl | hne
    · exact (hfd c hc).1
    · exact hinterest fd' hne (h.registered fd' c ((hconns fd' hne).symm.trans hc))
  · rcases eq_or_ne fd' fd with rfl | hne
    · exact (hfd c hc).2 hread
    · exact hdue fd' hne (h.due fd' c ((hconns fd' hne).symm.trans hc) hread)

/-- A step that is none of a connection. -/
theorem Watched.move (h : Watched s) (hconns : s'.conns = s.conns)
    (hinterest : s'.epoll.interest = s.epoll.interest) (hdue : ∀ fd, s.Due fd → s'.Due fd) :
    Watched s' := by
  refine ⟨fun fd c hc => ?_, fun fd c hc hread => ?_⟩
  · rw [hinterest]
    exact h.registered fd c (hconns ▸ hc)
  · exact hdue fd (h.due fd c (hconns ▸ hc) hread)

/-- A step leaves no unread byte without an event. -/
theorem watched_step (h : Watched s) (hstep : Step s l s') : Watched s' := by
  have hnotify : ∀ {d : Fd} {fd : ℕ}, .connfd fd ∈ s.epoll.ready →
      .connfd fd ∈ (s.epoll.notify d).ready := fun hready => Epoll.mem_ready_notify.mpr (.inl hready)
  cases step_cases hstep with
  | connects heq =>
    subst heq
    exact h.move rfl Epoll.interest_notify fun fd hdue => Or.imp_left hnotify hdue
  | early j a c hc heq =>
    subst heq
    exact h.move rfl rfl fun fd hdue => hdue
  | segment fd a c hc heq =>
    subst heq
    have hreg := h.registered fd c hc
    refine h.update fd (fun fd' hne => Function.update_of_ne hne ..) (fun fd' _ hin => ?_)
      (fun fd' _ hdue => Or.imp_left hnotify hdue) fun c' _ => ⟨?_, fun _ => ?_⟩
    · rwa [Epoll.interest_notify]
    · rwa [Epoll.interest_notify]
    · exact Or.inl (Epoll.mem_ready_notify.mpr (.inr ⟨rfl, hreg⟩))
  | datagram d heq =>
    subst heq
    exact h.move rfl Epoll.interest_notify fun fd hdue => Or.imp_left hnotify hdue
  | waits hpc heq =>
    subst heq
    refine h.move rfl rfl fun fd hdue => ?_
    simp only [State.Due, hpc, Pc.events, Pc.handles, List.not_mem_nil, reduceCtorEq, or_false] at hdue
    obtain htaken | hleft : .connfd fd ∈ (s.epoll.wait maxEventNumber).1 ∨
        .connfd fd ∈ (s.epoll.wait maxEventNumber).2.ready := Epoll.mem_wait hdue
    · exact Or.inr (.inl htaken)
    · exact Or.inl hleft
  | ends hpc heq =>
    subst heq
    refine h.move rfl rfl fun fd hdue => ?_
    simpa [State.Due, hpc, Pc.events, Pc.handles] using hdue
  | refuses events hpc heq =>
    subst heq
    refine h.move rfl rfl fun fd hdue => ?_
    simpa [State.Due, hpc, Pc.events, Pc.handles] using hdue
  | begins fd events hpc heq =>
    subst heq
    refine h.move rfl rfl fun fd' hdue => ?_
    simp only [State.Due, hpc, Pc.events, Pc.handles, List.mem_cons, Fd.connfd.injEq] at hdue ⊢
    rcases hdue with hready | (rfl | hevents) | hhandles
    · exact .inl hready
    · exact .inr (.inr rfl)
    · exact .inr (.inl hevents)
    · cases hhandles
  | accepts fd c backlog events hpc hback hfree heq =>
    subst heq
    refine h.update fd (fun fd' hne => Function.update_of_ne hne ..) (fun fd' _ hin => ?_)
      (fun fd' hne hdue => ?_) fun c' hc' => ⟨?_, fun hread => ?_⟩
    · rw [Epoll.interest_add]
      exact List.mem_cons_of_mem _ hin
    · simp only [State.Due, hpc, Pc.events, Pc.handles, List.mem_cons, reduceCtorEq, false_or] at hdue ⊢
      exact hdue.imp_left fun hready => Epoll.mem_ready_add.mpr (.inl hready)
    · rw [Epoll.interest_add]
      exact List.mem_cons_self
    · have hsame : Function.update s.conns fd (some c) fd = some c := Function.update_self ..
      obtain rfl : c = c' := Option.some.inj (hsame.symm.trans hc')
      exact Or.inl (Epoll.mem_ready_add.mpr (.inr ⟨rfl, hread⟩))
  | answers fails events hpc heq =>
    subst heq
    have hsame : (recvfrom s fails).conns = s.conns ∧ (recvfrom s fails).epoll = s.epoll := by
      unfold recvfrom
      split
      · exact ⟨rfl, rfl⟩
      · split <;> exact ⟨rfl, rfl⟩
    refine h.move hsame.1 (by rw [hsame.2]) fun fd hdue => ?_
    simpa [State.Due, hpc, Pc.events, Pc.handles, hsame.2] using hdue
  | reads fd n c events hpc hc hn heq =>
    subst heq
    refine h.update fd (fun fd' hne => Function.update_of_ne hne ..) (fun _ _ hin => hin)
      (fun fd' _ hdue => ?_) fun c' _ => ⟨h.registered fd c hc, fun _ => Or.inr (.inr rfl)⟩
    simpa [State.Due, hpc, Pc.events, Pc.handles] using hdue
  | finishes fd c events hpc hc hnil heq =>
    subst heq
    refine h.update fd (fun fd' hne => Function.update_of_ne hne ..) (fun fd' hne hin => ?_)
      (fun fd' hne hdue => ?_) fun c' hc' => ?_
    · exact Epoll.mem_interest_close.mpr ⟨hin, by simpa using hne⟩
    · simp only [State.Due, hpc] at hdue
      exact hdue.imp_left fun hready => Epoll.mem_ready_close.mpr ⟨hready, by simpa using hne⟩
    · cases (Function.update_self ..).symm.trans hc'
  | drained fd c events hpc hc hnot heq =>
    subst heq
    refine ⟨h.registered, fun fd' c' hc' hread => ?_⟩
    have hdue := h.due fd' c' hc' hread
    simp only [State.Due, hpc, Pc.events, Pc.handles] at hdue ⊢
    rcases hdue with hready | hevents | hhandles
    · exact .inl hready
    · exact .inr (.inl hevents)
    · cases hhandles
      obtain rfl := Option.some.inj (hc.symm.trans hc')
      rw [hnot] at hread
      cases hread
  | fails fd events hpc heq =>
    subst heq
    refine h.update fd (fun fd' hne => Function.update_of_ne hne ..) (fun fd' hne hin => ?_)
      (fun fd' hne hdue => ?_) fun c' hc' => ?_
    · exact Epoll.mem_interest_close.mpr ⟨hin, by simpa using hne⟩
    · simp only [State.Due, hpc, Pc.events, Pc.handles, Option.some.injEq] at hdue
      rcases hdue with hready | hevents | hhandles
      · exact Or.inl (Epoll.mem_ready_close.mpr ⟨hready, by simpa using hne⟩)
      · exact Or.inr (.inl hevents)
      · exact absurd hhandles.symm hne
    · cases (Function.update_self ..).symm.trans hc'
  | sends fd ret n c events hpc hc hn heq =>
    subst heq
    refine h.update fd (fun fd' hne => Function.update_of_ne hne ..) (fun _ _ hin => hin)
      (fun fd' _ hdue => ?_) fun c' _ => ⟨h.registered fd c hc, fun _ => Or.inr (.inr rfl)⟩
    simpa [State.Due, hpc, Pc.events, Pc.handles] using hdue

/-! ## What is left waiting -/

/-- The events of a descriptor, queued and taken. -/
def State.owed (s : State) (d : Fd) : ℕ := s.epoll.ready.count d + s.pc.events.count d

/-- `listenfd` and `udpfd` have an event for every connection and datagram that waits, but for those
whose arrival merged with another and those that could not be accepted. -/
structure Counted (s : State) : Prop where
  listenfd : .listenfd ∈ s.epoll.interest
  udpfd : .udpfd ∈ s.epoll.interest
  backlog : s.backlog.length = s.refused + s.merged + s.owed .listenfd
  datagrams : s.datagrams.length = s.mergedUdp + s.owed .udpfd

/-- An arrival at a registered descriptor has an event of its own, or merges. -/
theorem count_notify {e : Epoll Fd} {d : Fd} (h : d ∈ e.interest) (input : Bool) :
    (e.notify d).ready.count d + (e.merges d input).toNat = e.ready.count d + 1 := by
  have hq := e.queued_notify d input
  simpa only [Epoll.queued, Epoll.interest_notify, h, if_true] using hq

/-- `epoll_wait` takes events of a registered descriptor from the queue, and loses none. -/
theorem count_wait {e : Epoll Fd} {d : Fd} (h : d ∈ e.interest) :
    (e.wait maxEventNumber).2.ready.count d + (e.wait maxEventNumber).1.count d = e.ready.count d := by
  have hq := e.count_wait d true maxEventNumber
  simpa only [Epoll.queued, Epoll.interest_wait, h, if_true] using hq

/-- Closing a connection leaves the events of the other descriptors. -/
theorem count_close {e : Epoll Fd} {d : Fd} (h : d ∈ e.interest) (hne : d ≠ .connfd fd) :
    (e.close (.connfd fd)).ready.count d = e.ready.count d := by
  have hq : (e.close (.connfd fd)).queued d true = e.queued d true := e.queued_close_of_ne hne
  simpa only [Epoll.queued, Epoll.mem_interest_close, h, hne, ne_eq, not_false_eq_true, and_self,
    if_true] using hq

/-- Adding a connection leaves the events of the other descriptors. -/
theorem count_add {e : Epoll Fd} {d : Fd} (h : d ∈ e.interest) (hne : d ≠ .connfd fd) (input : Bool) :
    (e.add (.connfd fd) input).ready.count d = e.ready.count d := by
  have hq : (e.add (.connfd fd) input).queued d true = e.queued d true := e.queued_add_of_ne hne
  simpa only [Epoll.queued, Epoll.interest_add, List.mem_cons, hne, false_or, h, if_true] using hq

/-- A step that is none of `listenfd` and `udpfd`. -/
theorem Counted.move (h : Counted s) (hinterest : ∀ d, (∀ fd, d ≠ .connfd fd) → d ∈ s.epoll.interest →
      d ∈ s'.epoll.interest ∧ s'.owed d = s.owed d)
    (hbacklog : s'.backlog.length = s.backlog.length) (hdatagrams : s'.datagrams = s.datagrams)
    (hsame : s'.refused = s.refused ∧ s'.merged = s.merged ∧ s'.mergedUdp = s.mergedUdp) :
    Counted s' := by
  obtain ⟨hlisten, howed⟩ := hinterest .listenfd nofun h.listenfd
  obtain ⟨hudp, howed'⟩ := hinterest .udpfd nofun h.udpfd
  have hb := h.backlog
  have hd := h.datagrams
  exact ⟨hlisten, hudp, by omega, by rw [hdatagrams]; omega⟩

/-- A step keeps the balance of what waits and its events. -/
theorem counted_step (h : Counted s) (hstep : Step s l s') : Counted s' := by
  obtain ⟨hlisten, hudp, hb, hd⟩ := h
  cases step_cases hstep with
  | connects heq =>
    subst heq
    have hevent := count_notify hlisten (!s.backlog.isEmpty)
    have hother : (s.epoll.notify .listenfd).ready.count .udpfd = s.epoll.ready.count .udpfd :=
      Epoll.ready_notify_of_ne nofun
    refine ⟨by simpa using hlisten, by simpa using hudp, ?_, ?_⟩
    · simp only [State.owed, List.length_append, List.length_singleton] at hb ⊢
      omega
    · simp only [State.owed, hother] at hd ⊢
      exact hd
  | datagram d heq =>
    subst heq
    have hevent := count_notify hudp (!s.datagrams.isEmpty)
    have hother : (s.epoll.notify .udpfd).ready.count .listenfd = s.epoll.ready.count .listenfd :=
      Epoll.ready_notify_of_ne nofun
    refine ⟨by simpa using hlisten, by simpa using hudp, ?_, ?_⟩
    · simp only [State.owed, hother] at hb ⊢
      exact hb
    · simp only [State.owed, List.length_append, List.length_singleton] at hd ⊢
      omega
  | early j a c hc heq =>
    subst heq
    exact Counted.move ⟨hlisten, hudp, hb, hd⟩ (fun d _ hin => ⟨hin, rfl⟩) (List.length_set ..) rfl
      ⟨rfl, rfl, rfl⟩
  | segment fd a c hc heq =>
    subst heq
    refine Counted.move ⟨hlisten, hudp, hb, hd⟩ (fun d hne hin => ⟨by simpa using hin, ?_⟩) rfl rfl
      ⟨rfl, rfl, rfl⟩
    have hother : (s.epoll.notify (.connfd fd)).ready.count d = s.epoll.ready.count d :=
      Epoll.ready_notify_of_ne (hne fd)
    simp only [State.owed, hother]
  | waits hpc heq =>
    subst heq
    refine Counted.move ⟨hlisten, hudp, hb, hd⟩ (fun d _ hin => ⟨hin, ?_⟩) rfl rfl ⟨rfl, rfl, rfl⟩
    have hcount := count_wait hin
    simp only [State.owed, hpc, Pc.events, List.count_nil]
    omega
  | ends hpc heq =>
    subst heq
    exact Counted.move ⟨hlisten, hudp, hb, hd⟩
      (fun d _ hin => ⟨hin, by simp [State.owed, hpc, Pc.events]⟩)
      rfl rfl ⟨rfl, rfl, rfl⟩
  | refuses events hpc heq =>
    subst heq
    simp only [State.owed, hpc, Pc.events, List.count_cons_self, List.count_cons_of_ne,
      ne_eq, reduceCtorEq, not_false_eq_true] at hb hd
    refine ⟨hlisten, hudp, ?_, hd⟩
    simp only [State.owed, Pc.events]
    omega
  | begins fd events hpc heq =>
    subst heq
    refine Counted.move ⟨hlisten, hudp, hb, hd⟩ (fun d hne hin => ⟨hin, ?_⟩) rfl rfl ⟨rfl, rfl, rfl⟩
    simp only [State.owed, hpc, Pc.events, List.count_cons_of_ne (hne fd).symm]
  | accepts fd c backlog events hpc hback hfree heq =>
    subst heq
    simp only [State.owed, hpc, hback, Pc.events, List.count_cons_self, List.count_cons_of_ne, ne_eq,
      reduceCtorEq, not_false_eq_true, List.length_cons] at hb hd
    refine ⟨?_, ?_, ?_, ?_⟩
    · rw [Epoll.interest_add]
      exact List.mem_cons_of_mem _ hlisten
    · rw [Epoll.interest_add]
      exact List.mem_cons_of_mem _ hudp
    · simp only [State.owed, Pc.events, count_add hlisten (nofun : Fd.listenfd ≠ .connfd fd)]
      omega
    · simp only [State.owed, Pc.events, count_add hudp (nofun : Fd.udpfd ≠ .connfd fd)]
      exact hd
  | answers fails events hpc heq =>
    subst heq
    simp only [State.owed, hpc, Pc.events, List.count_cons_self, List.count_cons_of_ne, ne_eq,
      reduceCtorEq, not_false_eq_true] at hb hd
    cases hdata : s.datagrams with
    | nil =>
      -- there is a datagram for every event
      rw [hdata] at hd
      exact absurd hd (by simp only [List.length_nil]; omega)
    | cons d datagrams =>
      obtain ⟨client, bytes⟩ := d
      rw [hdata, List.length_cons] at hd
      simp only [recvfrom, hdata]
      split
      · exact ⟨hlisten, hudp, hb, by simp only [State.owed, Pc.events]; omega⟩
      · exact ⟨hlisten, hudp, hb, by simp only [State.sendto, State.owed, Pc.events]; omega⟩
  | reads fd n c events hpc hc hn heq =>
    subst heq
    exact Counted.move ⟨hlisten, hudp, hb, hd⟩
      (fun d _ hin => ⟨hin, by simp [State.owed, hpc, Pc.events]⟩)
      rfl rfl ⟨rfl, rfl, rfl⟩
  | finishes fd c events hpc hc hnil heq =>
    subst heq
    refine Counted.move ⟨hlisten, hudp, hb, hd⟩ (fun d hne hin => ⟨?_, ?_⟩) rfl rfl ⟨rfl, rfl, rfl⟩
    · exact Epoll.mem_interest_close.mpr ⟨hin, hne fd⟩
    · simp only [State.owed, State.close, hpc, Pc.events, count_close hin (hne fd)]
  | drained fd c events hpc hc hnot heq =>
    subst heq
    exact Counted.move ⟨hlisten, hudp, hb, hd⟩
      (fun d _ hin => ⟨hin, by simp [State.owed, hpc, Pc.events]⟩)
      rfl rfl ⟨rfl, rfl, rfl⟩
  | fails fd events hpc heq =>
    subst heq
    refine Counted.move ⟨hlisten, hudp, hb, hd⟩ (fun d hne hin => ⟨?_, ?_⟩) rfl rfl ⟨rfl, rfl, rfl⟩
    · exact Epoll.mem_interest_close.mpr ⟨hin, hne fd⟩
    · simp only [State.owed, State.close, hpc, Pc.events, count_close hin (hne fd)]
  | sends fd ret n c events hpc hc hn heq =>
    subst heq
    exact Counted.move ⟨hlisten, hudp, hb, hd⟩
      (fun d _ hin => ⟨hin, by simp [State.owed, hpc, Pc.events]⟩)
      rfl rfl ⟨rfl, rfl, rfl⟩

/-! ## The answers to datagrams -/

/-- What `sendto` is called with for a datagram: its first bytes with zeros behind them, to its sender.
It is not called for an empty one. -/
def answer (d : Datagram) : Option Datagram :=
  if d.2 = [] then none
  else some (d.1, d.2.take maxRead ++ List.replicate (maxRead - (d.2.take maxRead).length) 0)

/-- What `buf` holds of a datagram read into it once it is cleared. -/
theorem take_cleared (bytes : List UInt8) :
    (Buffer.store 0 (bytes.take maxRead) fun _ => 0).take maxRead =
      bytes.take maxRead ++ List.replicate (maxRead - (bytes.take maxRead).length) 0 := by
  obtain ⟨k, hk⟩ := Nat.exists_eq_add_of_le (List.length_take_le maxRead bytes)
  have hstored : (Buffer.store 0 (bytes.take maxRead) fun _ => 0).take (bytes.take maxRead).length =
      bytes.take maxRead := by
    have h : (Buffer.store 0 (bytes.take maxRead) fun _ => 0).take (0 + (bytes.take maxRead).length) =
        Buffer.take 0 (fun _ => 0) ++ bytes.take maxRead := Buffer.take_store
    rwa [Nat.zero_add] at h
  have hzeros : (Buffer.store 0 (bytes.take maxRead) fun _ => 0).slice (bytes.take maxRead).length k =
      List.replicate k 0 := by
    have hsame : (Buffer.store 0 (bytes.take maxRead) fun _ => 0).slice (bytes.take maxRead).length k =
        Buffer.slice (bytes.take maxRead).length k fun _ => 0 :=
      Buffer.slice_congr fun j hj _ => Buffer.store_of_le (by omega)
    rw [hsame]
    simp [Buffer.slice, Buffer.take]
  have hsplit : (Buffer.store 0 (bytes.take maxRead) fun _ => 0).take
        ((bytes.take maxRead).length + k) =
      bytes.take maxRead ++ List.replicate k 0 := by
    rw [Buffer.take_add, hstored, hzeros]
  rwa [← hk, show k = maxRead - (bytes.take maxRead).length by omega] at hsplit

/-- `sendto` was called for the datagrams that were read, in their order, and has sent some of these if
the length that it is given is one. -/
structure Answers (s : State) (lenptr : ℕ) : Prop where
  same : s.lenptr = lenptr
  answers : ∃ done, s.received = done ++ s.datagrams ∧ s.answers = done.filterMap answer
  replies : List.Sublist s.replies s.answers
  unanswered : ¬ AddrLen (lenptr % 2 ^ 32) → s.replies = []

variable {lenptr : ℕ}

/-- What is sent is some of what `sendto` is called for. -/
theorem sublist_sendto (h : List.Sublist s.replies s.answers) (d : Datagram) (addrlen : ℕ)
    (fails : Bool) :
    List.Sublist (s.sendto d addrlen fails).replies (s.sendto d addrlen fails).answers := by
  simp only [State.sendto]
  split
  · exact h.append_right _
  · exact h.trans (List.sublist_append_left ..)

/-- With a length that is refused nothing is sent. -/
theorem replies_sendto {addrlen : ℕ} (hbad : ¬ AddrLen (addrlen % 2 ^ 32)) (d : Datagram)
    (fails : Bool) : (s.sendto d addrlen fails).replies = s.replies :=
  if_neg fun h => hbad h.1

/-- A step answers the datagrams in their order. -/
theorem answers_step (h : Answers s lenptr) (hstep : Step s l s') : Answers s' lenptr := by
  obtain ⟨hlen, ⟨done, hreceived, hanswers⟩, hreplies, hnone⟩ := h
  cases step_cases hstep with
  | datagram d heq =>
    subst heq
    exact ⟨hlen, ⟨done, by simp only [hreceived, List.append_assoc], hanswers⟩, hreplies, hnone⟩
  | answers fails events hpc heq =>
    subst heq
    cases hdata : s.datagrams with
    | nil =>
      simp only [recvfrom, hdata]
      exact ⟨hlen, ⟨done, hreceived.trans (by rw [hdata]), hanswers⟩, hreplies, hnone⟩
    | cons d datagrams =>
      obtain ⟨client, bytes⟩ := d
      have hdone : s.received = done ++ [(client, bytes)] ++ datagrams := by
        rw [hreceived, hdata, List.append_assoc, List.singleton_append]
      simp only [recvfrom, hdata]
      split
      · rename_i hempty
        exact ⟨hlen, ⟨_, hdone, by simp [hanswers, answer, hempty]⟩, hreplies, hnone⟩
      · rename_i hne
        refine ⟨hlen, ⟨_, hdone, ?_⟩, sublist_sendto hreplies .., fun hbad => ?_⟩
        · rw [List.filterMap_append, ← hanswers]
          simp [State.sendto, take_cleared, answer, hne]
        · rw [← hlen] at hbad
          exact (replies_sendto hbad ..).trans (hnone (hlen ▸ hbad))
  | _ => subst_vars; exact ⟨rfl, ⟨done, hreceived, hanswers⟩, hreplies, hnone⟩

/-! ## Runs -/

/-- The invariant. -/
structure Ok (s : State) (lenptr : ℕ) : Prop where
  echoes : Echoes s
  watched : Watched s
  counted : Counted s
  answers : Answers s lenptr

/-- At first all invariants hold. -/
theorem ok_init (buf : Buffer) (lenptr : ℕ) (clients : List (List Segment))
    (datagrams : List Datagram) : Ok (init buf lenptr clients datagrams) lenptr where
  echoes := by
    refine ⟨nofun, fun c hc => ?_, nofun⟩
    obtain ⟨as, -, rfl⟩ := List.mem_map.mp hc
    exact Conn.ok_after as
  watched := ⟨nofun, nofun⟩
  counted := by
    cases clients <;> cases datagrams <;>
      exact ⟨by simp [init], by simp [init],
        by simp [init, State.owed, Pc.events, Epoll.add, Epoll.notify, Epoll.create],
        by simp [init, State.owed, Pc.events, Epoll.add, Epoll.notify, Epoll.create]⟩
  answers := ⟨rfl, ⟨[], rfl, rfl⟩, .refl _, fun _ => rfl⟩

variable {ls : List Label} {buf : Buffer} {clients : List (List Segment)} {datagrams : List Datagram}

/-- All invariants hold in every state of a run. -/
theorem ok_of_run (h : Run Step (init buf lenptr clients datagrams) ls s) : Ok s lenptr :=
  h.invariant (I := fun s => Ok s lenptr) (fun _ _ _ hs hstep => ⟨echoes_step hs.echoes hstep,
    watched_step hs.watched hstep, counted_step hs.counted hstep, answers_step hs.answers hstep⟩)
    (ok_init buf lenptr clients datagrams)

/-- When the server is blocked in `epoll_wait`, nothing of a connection is unread. -/
theorem unread_of_idle (h : Ok s lenptr) (hidle : s.Idle)
    (hc : s.conns fd = some c) : c.readable = false := by
  refine Bool.eq_false_iff.mpr fun hread => ?_
  have hdue := h.watched.due fd c hc hread
  simp [State.Due, hidle.1, hidle.2, Pc.events, Pc.handles] at hdue

/-- What comes back to a client is some of what it has sent, in its order. It is all of it when the
server is blocked in `epoll_wait`, and when it has closed the connection at the end of the input,
unless a `send` has left some out. -/
theorem echoed (h : Run Step (init buf lenptr clients datagrams) ls s) :
    (∀ fd c, s.conns fd = some c → List.Sublist c.echoed c.sent) ∧
      (s.Idle → ∀ fd c, s.conns fd = some c → c.eof = false ∧ (c.whole = true → c.echoed = c.sent)) ∧
      ∀ c ∈ s.finished, c.whole = true → c.echoed = c.sent := by
  have hok := ok_of_run h
  refine ⟨fun fd c hc => ?_, fun hidle fd c hc => ?_, fun c hc hwhole => ?_⟩
  · have horder := (hok.echoes.conns fd c hc).order
    rw [List.append_assoc] at horder
    exact (List.sublist_append_left ..).trans horder
  · have hread := unread_of_idle hok hidle hc
    simp only [Conn.readable, Bool.or_eq_false_iff, decide_eq_false_iff_not, not_not] at hread
    refine ⟨hread.2, fun hwhole => ?_⟩
    have hall := (hok.echoes.conns fd c hc).whole hwhole
    have hnone : s.inflight fd = [] := by
      rw [inflight_eq_nil fun _ _ _ => by rw [hidle.1]; nofun]
    rwa [hnone, hread.1, List.append_nil, List.append_nil] at hall
  · obtain ⟨hunread, hfin⟩ := hok.echoes.finished c hc
    have hall := hfin.whole hwhole
    rwa [hunread, List.append_nil, List.append_nil] at hall

/-- A run in which two clients connect before the first event is taken: one is accepted and answered,
and `sendto` is called for a datagram. -/
def twoClients : List Label :=
  [.wait, .accept 4, .recvfrom false, .next, .wait, .next, .recv 3, .send 3, .recv 0, .next]

/-- The server at the start of that run. -/
def start : State := init (fun _ => 7) 0x7ffd3a5c1b8c [[.data [1, 2, 3]], []] [(5, [9])]

/-- What the client has sent has come back to it. -/
theorem echoed_twoClients : ∃ s c, Run Step start twoClients s ∧ s.Idle ∧ s.conns 4 = some c ∧
    c.echoed = [1, 2, 3] := by
  have hends : (exec next start twoClients).map (fun s => (s.pc, s.epoll.ready, s.conns 4)) =
      some (.wait, [], some ⟨[1, 2, 3], [], false, [1, 2, 3], true⟩) := by decide
  obtain ⟨s, hrun, hs⟩ := Run.of_exec_map hends
  obtain ⟨hpc, hrest⟩ := Prod.mk.inj hs
  obtain ⟨hready, hc⟩ := Prod.mk.inj hrest
  exact ⟨s, _, hrun, ⟨hpc, hready⟩, hc, ((echoed hrun).2.1 ⟨hpc, hready⟩ 4 _ hc).2 rfl⟩

/-- When the server is blocked in `epoll_wait`, the connections that are not accepted are as many as
those whose arrival merged with an earlier event and those that `accept` failed for, and the datagrams
that are not read as many as those whose arrival merged. -/
theorem stranded (h : Run Step (init buf lenptr clients datagrams) ls s) (hidle : s.Idle) :
    s.backlog.length = s.refused + s.merged ∧ s.datagrams.length = s.mergedUdp := by
  obtain ⟨-, -, hb, hd⟩ := (ok_of_run h).counted
  simp only [State.owed, hidle.1, hidle.2, Pc.events, List.count_nil, Nat.add_zero] at hb hd
  exact ⟨hb, hd⟩

/-- In that run one client is left waiting. -/
theorem stranded_twoClients : ∃ s, Run Step start twoClients s ∧ s.backlog.length = 1 := by
  have hends : (exec next start twoClients).map (fun s => (s.pc, s.epoll.ready, s.refused, s.merged)) =
      some (.wait, [], 0, 1) := by decide
  obtain ⟨s, hrun, hs⟩ := Run.of_exec_map hends
  simp only [Prod.mk.injEq] at hs
  obtain ⟨hpc, hready, hrefused, hmerged⟩ := hs
  have hlen := (stranded hrun ⟨hpc, hready⟩).1
  rw [hrefused, hmerged] at hlen
  exact ⟨s, hrun, hlen⟩

/-- `sendto` is called for the datagrams that were read, in their order, each with its own first bytes
and zeros; but no datagram is answered, unless the low 32 bits of the address of `client_addrlen` are a
possible length of an address. -/
theorem none_answered (h : Run Step (init buf lenptr clients datagrams) ls s) :
    (∃ done, s.received = done ++ s.datagrams ∧ s.answers = done.filterMap answer) ∧
      List.Sublist s.replies s.answers ∧ (¬ AddrLen (lenptr % 2 ^ 32) → s.replies = []) :=
  have hanswers := (ok_of_run h).answers
  ⟨hanswers.answers, hanswers.replies, hanswers.unanswered⟩

/-- In that run `sendto` is called with the byte of the datagram and zeros, and nothing is sent. -/
theorem none_answered_twoClients : ∃ s, Run Step start twoClients s ∧
    s.answers = [(5, 9 :: List.replicate 510 0)] ∧ s.replies = [] := by
  have hends : (exec next start twoClients).map (fun s => (s.received, s.datagrams)) =
      some ([(5, [9])], []) := by decide
  obtain ⟨s, hrun, hs⟩ := Run.of_exec_map hends
  obtain ⟨hreceived, hnone⟩ := Prod.mk.inj hs
  obtain ⟨⟨done, hdone, hanswers⟩, -, hreplies⟩ := none_answered hrun
  rw [hreceived, hnone, List.append_nil] at hdone
  rw [← hdone] at hanswers
  exact ⟨s, hrun, hanswers, hreplies (by decide)⟩

end Echo

end Ulsp
