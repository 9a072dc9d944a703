import Ulsp.Lib.Buffer
import Ulsp.Lib.Run
import Ulsp.Lib.Table

/-!
# The poll chat server (`net/chat_server_poll.c`)

The loop of `main`, one step for each call of `poll` and each pass of the loop over `fds`. What the
clients do shows in what the calls return: the events that `poll` reports, the descriptor that
`accept` gives, and what `recv` gives, nothing at the end of a connection. `users` has a member for
every descriptor, as the code does not compare one with `FD_LIMIT`; the addresses in it, which are
not read, are left out. The state also has what the descriptors stand for: those of the clients that
are open, and the connection each belongs to, named by the order in which they were accepted. For
the round it has the clients that were in the table when `poll` returned and those visited since. The
log keeps the messages received, and the calls of `send` in the branch for `POLLOUT`. `none` is a
step the code has no defined behaviour for, or a result that a call does not have.
-/

namespace Ulsp

open Lib

namespace PollChat

/-- `USER_LIMIT`. -/
def userLimit : ℤ := 5

/-- `BUFSIZE`. -/
def bufsize : ℕ := 64

/-- The events of `poll`. -/
inductive Event where
  | pollin
  | pollout
  | pollrdhup
  | pollerr
  | pollhup
  deriving DecidableEq, Repr

/-- `struct pollfd`. -/
structure Pollfd where
  fd : ℤ
  events : Finset Event
  revents : Finset Event

/-- `struct client_data`, with `writeBuf` the descriptor of the user whose `buf` it points to. -/
structure ClientData where
  writeBuf : Option ℤ
  buf : Buffer

/-- The messages received from each connection, and the texts sent to each. -/
structure Log where
  received : List (ℕ × List UInt8)
  sent : List (ℕ × List UInt8)

/-- The messages received from other connections. -/
def Log.inbox (log : Log) (conn : ℕ) : List (List UInt8) :=
  (log.received.filter fun m => m.1 ≠ conn).map Prod.snd

/-- The non-empty texts sent to a connection. -/
def Log.outbox (log : Log) (conn : ℕ) : List (List UInt8) :=
  (log.sent.filter fun m => m.1 = conn ∧ m.2 ≠ []).map Prod.snd

/-- Where `main` is: before `poll`, or at a pass of the loop over `fds`. -/
inductive Pc where
  | poll
  | loop (i : ℤ)
  | stopped
  deriving DecidableEq, Repr

/-- The variables of `main`, the open connections, the round and the log. -/
structure State where
  listenfd : ℤ
  users : ℤ → ClientData
  fds : ℤ → Pollfd
  userCount : ℤ
  pc : Pc
  opened : Finset ℤ
  conn : ℤ → ℕ
  conns : ℕ
  polled : Finset ℤ
  visited : List ℤ
  log : Log

/-- `main` before its loop. -/
def init (listenfd : ℤ) : State where
  listenfd
  users _ := ⟨none, fun _ => 0⟩
  fds i := if i = 0 then ⟨listenfd, {.pollin, .pollerr}, ∅⟩ else ⟨-1, ∅, ∅⟩
  userCount := 0
  pc := .poll
  opened := ∅
  conn _ := 0
  conns := 0
  polled := ∅
  visited := []
  log := ⟨[], []⟩

/-- What `recv` returns: an error, which may be `EAGAIN`, or what was received. -/
inductive Recv where
  | again
  | fails
  | data (received : List UInt8)

/-- The results of the calls: the events `poll` reports, what `accept` returns, and what `recv`
returns, in a pass that calls it. -/
inductive Label where
  | poll (revents : ℤ → Finset Event)
  | pollFails
  | pass (connfd : Option ℤ) (recv : Recv)

/-- A descriptor that is not open. -/
def State.Unused (s : State) (connfd : ℤ) : Prop :=
  0 ≤ connfd ∧ connfd ≠ s.listenfd ∧ connfd ∉ s.opened

instance (s : State) (connfd : ℤ) : Decidable (s.Unused connfd) := by
  unfold State.Unused
  infer_instance

/-- A new user. -/
def State.append (s : State) (connfd : ℤ) : State :=
  { s with
    userCount := s.userCount + 1
    fds := Function.update s.fds (s.userCount + 1) ⟨connfd, {.pollin, .pollrdhup, .pollerr}, ∅⟩
    opened := insert connfd s.opened
    conn := Function.update s.conn connfd s.conns
    conns := s.conns + 1 }

/-- The user at the place `i` goes: its descriptor is closed, its data become those of the last user,
and the last user takes its place. -/
def State.leave (s : State) (i : ℤ) : State :=
  { s with
    opened := s.opened.erase (s.fds i).fd
    users := Function.update s.users (s.fds i).fd (s.users (s.fds s.userCount).fd)
    fds := Function.update s.fds i (s.fds s.userCount)
    userCount := s.userCount - 1 }

/-- `bzero` of a user's `buf`, and what `recv` stores there. -/
def State.fill (s : State) (connfd : ℤ) (received : List UInt8) : State :=
  let user := s.users connfd
  { s with
    users := Function.update s.users connfd
      { user with buf := (user.buf.clearFrom 0).store 0 received } }

/-- A pass of the loop that broadcasts. -/
def State.announce (connfd : ℤ) (s : State) (j : ℤ) : State :=
  let e := s.fds j
  if e.fd = connfd then s
  else
    { s with
      fds := Function.update s.fds j { e with events := insert .pollout (e.events.erase .pollin) }
      users := Function.update s.users e.fd { s.users e.fd with writeBuf := some connfd } }

/-- The loop that broadcasts. -/
def State.broadcast (s : State) (connfd : ℤ) : State :=
  (List.range s.userCount.toNat).foldl (fun s (k : ℕ) => s.announce connfd (k + 1)) s

/-- The branch for `POLLIN`, of a user at the place `i`. -/
def State.receive (s : State) (i : ℤ) : Recv → Option State
  | .again => some { (s.fill (s.fds i).fd []).broadcast (s.fds i).fd with pc := .loop (i + 1) }
  | .fails =>
    some { ((s.fill (s.fds i).fd []).leave i).broadcast (s.fds i).fd with pc := .loop (i - 1 + 1) }
  | .data received =>
    let connfd := (s.fds i).fd
    if bufsize ≤ received.length then none
    else if received = [] then some { s.fill connfd received with pc := .loop (i + 1) }
    else
      let log := { s.log with received := s.log.received ++ [(s.conn connfd, received)] }
      some { (s.fill connfd received).broadcast connfd with log, pc := .loop (i + 1) }

/-- The branch for `POLLOUT`, of a user at the place `i`. -/
def State.send (s : State) (i : ℤ) : Option State :=
  let e := s.fds i
  let user := s.users e.fd
  match user.writeBuf with
  | none => some { s with pc := .loop (i + 1) }
  | some k => do
    let text ← (s.users k).buf.cstring bufsize
    let log := { s.log with sent := s.log.sent ++ [(s.conn e.fd, text)] }
    let users := Function.update s.users e.fd { user with writeBuf := none }
    let fds := Function.update s.fds i { e with events := insert .pollin (e.events.erase .pollout) }
    return { s with users, fds, log, pc := .loop (i + 1) }

/-- The branch for a connection to be accepted, which is closed at once when there are too many. -/
def State.accept (s : State) (i : ℤ) : Option ℤ → Option State
  | none => some { s with pc := .loop (i + 1) }
  | some connfd =>
    if s.Unused connfd then
      if userLimit ≤ s.userCount then some { s with pc := .loop (i + 1) }
      else some { s.append connfd with pc := .loop (i + 1) }
    else none

/-- A pass of the loop over `fds`. -/
def State.pass (s : State) (i : ℤ) (connfd : Option ℤ) (recv : Recv) : Option State :=
  let e := s.fds i
  let s := { s with visited := s.visited ++ [e.fd] }
  if e.fd = s.listenfd ∧ .pollin ∈ e.revents then s.accept i connfd
  else if .pollerr ∈ e.revents then some { s with pc := .loop (i + 1) }
  else if .pollrdhup ∈ e.revents then some { s.leave i with pc := .loop (i - 1 + 1) }
  else if .pollin ∈ e.revents then s.receive i recv
  else if .pollout ∈ e.revents then s.send i
  else some { s with pc := .loop (i + 1) }

/-- What `poll` may report. -/
def State.Reports (s : State) (revents : ℤ → Finset Event) : Prop :=
  ∀ i ∈ places 0 s.userCount, revents i ⊆ (s.fds i).events ∪ {.pollerr, .pollhup}

instance (s : State) (revents : ℤ → Finset Event) : Decidable (s.Reports revents) := by
  unfold State.Reports
  infer_instance

/-- `poll` has set `revents`, and the loop over `fds` begins. -/
def State.reported (s : State) (revents : ℤ → Finset Event) : State :=
  { s with
    fds := fun i =>
      if 0 ≤ i ∧ i ≤ s.userCount then { s.fds i with revents := revents i } else s.fds i
    pc := .loop 0
    polled := (places 1 s.userCount).image fun i => (s.fds i).fd
    visited := [] }

/-- The steps of the server. -/
def next (s : State) (l : Label) : Option State :=
  match s.pc, l with
  | .poll, .poll revents => if s.Reports revents then some (s.reported revents) else none
  | .poll, .pollFails => some { s with pc := .stopped }
  | .loop i, .pass connfd recv =>
    if i ≤ s.userCount then s.pass i connfd recv else some { s with pc := .poll }
  | _, _ => none

/-- The step relation of the server. -/
def Step (s : State) (l : Label) (t : State) : Prop := next s l = some t

end PollChat

end Ulsp
