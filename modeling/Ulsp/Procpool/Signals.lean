import Mathlib.Data.Fintype.Basic
import Mathlib.Data.List.FinRange
import Ulsp.Procpool.Pool

/-!
# The signals of the process pool (`lib/processpool.hh`)

How the signals end the pool. `setup_sig_pipe` installs `sig_handler` for one signal after another, and
the handler sends the signal through the signal pipe of its process, whose other end is registered
edge-triggered. On `SIGTERM` or `SIGINT` the parent signals each of its children, and a child leaves its
loop; on `SIGCHLD` the parent reaps every child that has exited, and leaves its loop when none is left.

A signal is pending until it is delivered, and a second one of its kind merges with it. Before the
handler is installed `SIGCHLD` is ignored and the others end the process. `recv` takes the first 1024
signals of the pipe. Anybody may send the processes signals, children may die at any time, and
connections come at any time, before `listenfd` is registered too. For an event of `listenfd` the parent
sends to a child, at whose pipe there is an event then, or which is dead, and the parent gets `SIGPIPE`;
no `send` to a child blocks. For an event of its pipe a child calls `accept`, and registers what that
returns, which may have input already. What a child does for an event of a connection (`T::process`) is
one step, and `SIGALRM`, which a child handles too, is left out.
-/

namespace Ulsp

open Lib Procpool

namespace Shutdown

/-- The signals with a handler. -/
inductive Signal where
  | sigchld
  | sigterm
  | sigint
  | sigpipe
  deriving DecidableEq, Repr

/-- The place of the signal among those that `setup_sig_pipe` installs the handler for. -/
def Signal.place : Signal → ℕ
  | .sigchld => 0
  | .sigterm => 1
  | .sigint => 2
  | .sigpipe => 3

/-- The signals that end the pool. -/
def Signal.ends : Signal → Bool
  | .sigterm | .sigint => true
  | _ => false

/-- The number of signals that fit into `signals`. -/
def maxSignals : ℕ := 1024

/-- A process: the events of its `epollfd`, the signals in its signal pipe and those pending, how many
handlers are installed, `stop`, and where it is. -/
structure Process (D P : Type) [DecidableEq D] where
  epoll : Epoll D
  pipe : List Signal
  pending : Signal → Bool
  installed : ℕ
  stop : Bool
  pc : P

/-- Where the parent is: in `setup_sig_pipe`, at `epoll_wait`, at the events and the signals still to
handle, in the loop that signals the children, at `waitpid`, at the test of `sub_process` behind it,
or at its end, by itself or by a signal. -/
inductive ParentPc where
  | setup
  | wait
  | dispatch (events : List ParentFd)
  | signals (sigs : List Signal) (events : List ParentFd)
  | kill (k : ℕ) (sig : Signal) (sigs : List Signal) (events : List ParentFd)
  | reap (sigs : List Signal) (events : List ParentFd)
  | check (sigs : List Signal) (events : List ParentFd)
  | exited
  | killed
  deriving DecidableEq, Repr

/-- Where a child is: in `setup_sig_pipe`, at `epoll_wait`, at the events and the signals still to
handle, or dead, and reaped or not. -/
inductive ChildPc where
  | setup
  | wait
  | dispatch (events : List ChildFd)
  | signals (sigs : List Signal) (events : List ChildFd)
  | zombie
  | reaped
  deriving DecidableEq, Repr

/-- What there is of connections: whether one has come, `counter`, and the children that something was
sent to. -/
structure Requests (n : ℕ) where
  connected : Bool
  counter : Fin n
  sent : Fin n → Bool

/-- The parent and its children; the requests; which slots of `sub_process` hold a pid; whether a signal
that ends the pool has come to the parent's handler; and the children that died when `SIGCHLD` was still
ignored. -/
structure State (n : ℕ) where
  parent : Process ParentFd ParentPc
  child : Fin n → Process ChildFd ChildPc
  requests : Requests n
  running : Fin n → Bool
  asked : Bool
  missed : Fin n → Bool

section Process
variable {D P : Type} [DecidableEq D]

/-- A process with its signal pipe registered and no handler installed. -/
def Process.create (sigPipefd : D) (pc : P) : Process D P :=
  ⟨Epoll.create.add sigPipefd false, [], fun _ => false, 0, false, pc⟩

/-- Whether the handler is installed for a signal. -/
def Process.handles (p : Process D P) (sig : Signal) : Bool := sig.place < p.installed

/-- A signal is sent to a process. -/
def Process.raise (p : Process D P) (sig : Signal) : Process D P :=
  if sig = .sigchld ∧ p.handles sig = false then p
  else { p with pending := Function.update p.pending sig true }

/-- `sig_handler`, whose `send` may fail. -/
def Process.sigHandler (p : Process D P) (sigPipefd : D) (sig : Signal) (sent : Bool) : Process D P :=
  let pending := Function.update p.pending sig false
  if sent then { p with pending, pipe := p.pipe ++ [sig], epoll := p.epoll.notify sigPipefd }
  else { p with pending }

/-- An event comes. -/
def Process.notify (p : Process D P) (fd : D) : Process D P := { p with epoll := p.epoll.notify fd }

end Process

variable {n : ℕ}

/-- After the constructor and the first half of every `setup_sig_pipe`. -/
def init (n : ℕ) [NeZero n] : State n where
  parent := .create .sigPipefd .setup
  child _ := .create .sigPipefd .setup
  requests := ⟨false, 0, fun _ => false⟩
  running _ := true
  asked := false
  missed _ := false

/-- The child `i` becomes `c`. -/
def State.setChild (s : State n) (i : Fin n) (c : Process ChildFd ChildPc) : State n :=
  { s with child := Function.update s.child i c }

/-- A child dies, which sends `SIGCHLD` to the parent. -/
def State.exits (s : State n) (i : Fin n) : State n :=
  let s' := s.setChild i { s.child i with pc := .zombie }
  { s' with
    parent := s.parent.raise .sigchld
    missed := Function.update s.missed i (!s.parent.handles .sigchld) }

/-- A child has not died. -/
def ChildPc.alive : ChildPc → Bool
  | .zombie | .reaped => false
  | _ => true

/-- The parent has not ended. -/
def ParentPc.alive : ParentPc → Bool
  | .exited | .killed => false
  | _ => true

/-- `kill` of a child. -/
def State.kill (s : State n) (i : Fin n) (sig : Signal) : State n :=
  s.setChild i ((s.child i).raise sig)

/-- The child that the loop over `sub_process` finds: the first one in its slot, from `counter` on. -/
def State.runningChild (s : State n) : Option (Fin n) :=
  ((List.finRange n).map (s.requests.counter + ·)).find? s.running

/-- `send` to a child, which raises `SIGPIPE` if the child is dead. -/
def State.send (s : State n) (j : Fin n) : State n :=
  if (s.child j).pc.alive then
    let s' := s.setChild j ((s.child j).notify .pipefd)
    { s' with requests := { s.requests with sent := Function.update s.requests.sent j true } }
  else { s with parent := s.parent.raise .sigpipe }

/-- The parent goes on, with the next `counter`. -/
def State.served [NeZero n] (s : State n) (events : List ParentFd) : State n :=
  { s with
    parent := { s.parent with pc := .dispatch events }
    requests := { s.requests with counter := s.requests.counter + 1 } }

/-- A step of the parent. -/
def parentNext [NeZero n] (s : State n) : Option (State n) :=
  let p := s.parent
  match p.pc with
  | .setup =>
    if p.installed < 4 then some { s with parent := { p with installed := p.installed + 1 } }
    else
      let epoll := p.epoll.add .listenfd s.requests.connected
      some { s with parent := { p with epoll, pc := .wait } }
  | .wait =>
    if p.epoll.ready = [] then none
    else
      let (events, epoll) := p.epoll.wait maxEventNumber
      some { s with parent := { p with epoll, pc := .dispatch events } }
  | .dispatch [] => some { s with parent := { p with pc := if p.stop then .exited else .wait } }
  | .dispatch (.listenfd :: events) =>
    match s.runningChild with
    | none => some { s with parent := { p with pc := .dispatch [], stop := true } }
    | some j => some ((s.send j).served events)
  | .dispatch (.sigPipefd :: events) =>
    some { s with parent := { p with
      pipe := p.pipe.drop maxSignals
      pc := .signals (p.pipe.take maxSignals) events } }
  | .signals [] events => some { s with parent := { p with pc := .dispatch events } }
  | .signals (.sigchld :: sigs) events => some { s with parent := { p with pc := .reap sigs events } }
  | .signals (.sigpipe :: sigs) events =>
      some { s with parent := { p with pc := .signals sigs events } }
  | .signals (sig :: sigs) events => some { s with parent := { p with pc := .kill 0 sig sigs events } }
  | .kill k sig sigs events =>
    if h : k < n then
      let s' := if s.running ⟨k, h⟩ then s.kill ⟨k, h⟩ sig else s
      some { s' with parent := { p with pc := .kill (k + 1) sig sigs events } }
    else some { s with parent := { p with pc := .signals sigs events } }
  | .reap sigs events =>
    if (List.finRange n).any fun i => (s.child i).pc = .zombie then none
    else some { s with parent := { p with pc := .check sigs events } }
  | .check sigs events =>
    let stop := !(List.finRange n).any s.running
    some { s with parent := { p with pc := .signals sigs events, stop } }
  | .exited | .killed => none

/-- `waitpid` returns the child `i`, and its slot is cleared. -/
def reapNext (s : State n) (i : Fin n) : Option (State n) :=
  match s.parent.pc with
  | .reap _ _ =>
    if (s.child i).pc = .zombie then
      let s' := s.setChild i { s.child i with pc := .reaped }
      some { s' with running := Function.update s.running i false }
    else none
  | _ => none

/-- A step of the child `i`, but for an event of its pipe. -/
def childNext (s : State n) (i : Fin n) : Option (State n) :=
  let c := s.child i
  match c.pc with
  | .setup =>
    if c.installed < 4 then some (s.setChild i { c with installed := c.installed + 1 })
    else
      let epoll := c.epoll.add .pipefd (s.requests.sent i)
      some (s.setChild i { c with epoll, pc := .wait })
  | .wait =>
    if c.epoll.ready = [] then none
    else
      let (events, epoll) := c.epoll.wait maxEventNumber
      some (s.setChild i { c with epoll, pc := .dispatch events })
  | .dispatch [] => if c.stop then some (s.exits i) else some (s.setChild i { c with pc := .wait })
  | .dispatch (.sigPipefd :: events) =>
    some (s.setChild i { c with
      pipe := c.pipe.drop maxSignals
      pc := .signals (c.pipe.take maxSignals) events })
  | .dispatch (.connfd _ :: events) => some (s.setChild i { c with pc := .dispatch events })
  | .dispatch (.pipefd :: _) => none
  | .signals [] events => some (s.setChild i { c with pc := .dispatch events })
  | .signals (sig :: sigs) events =>
    some (s.setChild i { c with pc := .signals sigs events, stop := c.stop || sig.ends })
  | .zombie | .reaped => none

/-- An event of the pipe of the child `i`: `accept` fails, or returns a connection, which is registered
and may have input already. -/
def acceptNext (s : State n) (i : Fin n) (conn : Option (ℕ × Bool)) : Option (State n) :=
  let c := s.child i
  match c.pc with
  | .dispatch (.pipefd :: events) =>
    let epoll := conn.elim c.epoll fun (fd, input) => c.epoll.add (.connfd fd) input
    some (s.setChild i { c with epoll, pc := .dispatch events })
  | _ => none

/-- What happens: a step of the parent or a child, a child is told to accept, `waitpid` returns a child, a
pending signal is delivered to the parent or a child, and the `send` of the handler succeeds or not; or
somebody sends a signal, connects, or sends to a connection, or a child dies. -/
inductive Label (n : ℕ) where
  | parent
  | child (i : Fin n)
  | accept (i : Fin n) (conn : Option (ℕ × Bool))
  | reap (i : Fin n)
  | deliver (sig : Signal) (sent : Bool)
  | deliverChild (i : Fin n) (sig : Signal) (sent : Bool)
  | signal (sig : Signal)
  | signalChild (i : Fin n) (sig : Signal)
  | connect
  | event (i : Fin n) (fd : ChildFd)
  | die (i : Fin n)
  deriving DecidableEq, Repr

/-- A pending signal is delivered to the parent. -/
def deliverNext (s : State n) (sig : Signal) (sent : Bool) : Option (State n) :=
  if s.parent.pending sig ∧ s.parent.pc.alive then
    if s.parent.handles sig then
      some { s with parent := s.parent.sigHandler .sigPipefd sig sent, asked := s.asked || sig.ends }
    else some { s with parent := { s.parent with pc := .killed } }
  else none

/-- A pending signal is delivered to the child `i`. -/
def deliverChildNext (s : State n) (i : Fin n) (sig : Signal) (sent : Bool) : Option (State n) :=
  if (s.child i).pending sig ∧ (s.child i).pc.alive then
    if (s.child i).handles sig then some (s.setChild i ((s.child i).sigHandler .sigPipefd sig sent))
    else some (s.exits i)
  else none

/-- The steps. -/
def next [NeZero n] (s : State n) : Label n → Option (State n)
  | .parent => parentNext s
  | .child i => childNext s i
  | .accept i conn => acceptNext s i conn
  | .reap i => reapNext s i
  | .deliver sig sent => deliverNext s sig sent
  | .deliverChild i sig sent => deliverChildNext s i sig sent
  | .signal sig => some { s with parent := s.parent.raise sig }
  | .signalChild i sig => some (s.kill i sig)
  | .connect => some { s with
      parent := s.parent.notify .listenfd
      requests := { s.requests with connected := true } }
  | .event i fd => some (s.setChild i ((s.child i).notify fd))
  | .die i => if (s.child i).pc.alive then some (s.exits i) else none

/-- The step relation. -/
def Step [NeZero n] (s : State n) (l : Label n) (t : State n) : Prop := next s l = some t

/-- No signal is lost: what the handler sends fits into the pipe, and into one `recv` together with
what is there. -/
def Kept (s : State n) : Label n → Prop
  | .deliver _ sent => sent = true ∧ s.parent.pipe.length < maxSignals
  | .deliverChild i _ sent => sent = true ∧ (s.child i).pipe.length < maxSignals
  | _ => True

instance (s : State n) (l : Label n) : Decidable (Kept s l) :=
  match l with
  | .deliver _ sent => inferInstanceAs (Decidable (sent = true ∧ s.parent.pipe.length < maxSignals))
  | .deliverChild i _ sent => inferInstanceAs
      (Decidable (sent = true ∧ (s.child i).pipe.length < maxSignals))
  | .parent | .child _ | .accept _ _ | .reap _ | .signal _ | .signalChild _ _ | .connect
  | .event _ _ | .die _ => inferInstanceAs (Decidable True)

/-- A step of the processes or the kernel, not of anybody else. -/
def Label.internal : Label n → Bool
  | .parent | .child _ | .accept _ _ | .reap _ | .deliver _ _ | .deliverChild _ _ _ => true
  | _ => false

/-- Such a step, or the death of a child. -/
def Label.own : Label n → Bool
  | .die _ => true
  | l => l.internal

end Shutdown

end Ulsp
