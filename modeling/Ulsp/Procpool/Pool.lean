import Mathlib.Algebra.Order.Ring.Int
import Mathlib.Data.Fintype.Basic
import Mathlib.Data.List.FinRange
import Ulsp.Lib.Epoll
import Ulsp.Lib.Run
import Ulsp.Lib.Tally

/-!
# The process pool (`lib/processpool.hh`)

The parent in `run_parent` and its `n` children in `run_child`, which share the listening socket.
Clients connect at any time; a connection waits in the backlog of `listenfd` until a child accepts
it. The parent sends one `int` to a child for each event of `listenfd`, and a child receives one
`int` and accepts once for each event of its pipe. Every descriptor is registered by `addfd`, which
makes it edge-triggered and non-blocking. The events of a child's connections and the signals that
end no process are events like others, and what they do (`T::process`, timers) is left out; no
process dies. The backlog and the pipes are unbounded.
-/

namespace Ulsp

open Lib

namespace Procpool

/-- The descriptors the parent listens to. -/
inductive ParentFd where
  | listenfd
  | sigPipefd
  deriving DecidableEq, Repr

/-- The descriptors a child listens to; a connection's is named by the connection. -/
inductive ChildFd where
  | pipefd
  | sigPipefd
  | connfd (conn : ℕ)
  deriving DecidableEq, Repr

/-- `max_event_number`. -/
def maxEventNumber : ℕ := 10000

/-- The next step of the parent: registering its descriptors, `epoll_wait`, or the events it still
has to handle. -/
inductive ParentPc where
  | setup
  | wait
  | dispatch (events : List ParentFd)
  | exited
  deriving DecidableEq, Repr

/-- The next step of a child; between `recv` and `accept` it is at `accept`. -/
inductive ChildPc where
  | setup
  | wait
  | dispatch (events : List ChildFd)
  | accept (events : List ChildFd)
  deriving DecidableEq, Repr

/-- The parent in `run_parent`. -/
structure Parent (n : ℕ) where
  epoll : Epoll ParentFd
  pc : ParentPc
  counter : Fin n
  stop : Bool

/-- A child: what the parent keeps of it in `sub_process`, the messages in its pipe, and the child
in `run_child`. -/
structure Process where
  pid : ℤ
  pipe : ℕ
  epoll : Epoll ChildFd
  pc : ChildPc

/-- The pool: the number of connections that have arrived, those not accepted yet, and those
accepted, each with the child that accepted it. -/
structure State (n : ℕ) where
  arrived : ℕ
  backlog : List ℕ
  accepted : List (ℕ × Fin n)
  parent : Parent n
  subProcess : Fin n → Process

variable {n : ℕ} [NeZero n]

/-- The processes as the constructor leaves them, `pid` being the results of `fork`. -/
def init (pid : Fin n → ℕ) : State n where
  arrived := 0
  backlog := []
  accepted := []
  parent := ⟨.create, .setup, 0, false⟩
  subProcess i := ⟨pid i, 0, .create, .setup⟩

/-- The child that the loop over `sub_process` finds: the first one running, from `counter` on. -/
def runningChild (sub : Fin n → Process) (counter : Fin n) : Option (Fin n) :=
  ((List.finRange n).map (counter + ·)).find? fun j => (sub j).pid != -1

/-- `send` to a child. -/
def Process.send (p : Process) : Process :=
  { p with pipe := p.pipe + 1, epoll := p.epoll.notify .pipefd }

/-- An event at a child. -/
def Process.event (p : Process) (fd : ChildFd) : Process := { p with epoll := p.epoll.notify fd }

/-- `addfd` of an accepted connection. -/
def Process.addfd (p : Process) (fd : ChildFd) : Process := { p with epoll := p.epoll.add fd false }

/-- A step of `run_parent`. -/
def parentNext (s : State n) : Option (State n) :=
  match s.parent.pc with
  | .setup =>
    let epoll := (s.parent.epoll.add .sigPipefd false).add .listenfd (!s.backlog.isEmpty)
    some { s with parent := { s.parent with epoll, pc := .wait } }
  | .wait =>
    if s.parent.epoll.ready = [] then none
    else
      let (events, epoll) := s.parent.epoll.wait maxEventNumber
      some { s with parent := { s.parent with epoll, pc := .dispatch events } }
  | .dispatch [] =>
    some { s with parent := { s.parent with pc := if s.parent.stop then .exited else .wait } }
  | .dispatch (.listenfd :: events) =>
    match runningChild s.subProcess s.parent.counter with
    | none => some { s with parent := { s.parent with pc := .dispatch [], stop := true } }
    | some j =>
      let counter := s.parent.counter + 1
      some { s with
        parent := { s.parent with pc := .dispatch events, counter }
        subProcess := Function.update s.subProcess j (s.subProcess j).send }
  | .dispatch (.sigPipefd :: events) =>
    some { s with parent := { s.parent with pc := .dispatch events } }
  | .exited => none

/-- What a step of `run_child` does to the child itself; `recv` of an empty pipe fails with `EAGAIN`,
and the code goes on to `accept`. -/
def Process.next (p : Process) : Option Process :=
  match p.pc with
  | .setup =>
    let epoll := (p.epoll.add .sigPipefd false).add .pipefd (p.pipe != 0)
    some { p with epoll, pc := .wait }
  | .wait =>
    if p.epoll.ready = [] then none
    else
      let (events, epoll) := p.epoll.wait maxEventNumber
      some { p with epoll, pc := .dispatch events }
  | .dispatch [] => some { p with pc := .wait }
  | .dispatch (.pipefd :: events) => some { p with pipe := p.pipe - 1, pc := .accept events }
  | .dispatch (_ :: events) => some { p with pc := .dispatch events }
  | .accept events => some { p with pc := .dispatch events }

/-- A step of the child `i`. The events of a connection that arrive before it is registered are
reported by a later `Label.data`. -/
def childNext (s : State n) (i : Fin n) : Option (State n) := do
  let p ← (s.subProcess i).next
  match (s.subProcess i).pc, s.backlog with
  | .accept _, conn :: backlog =>
    return { s with
      backlog
      accepted := s.accepted ++ [(conn, i)]
      subProcess := Function.update s.subProcess i (p.addfd (.connfd conn)) }
  | _, _ => return { s with subProcess := Function.update s.subProcess i p }

/-- Who moves: a client that connects, a process, or a client that sends to the child that accepted
it; or a process receives a signal. -/
inductive Label (n : ℕ) where
  | connect
  | parent
  | child (i : Fin n)
  | data (i : Fin n) (conn : ℕ)
  | parentSignal
  | childSignal (i : Fin n)
  deriving DecidableEq, Repr

/-- An event at the child `i`. -/
def State.childEvent (s : State n) (i : Fin n) (fd : ChildFd) : State n :=
  { s with subProcess := Function.update s.subProcess i ((s.subProcess i).event fd) }

/-- The steps of the pool. -/
def next (s : State n) : Label n → Option (State n)
  | .connect =>
    let epoll := s.parent.epoll.notify .listenfd
    some { s with
      arrived := s.arrived + 1
      backlog := s.backlog ++ [s.arrived]
      parent := { s.parent with epoll } }
  | .parent => parentNext s
  | .child i => childNext s i
  | .data i conn => some (s.childEvent i (.connfd conn))
  | .parentSignal =>
    let epoll := s.parent.epoll.notify .sigPipefd
    some { s with parent := { s.parent with epoll } }
  | .childSignal i => some (s.childEvent i .sigPipefd)

/-- The step relation of the pool. -/
def Step (s : State n) (l : Label n) (t : State n) : Prop := next s l = some t

/-- Every process is blocked in `epoll_wait`, with no event. -/
def State.Quiet (s : State n) : Prop :=
  (s.parent.pc = .wait ∧ s.parent.epoll.ready = []) ∧
    ∀ i, (s.subProcess i).pc = .wait ∧ (s.subProcess i).epoll.ready = []

/-- A connection has been accepted once, by one child. -/
def State.AcceptedOnce (s : State n) (conn : ℕ) : Prop :=
  ∃ i, s.accepted.filter (fun a => a.1 = conn) = [(conn, i)]

/-- Whether the step is an arrival that merges with one whose event has not been taken: of a
connection at `listenfd`, or of a message at a child's pipe. -/
def merges (s : State n) : Label n → Bool
  | .connect => s.parent.epoll.merges .listenfd (!s.backlog.isEmpty)
  | .parent =>
    match s.parent.pc with
    | .dispatch (.listenfd :: _) =>
      match runningChild s.subProcess s.parent.counter with
      | some j => (s.subProcess j).epoll.merges .pipefd ((s.subProcess j).pipe != 0)
      | none => false
    | _ => false
  | _ => false

/-- No arrival merges with an earlier one. -/
def Separate (s : State n) (l : Label n) : Prop := merges s l = false

end Procpool

end Ulsp
