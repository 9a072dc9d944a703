import Mathlib.Algebra.Order.Ring.Int
import Mathlib.Data.Finset.Card
import Ulsp.Lib.Buffer
import Ulsp.Lib.Run

/-!
# The select chat server (`net/chat_server_select.c`)

The server's loop, one step for each call of `select`, each `accept` and each pass of the loop in
`check_clients`. What the clients do shows in what these return: which descriptors are ready, which
descriptor `accept` gives, and what `recv` gives, nothing at the end of a connection. Sockets block,
so a `write` is whole. A connection is named by the order in which it was accepted, since slots and
descriptors are used again. The log keeps the messages as they were received and the calls of
`write`. `none` is a step the code has no defined behaviour for; the name kept for printing is left
out but for the bound of its `strncpy`.
-/

namespace Ulsp

open Lib

namespace Chat

/-- `NAMESIZE`. -/
def namesize : ℕ := 16

/-- `BUFSIZ`. -/
def bufsiz : ℕ := 8192

/-- `CLIENT_FD_NUMBER`. -/
def clientFdNumber : ℕ := 32

/-- `client_t`, with `data` the position in `buf` and `writeBuf` the slot of the client whose `buf`
is to be written; and, for the log, the connection in the slot and the name it gave. -/
structure Client where
  welcome : Bool
  connfd : Option ℕ
  buf : Buffer
  data : ℕ
  writeBuf : Option ℕ
  conn : ℕ
  nick : List UInt8

/-- `init_client`. -/
def initClient (c : Client) : Client :=
  { c with welcome := true, connfd := none, buf := fun _ => 0, data := 0, writeBuf := none }

/-- `pool`. -/
structure Pool where
  maxfd : ℕ
  readFds : Finset ℕ
  writeFds : Finset ℕ
  exceptionFds : Finset ℕ
  readyReadFds : Finset ℕ
  readyWriteFds : Finset ℕ
  readyExceptionFds : Finset ℕ
  nready : ℤ
  maxi : ℤ
  clients : ℕ → Client

/-- `init_pool`. -/
def initPool (listenfd : ℕ) : Pool where
  maxfd := listenfd
  readFds := {listenfd}
  writeFds := ∅
  exceptionFds := {listenfd}
  readyReadFds := ∅
  readyWriteFds := ∅
  readyExceptionFds := ∅
  nready := 0
  maxi := -1
  clients _ := initClient ⟨true, none, fun _ => 0, 0, none, 0, []⟩

/-- One client changes. -/
def Pool.setClient (p : Pool) (i : ℕ) (c : Client) : Pool :=
  { p with clients := Function.update p.clients i c }

/-- A message as it was received, with its sender's name before it, and the connections that were to
get it: those of the other named clients. -/
structure Message where
  text : List UInt8
  dest : List ℕ

/-- The messages received and the calls of `write`, each with its connection. -/
structure Log where
  sent : List Message
  written : List (ℕ × List UInt8)

/-- The texts a connection was to get. -/
def Log.inbox (log : Log) (conn : ℕ) : List (List UInt8) :=
  (log.sent.filter fun m => conn ∈ m.dest).map Message.text

/-- The texts that were written to a connection. -/
def Log.outbox (log : Log) (conn : ℕ) : List (List UInt8) :=
  (log.written.filter fun w => w.1 = conn).map Prod.snd

/-- `add_client`, which exits when all slots are taken. -/
def addClient (connfd conn : ℕ) (p : Pool) : Option Pool :=
  match (List.range clientFdNumber).find? fun i => (p.clients i).connfd = none with
  | none => none
  | some i =>
    some { p with
      nready := p.nready - 1
      clients := Function.update p.clients i { p.clients i with connfd := some connfd, conn }
      readFds := insert connfd p.readFds
      exceptionFds := insert connfd p.exceptionFds
      maxfd := max p.maxfd connfd
      maxi := max p.maxi i }

/-- What a pass of the loop in `check_clients` does with a client. -/
inductive Ready where
  | idle
  | write (connfd : ℕ)
  | read (connfd : ℕ)
  deriving DecidableEq, Repr

/-- The tests on the client in the slot `i`. -/
def Pool.ready (p : Pool) (i : ℕ) : Ready :=
  match (p.clients i).connfd with
  | none => .idle
  | some connfd =>
    if connfd ∈ p.readyWriteFds then .write connfd
    else if connfd ∈ p.readyReadFds ∨ connfd ∈ p.readyExceptionFds then .read connfd
    else .idle

/-- The client `i` has nothing more to be written to. -/
def Pool.flushed (p : Pool) (i connfd : ℕ) : Pool :=
  { p.setClient i { p.clients i with writeBuf := none } with
    writeFds := p.writeFds.erase connfd
    readFds := insert connfd p.readFds
    exceptionFds := insert connfd p.exceptionFds }

/-- The branch `if (Write)`, and the text written. -/
def Pool.writeClient (p : Pool) (i connfd : ℕ) : Option (Pool × List UInt8) := do
  let k ← (p.clients i).writeBuf
  let text ← (p.clients k).buf.cstring bufsiz
  return (p.flushed i connfd, text)

/-- The end of a connection. -/
def Pool.closeClient (p : Pool) (i connfd : ℕ) : Pool :=
  { p.setClient i (initClient (p.clients i)) with
    readFds := p.readFds.erase connfd
    writeFds := p.writeFds.erase connfd
    exceptionFds := p.exceptionFds.erase connfd }

/-- `recv` to `data`, after the bytes from there on were cleared. -/
def Client.receive (c : Client) (received : List UInt8) : Client :=
  { c with buf := (c.buf.clearFrom c.data).store c.data received }

/-- What the first text of a client names it. -/
def nickOf (received : List UInt8) : List UInt8 :=
  if received.getLast? = some 10 then received.dropLast else received

/-- `buf` without the newline at its end, and the number of bytes left of `n`. -/
def Client.cutNewline (c : Client) (n : ℕ) : Option (Buffer × ℕ) := do
  let len ← c.buf.strlen bufsiz
  if len = 0 then none
  else if c.buf (len - 1) = 10 then some (Function.update c.buf (len - 1) 0, n - 1)
  else some (c.buf, n)

/-- The client names itself: the name is followed by a colon and a blank. -/
def Client.setName (c : Client) (received : List UInt8) : Option Client := do
  let (buf, n) ← c.cutNewline received.length
  if namesize < n then none
  else
    let buf := Function.update (Function.update buf n 58) (n + 1) 32
    some { c with welcome := false, buf, data := n + 2, nick := nickOf received }

/-- A pass of the loop that broadcasts the message in the `buf` of the client `i`. -/
def Pool.address (i : ℕ) (p : Pool) (j : ℕ) : Pool :=
  match (p.clients j).connfd with
  | none => p
  | some connfd =>
    if j = i ∨ (p.clients j).welcome then p
    else
      { p.setClient j { p.clients j with writeBuf := some i } with
        writeFds := insert connfd p.writeFds
        readFds := p.readFds.erase connfd
        exceptionFds := p.exceptionFds.erase connfd }

/-- The loop that broadcasts. -/
def Pool.broadcast (i : ℕ) (p : Pool) : Pool :=
  (List.range (p.maxi + 1).toNat).foldl (Pool.address i) p

/-- The other named clients. -/
def Pool.others (p : Pool) (i : ℕ) : List ℕ :=
  (List.range clientFdNumber).filter fun j =>
    j ≠ i ∧ (p.clients j).connfd ≠ none ∧ (p.clients j).welcome = false

/-- The branch without `Write`: the pool after it, and the message it was. -/
def Pool.recvClient (p : Pool) (i connfd : ℕ) (received : List UInt8) :
    Option (Pool × Option Message) :=
  let c := p.clients i
  if bufsiz ≤ received.length ∨ bufsiz < c.data + received.length then none
  else
    let c := c.receive received
    let p := p.setClient i c
    if received = [] then some (p.closeClient i connfd, none)
    else if c.welcome then (c.setName received).map fun c => (p.setClient i c, none)
    else
      let text := c.nick ++ [58, 32] ++ received
      some (p.broadcast i, some ⟨text, (p.others i).map fun j => (p.clients j).conn⟩)

/-- Where the server is: before `select`, before `accept`, or at a pass of the loop of
`check_clients`. -/
inductive Pc where
  | select
  | accept
  | check (i : ℕ)
  | stopped
  deriving DecidableEq, Repr

/-- The server, with the number of connections accepted and the log. -/
structure State where
  listenfd : ℕ
  pool : Pool
  pc : Pc
  conns : ℕ
  log : Log

/-- The server before its first `select`. -/
def init (listenfd : ℕ) : State := ⟨listenfd, initPool listenfd, .select, 0, ⟨[], []⟩⟩

/-- The results of the calls: the descriptors that are ready, what `accept` returns, and what `recv`
returns, in a pass that calls it. The server stops where one of them fails. -/
inductive Label where
  | select (read write exception : Finset ℕ)
  | selectFails
  | accept (connfd : Option ℕ)
  | check (received : List UInt8)
  | recvFails

/-- The pool with the results of `select`. -/
def Pool.selected (p : Pool) (read write exception : Finset ℕ) (nready : ℤ) : Pool :=
  { p with
    readyReadFds := read
    readyWriteFds := write
    readyExceptionFds := exception
    nready }

/-- What `select` may return. -/
def Pool.Selects (p : Pool) (read write exception : Finset ℕ) : Prop :=
  read ⊆ p.readFds ∧ write ⊆ p.writeFds ∧ exception ⊆ p.exceptionFds ∧
    (∀ fd ∈ read ∪ write ∪ exception, fd < p.maxfd + 1) ∧
    0 < read.card + write.card + exception.card

instance (p : Pool) (read write exception : Finset ℕ) :
    Decidable (p.Selects read write exception) := by
  unfold Pool.Selects
  infer_instance

/-- A descriptor that is not in use. -/
def State.Unused (s : State) (connfd : ℕ) : Prop :=
  connfd ≠ s.listenfd ∧ ∀ i < clientFdNumber, (s.pool.clients i).connfd ≠ some connfd

instance (s : State) (connfd : ℕ) : Decidable (s.Unused connfd) := by
  unfold State.Unused
  infer_instance

/-- `--p->nready`. -/
def Pool.passed (p : Pool) : Pool := { p with nready := p.nready - 1 }

/-- The pass of the loop of `check_clients` for the client `i`. -/
def checkClient (s : State) (i : ℕ) (received : List UInt8) : Option State :=
  match s.pool.ready i with
  | .idle => some { s with pc := .check (i + 1) }
  | .write connfd => do
    let (pool, text) ← s.pool.passed.writeClient i connfd
    let log := { s.log with written := s.log.written ++ [((s.pool.clients i).conn, text)] }
    return { s with pool, log, pc := .check (i + 1) }
  | .read connfd => do
    let (pool, message) ← s.pool.passed.recvClient i connfd received
    let log := { s.log with sent := s.log.sent ++ message.toList }
    return { s with pool, log, pc := .check (i + 1) }

/-- The steps of the server. -/
def next (s : State) (l : Label) : Option State :=
  match s.pc, l with
  | .select, .select read write exception =>
    if s.pool.Selects read write exception then
      let pool := s.pool.selected read write exception (read.card + write.card + exception.card)
      some { s with pool, pc := if s.listenfd ∈ read then .accept else .check 0 }
    else none
  | .select, .selectFails => some { s with pc := .stopped }
  | .accept, .accept none => some { s with pc := .stopped }
  | .accept, .accept (some connfd) =>
    if s.Unused connfd then
      match addClient connfd s.conns s.pool with
      | none => some { s with pc := .stopped }
      | some pool => some { s with pool, conns := s.conns + 1, pc := .check 0 }
    else none
  | .check i, .check received =>
    if (i : ℤ) ≤ s.pool.maxi ∧ 0 < s.pool.nready then checkClient s i received
    else some { s with pc := .select }
  | .check i, .recvFails =>
    if (i : ℤ) ≤ s.pool.maxi ∧ 0 < s.pool.nready then
      match s.pool.ready i with
      | .read _ => some { s with pc := .stopped }
      | _ => none
    else none
  | _, _ => none

/-- The step relation of the server. -/
def Step (s : State) (l : Label) (t : State) : Prop := next s l = some t

end Chat

end Ulsp
