import Ulsp.Lib.Run
import Ulsp.Timer.WheelOps

/-!
# A child of the process pool (`ProcessPool::run_child`, `lib/processpool.hh`)

A child keeps its connections in three places: the array `users`, which is indexed by descriptor, the
timers of `timer_lst`, and the descriptors that `epoll_wait` reports. `timer_lst` is a `timer_wheel`,
while the timers are `util_timer` objects, and `users` has `max_process_number` entries, while a
descriptor may be anything below `user_per_process`. An event here is one pass of the loop over the
events `epoll_wait` reported, and `roundEnd` is what follows the loop. `T::cb_func` closes the
connection, as that of `net/file_server_procpool.cc` does, and the result of `T::process` is any.

The first connection a child accepts is its last event (`accept_faults`), and as long as it accepts
none there is nothing to keep consistent: `registry_iff_no_accept`.
-/

namespace Ulsp

open Lib

namespace RunChild

/-- `ProcessPool::max_process_number`. -/
def maxProcessNumber : ℕ := 16

/-- `ProcessPool::user_per_process`. -/
def userPerProcess : ℕ := 65536

/-- `ProcessPool::timeslot`. -/
def timeslot : ℤ := 5

/-- The signals a message of the signal pipe may carry. -/
inductive Signal where
  | sigalrm
  | sigchld
  | sigterm
  | sigint
  | other
  deriving DecidableEq, Repr

/-- What goes wrong: an access to `users` outside the array, or a null or freed pointer that is
followed. -/
inductive Fault where
  | users
  | pointer
  deriving DecidableEq, Repr

/-- `util_timer`: the connection of its `user_data`, and its expiry. -/
structure UtilTimer where
  connfd : ℕ
  expire : ℤ
  deriving DecidableEq, Repr

/-- A child: the timers in `users`, `timer_lst`, the `util_timer` objects, the open connections, and
the flags `stop` and `timeout`. -/
structure Child where
  users : List (Option Ptr)
  timerLst : TimerWheel
  utils : Store UtilTimer
  conns : List ℕ
  stop : Bool
  timeout : Bool
  running : Bool
  fault : Option Fault

/-- A child that enters the loop of `run_child`. -/
def init (alarm : ℕ) : Child where
  users := List.replicate maxProcessNumber none
  timerLst := .empty (fun _ => none) alarm
  utils _ := none
  conns := []
  stop := false
  timeout := false
  running := true
  fault := none

/-- `dynamic_cast<tw_timer<T> *>`, and so the argument of an operation of `timer_lst`: null for an
object of another class. -/
def castTw (t : Ptr) (s : Child) : Except Fault (Option Ptr) :=
  if (s.timerLst.mem t).isSome then .ok (some t)
  else if (s.utils t).isSome then .ok none
  else .error .pointer

/-- The result of an operation of `timer_lst`, which follows a null or freed pointer when it has
none. -/
def checked {α : Type} (o : Option α) : Except Fault α := o.elim (.error .pointer) .ok

/-- `users[fd]`. -/
def userAt (fd : ℕ) (s : Child) : Except Fault (Option Ptr) :=
  s.users[fd]?.elim (.error .users) .ok

/-- The connection is closed. -/
def close (fd : ℕ) (s : Child) : Child := { s with conns := s.conns.filter (· ≠ fd) }

/-- What follows an `accept` that returned `connfd`, at clock `now`; the new timer is at `t`. -/
def acceptConn (now : ℤ) (connfd : ℕ) (t : Ptr) (s : Child) : Except Fault Child := do
  let s := { s with conns := connfd :: s.conns }
  -- `users[connfd].data.init`
  let _ ← userAt connfd s
  let s := { s with
    utils := Function.update s.utils t (some ⟨connfd, now + 3 * timeslot⟩)
    users := s.users.set connfd (some t) }
  let timer ← castTw t s
  let timerLst ← checked (s.timerLst.addTimer now timer)
  return { s with timerLst }

/-- What follows a `process` that returned `res`, at clock `now`, for loops of at most `fuel` passes. -/
def afterProcess (fuel : ℕ) (now : ℤ) (fd : ℕ) (res : Bool) (s : Child) : Except Fault Child := do
  let timer ← userAt fd s
  if res then
    match timer with
    | none => return s
    | some t => do
      let util ← checked (s.utils t)
      let s := { s with
        utils := Function.update s.utils t (some { util with expire := now + 3 * timeslot }) }
      let timer ← castTw t s
      let timerLst ← checked (s.timerLst.adjustTimer now timer fuel)
      return { s with timerLst }
  else
    let s := close fd s
    match timer with
    | none => return s
    | some t => do
      let timer ← castTw t s
      let timerLst ← checked (s.timerLst.delTimer timer fuel)
      return { s with timerLst }

/-- The loop over the signals received. -/
def signals : List Signal → Child → Child
  | [], s => s
  | .sigalrm :: sigs, s => signals sigs { s with timeout := true }
  -- the children of a child, if any, are reaped
  | .sigchld :: sigs, s => signals sigs s
  | .sigterm :: sigs, s => signals sigs { s with stop := true }
  | .sigint :: sigs, s => signals sigs { s with stop := true }
  | .other :: sigs, s => signals sigs s

/-- What follows the loop over the events, for loops of at most `fuel` passes: a tick, which closes
the connections of the timers it fires and frees them, and the test of `stop`. -/
def roundEnd (fuel : ℕ) (s : Child) : Except Fault Child := do
  let s ← if s.timeout then do
      let (timerLst, fired) ← checked (s.timerLst.tick fuel)
      let closed := fired.filterMap fun t => (s.utils t).map UtilTimer.connfd
      pure { s with
        timerLst
        conns := s.conns.filter (· ∉ closed)
        utils := fun t => if t ∈ fired then none else s.utils t
        timeout := false }
    else pure s
  return { s with running := !s.stop }

/-- An event: a message of the parent with no connection accepted after it, or with one; a message of
the signal pipe; a readable connection, with the result of `process`; any other event; or the end of
the loop over the events. -/
inductive Event where
  | noConn
  | accept (now : ℤ) (connfd : ℕ) (t : Ptr)
  | signals (sigs : List Signal)
  | readable (now : ℤ) (fd : ℕ) (res : Bool)
  | other
  | roundEnd
  deriving DecidableEq, Repr

/-- Whether the child accepts a connection. -/
def Event.accepts : Event → Bool
  | accept .. => true
  | _ => false

/-- The outcome of a piece of code whose loops take passes: the result under every large enough bound,
or a fault under every one. -/
def Outcome (f : ℕ → Except Fault Child) (s s' : Child) : Prop :=
  (∃ n, ∀ fuel, n ≤ fuel → f fuel = .ok s') ∨
    ∃ e n, (∀ fuel, n ≤ fuel → f fuel = .error e) ∧ s' = { s with fault := some e }

/-- The steps of a child, which has no more after a fault. `accept` returns a descriptor that is not
open, and `new` an address that holds no object; connections that are open may be readable. -/
inductive Step : Child → Event → Child → Prop
  | noConn {s} : s.running → s.fault = none → Step s .noConn s
  | accept {s s' now connfd t} : s.running → s.fault = none → connfd < userPerProcess →
    connfd ∉ s.conns → s.utils t = none → s.timerLst.mem t = none →
    Outcome (fun _ => acceptConn now connfd t s) s s' → Step s (.accept now connfd t) s'
  | signals {s} (sigs) : s.running → s.fault = none → Step s (.signals sigs) (signals sigs s)
  | readable {s s' now fd res} : s.running → s.fault = none → fd ∈ s.conns →
    Outcome (fun fuel => afterProcess fuel now fd res s) s s' → Step s (.readable now fd res) s'
  | other {s} : s.running → s.fault = none → Step s .other s
  | roundEnd {s s'} : s.running → s.fault = none →
    Outcome (fun fuel => roundEnd fuel s) s s' → Step s .roundEnd s'

/-- What the child is to keep: nothing has gone wrong, and every open connection has exactly one timer
stored in `timer_lst`, the one in its entry of `users`. -/
def Child.Registry (s : Child) : Prop :=
  s.fault = none ∧ ∃ ls : Fin 60 → List Ptr, s.timerLst.Rep ls ∧ ∀ fd ∈ s.conns, ∃ t,
    s.users[fd]? = some (some t) ∧
    ∀ u, (∃ i, u ∈ ls i) ∧ (s.utils u).map UtilTimer.connfd = some fd ↔ u = t

/-- The invariant of a child that has accepted no connection. -/
structure Child.Unused (s : Child) : Prop where
  fault : s.fault = none
  closed : s.conns = []
  noTimers : ∀ t, s.timerLst.mem t = none
  wheel : s.timerLst.Rep fun _ => []

variable {s s' : Child} {e : Event}

theorem init_unused (alarm : ℕ) : (init alarm).Unused :=
  ⟨rfl, rfl, fun _ => rfl, TimerWheel.empty_rep _ _⟩

theorem Child.Unused.registry (hs : s.Unused) : s.Registry :=
  ⟨hs.fault, fun _ => [], hs.wheel, fun fd hfd => by rw [hs.closed] at hfd; cases hfd⟩

/-- Signals set the flags only. -/
theorem signals_unused (sigs : List Signal) (hs : s.Unused) : (signals sigs s).Unused := by
  induction sigs generalizing s with
  | nil => exact hs
  | cons sig sigs ih =>
    cases sig with
    | sigalrm => exact ih ⟨hs.fault, hs.closed, hs.noTimers, hs.wheel⟩
    | sigchld => exact ih hs
    | sigterm => exact ih ⟨hs.fault, hs.closed, hs.noTimers, hs.wheel⟩
    | sigint => exact ih ⟨hs.fault, hs.closed, hs.noTimers, hs.wheel⟩
    | other => exact ih hs

/-- A tick of an empty wheel fires nothing. -/
theorem tick_empty {w : TimerWheel} (hw : w.Rep fun _ => []) {fuel : ℕ} (hf : 1 ≤ fuel) :
    w.tick fuel = some (TimerWheel.resetTimer { w with curSlot := w.curSlot + 1 }, []) := by
  obtain ⟨fuel, rfl⟩ : ∃ k, fuel = k + 1 := ⟨fuel - 1, by omega⟩
  have hslot : w.slots (w.curSlot + 1) = none := by
    simpa using (hw.linked (w.curSlot + 1)).fwd.head?.symm
  simp [TimerWheel.tick, hslot, TimerWheel.tickLoop]

/-- The end of a round of a child without connections. -/
theorem roundEnd_runs (hs : s.Unused) :
    ∃ t, t.Unused ∧ ∀ fuel, 1 ≤ fuel → roundEnd fuel s = .ok t := by
  cases ht : s.timeout with
  | false =>
    exact ⟨{ s with running := !s.stop }, ⟨hs.fault, hs.closed, hs.noTimers, hs.wheel⟩,
      fun fuel _ => by simp [roundEnd, ht]; rfl⟩
  | true =>
    refine ⟨{ s with
        timerLst := TimerWheel.resetTimer { s.timerLst with curSlot := s.timerLst.curSlot + 1 }
        conns := s.conns.filter (· ∉ ([] : List ℕ))
        timeout := false
        running := !s.stop }, ⟨hs.fault, by simp [hs.closed], hs.noTimers,
          (hs.wheel.setSlot _).reset⟩, ?_⟩
    intro fuel hf
    simp only [roundEnd, ht, if_true, tick_empty hs.wheel hf]
    simp [checked, bind, Except.bind, pure, Except.pure]

/-- An outcome is the result that large bounds give. -/
theorem Outcome.eq_of_ok {f : ℕ → Except Fault Child} {t : Child} {k : ℕ}
    (h : Outcome f s s') (hf : ∀ fuel, k ≤ fuel → f fuel = .ok t) : s' = t := by
  rcases h with ⟨n, hn⟩ | ⟨e, n, hn, -⟩
  · have hboth := (hn (max n k) (le_max_left _ _)).symm.trans (hf _ (le_max_right _ _))
    exact Except.ok.inj hboth
  · cases (hn (max n k) (le_max_left _ _)).symm.trans (hf _ (le_max_right _ _))

/-- The first connection a child accepts makes it access `users` outside the array, or follow the null
pointer that the cast of its timer gives. -/
theorem accept_faults (hs : s.Unused) (now : ℤ) (connfd : ℕ) (t : Ptr) :
    acceptConn now connfd t s =
      .error (if connfd < s.users.length then .pointer else .users) := by
  split
  · rename_i hlt
    -- the object at `t` is a `util_timer`, so the cast gives a null pointer
    have hnone : ∀ now w, TimerWheel.addTimer now none w = none := fun _ _ => rfl
    simp [acceptConn, userAt, hlt, castTw, hs.noTimers t, hnone, checked, bind, Except.bind]
  · rename_i hge
    have hout : s.users[connfd]? = none := List.getElem?_eq_none (by omega)
    simp [acceptConn, userAt, hout, bind, Except.bind]

/-- A step of a child that has accepted no connection is a fault exactly when it accepts one. -/
theorem unused_step (hs : s.Unused) (h : Step s e s') :
    e.accepts = false ∧ s'.Unused ∨ e.accepts = true ∧ s'.fault ≠ none := by
  cases h with
  | noConn => exact .inl ⟨rfl, hs⟩
  | @accept s' now connfd t _ _ _ _ _ _ hout =>
    refine .inr ⟨rfl, ?_⟩
    rcases hout with ⟨n, hn⟩ | ⟨e, n, -, rfl⟩
    · have hok := hn n le_rfl
      simp only [accept_faults hs] at hok
      cases hok
    · exact Option.some_ne_none e
  | signals sigs => exact .inl ⟨rfl, signals_unused sigs hs⟩
  | readable _ _ hfd =>
    rw [hs.closed] at hfd
    cases hfd
  | other => exact .inl ⟨rfl, hs⟩
  | roundEnd _ _ hout =>
    obtain ⟨t, ht, hrun⟩ := roundEnd_runs hs
    exact .inl ⟨rfl, hout.eq_of_ok hrun ▸ ht⟩

/-- A child makes no step after a fault. -/
theorem step_fault (h : Step s e s') : s.fault = none := by
  cases h <;> assumption

/-- In every run of `run_child` nothing goes wrong and every open connection has its one timer in
`timer_lst`, as its entry of `users` says, if and only if the child has accepted no connection. -/
theorem registry_iff_no_accept {alarm : ℕ} {es : List Event} (h : Run Step (init alarm) es s) :
    s.Registry ↔ ∀ e ∈ es, e.accepts = false := by
  have hrun : (s.Unused ∧ ∀ e ∈ es, e.accepts = false) ∨
      s.fault ≠ none ∧ ¬ ∀ e ∈ es, e.accepts = false := by
    induction h with
    | refl => exact .inl ⟨init_unused alarm, nofun⟩
    | tail _ hstep ih =>
      rcases ih with ⟨hs, hes⟩ | ⟨hfault, -⟩
      · rcases unused_step hs hstep with ⟨he, ht⟩ | ⟨he, hfault⟩
        · refine .inl ⟨ht, ?_⟩
          intro e hmem
          rcases List.mem_append.mp hmem with hmem | hmem
          · exact hes e hmem
          · rwa [List.mem_singleton.mp hmem]
        · refine .inr ⟨hfault, ?_⟩
          intro hall
          exact Bool.noConfusion ((hall _ (by simp)).symm.trans he)
      · exact absurd (step_fault hstep) hfault
  rcases hrun with ⟨hs, hes⟩ | ⟨hfault, hes⟩
  · exact ⟨fun _ => hes, fun _ => hs.registry⟩
  · exact ⟨fun hr => absurd hr.1 hfault, fun hall => absurd hall hes⟩

/-- A round with a tick and without connections keeps the registry. -/
theorem registry_iff_no_accept_round : ∃ s,
    Run Step (init 0) ([.noConn] ++ [.signals [.sigalrm]] ++ [.roundEnd]) s ∧ s.Registry := by
  have hs : (signals [.sigalrm] (init 0)).Unused := signals_unused _ (init_unused 0)
  obtain ⟨t, -, hround⟩ := roundEnd_runs hs
  have hrun : Run Step (init 0) ([.noConn] ++ [.signals [.sigalrm]] ++ [.roundEnd]) t :=
    ((Run.single (.noConn rfl rfl)).tail (.signals [.sigalrm] rfl rfl)).tail
      (.roundEnd rfl rfl (.inl ⟨1, hround⟩))
  exact ⟨t, hrun, (registry_iff_no_accept hrun).mpr (by decide)⟩

/-- The child accepts one connection, and goes wrong. -/
theorem accept_run {connfd : ℕ} (hlt : connfd < userPerProcess) :
    Run Step (init 0) [.accept 0 connfd 1] { init 0 with
      fault := some (if connfd < maxProcessNumber then .pointer else .users) } := by
  refine Run.single (.accept rfl rfl hlt nofun rfl rfl (.inr ⟨_, 0, ?_, rfl⟩))
  intro _ _
  rw [accept_faults (init_unused 0)]
  rfl

/-- The descriptor 7 is inside `users`, and the timer of its connection is cast to a null pointer that
`add_timer` follows; the descriptor 20 is outside. -/
theorem first_accept_faults : (∃ s, Run Step (init 0) [.accept 0 7 1] s ∧ s.fault = some .pointer ∧
    ¬ s.Registry) ∧ ∃ s, Run Step (init 0) [.accept 0 20 1] s ∧ s.fault = some .users ∧
    ¬ s.Registry :=
  ⟨⟨_, accept_run (by decide), rfl, fun hr => Option.some_ne_none _ hr.1⟩,
    _, accept_run (by decide), rfl, fun hr => Option.some_ne_none _ hr.1⟩

end RunChild

end Ulsp
