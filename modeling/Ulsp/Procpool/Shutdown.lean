import Ulsp.Lib.Tally
import Ulsp.Procpool.SignalRun

/-!
# Shutting the process pool down

Once the parent has been asked to end the pool, the processes do only so much more, each step of theirs
doing some of it (`work_lt`), and where nothing is left to do, all of them have ended
(`ended_of_quiet`). So the pool ends however its steps are interleaved (`shutdown`).
-/

namespace Ulsp

open Lib Procpool

namespace Shutdown

variable {n : ℕ} {s s' : State n} {l : Label n} {i : Fin n} {sig : Signal} {sent : Bool}
  {c : Process ChildFd ChildPc}

/-! ## No deadlock -/

section Quiet
variable [NeZero n]

/-- An internal step in which no signal is lost. -/
def Goes (s : State n) : Prop := ∃ l t, l.internal = true ∧ Guarded Step Kept s l t

/-- Where nothing is going on, no signal is pending at a process that has not ended. -/
theorem not_pending (hquiet : ¬ Goes s) (hpipe : s.parent.pipe = []) (halive : s.parent.pc.alive = true)
    (sig : Signal) : s.parent.pending sig = false := by
  by_contra hpending
  rw [Bool.not_eq_false] at hpending
  refine hquiet ⟨.deliver sig true, ?_⟩
  cases hhandles : s.parent.handles sig <;>
    simp [Guarded, Step, next, Kept, deliverNext, hpending, halive, hhandles, hpipe, maxSignals,
      Label.internal]

/-- The same of a child. -/
theorem not_pending_child (hquiet : ¬ Goes s) (hpipe : (s.child i).pipe = [])
    (halive : (s.child i).pc.alive = true) (sig : Signal) : (s.child i).pending sig = false := by
  by_contra hpending
  rw [Bool.not_eq_false] at hpending
  refine hquiet ⟨.deliverChild i sig true, ?_⟩
  cases hhandles : (s.child i).handles sig <;>
    simp [Guarded, Step, next, Kept, deliverChildNext, hpending, halive, hhandles, hpipe, maxSignals,
      Label.internal]

/-- A child that nothing goes on in has died, or waits with no event. -/
theorem child_quiet (hquiet : ¬ Goes s) :
    (s.child i).pc.alive = false ∨ (s.child i).pc = .wait ∧ (s.child i).epoll.ready = [] := by
  have hnone : childNext s i = none := by
    cases hst : childNext s i with
    | none => rfl
    | some t => exact absurd ⟨.child i, t, rfl, hst, trivial⟩ hquiet
  have haccept : acceptNext s i none = none := by
    cases hst : acceptNext s i none with
    | none => rfl
    | some t => exact absurd ⟨.accept i none, t, rfl, hst, trivial⟩ hquiet
  cases hpc : (s.child i).pc with
  | setup =>
    simp only [childNext, hpc] at hnone
    split at hnone <;> cases hnone
  | wait =>
    simp only [childNext, hpc] at hnone
    split at hnone
    case isTrue hready => exact .inr ⟨rfl, hready⟩
    case isFalse => cases hnone
  | dispatch events =>
    cases events with
    | nil =>
      simp only [childNext, hpc] at hnone
      split at hnone <;> cases hnone
    | cons fd events => cases fd <;> simp [childNext, acceptNext, hpc] at hnone haccept
  | signals sigs events => cases sigs <;> simp [childNext, hpc] at hnone
  | zombie => exact .inl rfl
  | reaped => exact .inl rfl

/-- The parent in which nothing goes on has ended, or waits with no event. -/
theorem parent_quiet (hquiet : ¬ Goes s) :
    s.parent.pc.alive = false ∨ s.parent.pc = .wait ∧ s.parent.epoll.ready = [] := by
  have hnone : parentNext s = none := by
    cases hst : parentNext s with
    | none => rfl
    | some t => exact absurd ⟨.parent, t, rfl, hst, trivial⟩ hquiet
  cases hpc : s.parent.pc with
  | setup =>
    simp only [parentNext, hpc] at hnone
    split at hnone <;> cases hnone
  | wait =>
    simp only [parentNext, hpc] at hnone
    split at hnone
    case isTrue hready => exact .inr ⟨rfl, hready⟩
    case isFalse => cases hnone
  | dispatch events =>
    cases events with
    | nil => simp [parentNext, hpc] at hnone
    | cons fd events =>
      cases fd with
      | listenfd =>
        simp only [parentNext, hpc] at hnone
        split at hnone <;> cases hnone
      | sigPipefd => simp [parentNext, hpc] at hnone
  | signals sigs events =>
    cases sigs with
    | nil => simp [parentNext, hpc] at hnone
    | cons sig sigs => cases sig <;> simp [parentNext, hpc] at hnone
  | kill k sig sigs events =>
    simp only [parentNext, hpc] at hnone
    split at hnone <;> cases hnone
  | reap sigs events =>
    simp only [parentNext, hpc] at hnone
    split at hnone
    case isTrue hany =>
      -- there is a child for `waitpid`
      obtain ⟨j, -, hj⟩ := List.any_eq_true.mp hany
      have hzombie : (s.child j).pc = .zombie := by simpa using hj
      refine absurd ⟨.reap j, ?_⟩ hquiet
      simp [Guarded, Step, next, Kept, reapNext, hpc, hzombie, Label.internal]
    case isFalse => cases hnone
  | check sigs events => simp [parentNext, hpc] at hnone
  | exited => exact .inl rfl
  | killed => exact .inl rfl

/-- Where the parent has been asked to end the pool and nothing goes on any more, the parent has left
its loop and reaped every child, unless all children died before it had installed its handler. -/
theorem ended_of_quiet (h : Ok s) (hquiet : ¬ Goes s) (hasked : s.asked = true)
    (hinstalled : 4 ≤ s.parent.installed) (hmissed : ∃ i, s.missed i = false) :
    s.parent.pc = .exited ∧ ∀ i, (s.child i).pc = .reaped := by
  have hp := h.parent
  rcases parent_quiet hquiet with hdead | ⟨hwait, hready⟩
  · cases hpc : s.parent.pc with
    | exited => exact ⟨rfl, h.stop (hp.exited hpc)⟩
    | killed => exact absurd (hp.killed hpc) (not_lt.mpr hinstalled)
    | _ => simp [hpc, ParentPc.alive] at hdead
  -- the parent waits, so that nothing is on its way to it
  have hstop := hp.waits (.inr hwait)
  have hpipe : s.parent.pipe = [] := by
    by_contra hne
    have hevent := hp.piped.event hne
    simp [hstop, hready, hwait, ParentPc.events] at hevent
  have hsigs : s.parent.pc.sigs = [] := by rw [hwait]; rfl
  have hnot : ∀ sig, ¬ s.parent.coming sig s.parent.pc.sigs := by
    intro sig
    simp [Process.coming, hpipe, hsigs, not_pending hquiet hpipe (by simp [hwait, ParentPc.alive]) sig]
  have htold : ∀ i, Told (s.child i) := by
    rcases h.asked hasked with ⟨sig, -, hin⟩ | hall | ⟨k, sig, sigs, events, hpc, -⟩
    · exact absurd (.inr hin) (hnot sig)
    · exact hall
    · simp [hwait] at hpc
  have hdead : ∀ i, (s.child i).pc.alive = false := by
    intro i
    rcases child_quiet hquiet (i := i) with hdead | ⟨hcwait, hcready⟩
    · exact hdead
    have halive : (s.child i).pc.alive = true := by rw [hcwait]; rfl
    obtain ⟨hpiped, hwaits⟩ := h.child i halive
    have hcstop := hwaits (.inr hcwait)
    have hcpipe : (s.child i).pipe = [] := by
      by_contra hne
      have hevent := hpiped.event hne
      simp [hcstop, hcready, hcwait, ChildPc.events] at hevent
    rcases htold i with hdead | hstops | ⟨sig, -, hpending | hin | hin⟩
    · exact hdead
    · simp [hcstop] at hstops
    · simp [not_pending_child hquiet hcpipe halive sig] at hpending
    · simp [hcpipe] at hin
    · simp [hcwait, ChildPc.sigs] at hin
  have hreaping : s.parent.pc.reaping ≠ true := by simp [hwait, ParentPc.reaping]
  have hreaped : ∀ i, (s.child i).pc ≠ .zombie → (s.child i).pc = .reaped := by
    intro i hne
    have hd := hdead i
    cases hpc : (s.child i).pc <;> simp_all [ChildPc.alive]
  have hzombie : ∀ i, (s.child i).pc = .zombie → s.missed i = true := by
    intro i hz
    by_contra hm
    exact (h.chld i hz (by simpa using hm)).elim (hnot .sigchld) hreaping
  obtain ⟨i₀, hi₀⟩ := hmissed
  have hfirst : (s.child i₀).pc = .reaped := hreaped i₀ fun hz => by simp [hzombie i₀ hz] at hi₀
  have hall : ∀ i, (s.child i).pc = .reaped := by
    refine fun i => hreaped i fun hz => ?_
    exact (h.missed i hz (hzombie i hz)).elim (fun hno => hno i₀ hfirst) hreaping
  have hlast := h.last hall
  simp [hstop, hwait, ParentPc.testing] at hlast

end Quiet

/-! ## Termination -/

section Events
variable {D : Type} {w : D → ℕ} {fd : D} {events : List D}

/-- What the events of a list count, each of them `w`. -/
def eventWork (w : D → ℕ) (events : List D) : ℕ := (events.map w).sum

@[simp]
theorem eventWork_nil : eventWork w [] = 0 := rfl

@[simp]
theorem eventWork_cons : eventWork w (fd :: events) = w fd + eventWork w events := List.sum_cons

@[simp]
theorem eventWork_append {events' : List D} :
    eventWork w (events ++ events') = eventWork w events + eventWork w events' := by
  simp [eventWork]

/-- What the events of a queue count, each two more. -/
def readyWork (w : D → ℕ) (ready : List D) : ℕ := eventWork w ready + 2 * ready.length

/-- At most one event more is queued. -/
theorem readyWork_le {ready : List D} (h : ready = events ∨ ready = events ++ [fd]) :
    readyWork w ready ≤ readyWork w events + (w fd + 2) := by
  rcases h with rfl | rfl
  · omega
  · simp only [readyWork, eventWork_append, eventWork_cons, eventWork_nil, List.length_append,
      List.length_singleton]
    omega

end Events

section Process
variable {D P : Type} [DecidableEq D] {q : Process D P} {pending : Signal → Bool} {m : ℕ}

/-- The number of signals pending at a process. -/
def pendingCount (pending : Signal → Bool) : ℕ :=
  (pending .sigchld).toNat + (pending .sigterm).toNat + (pending .sigint).toNat +
    (pending .sigpipe).toNat

/-- A signal is delivered. -/
theorem pendingCount_clear (h : pending sig = true) :
    pendingCount (Function.update pending sig false) + 1 = pendingCount pending := by
  cases sig <;> simp [pendingCount, h] <;> omega

/-- At most one signal more is pending. -/
theorem pendingCount_set :
    pendingCount (Function.update pending sig true) ≤ pendingCount pending + 1 := by
  cases sig <;> simp only [pendingCount, Function.update_self, ne_eq, reduceCtorEq, not_false_eq_true,
    Function.update_of_ne, Bool.toNat_true] <;> omega

/-- What a process still has to do for its signals and events, where a signal counts `m` and an event
`w`. -/
def Process.work (w : D → ℕ) (m : ℕ) (q : Process D P) : ℕ :=
  (m + 6) * pendingCount q.pending + m * q.pipe.length +
    readyWork w q.epoll.ready + (5 - q.installed)

variable {w : D → ℕ} {fd : D}

/-- A signal that is sent. -/
theorem work_raise : (q.raise sig).work w m ≤ q.work w m + (m + 6) := by
  unfold Process.raise
  split
  · omega
  · have hcount : pendingCount (Function.update q.pending sig true) ≤ pendingCount q.pending + 1 :=
      pendingCount_set
    have hmul := Nat.mul_le_mul_left (m + 6) hcount
    simp only [Process.work] at hmul ⊢
    rw [Nat.mul_add, Nat.mul_one] at hmul
    omega

/-- A signal that is delivered. -/
theorem work_sigHandler (hw : w fd ≤ 3) (h : q.pending sig = true) :
    (q.sigHandler fd sig sent).work w m < q.work w m := by
  have hcount := pendingCount_clear h
  have hmul : (m + 6) * pendingCount q.pending =
      (m + 6) * pendingCount (Function.update q.pending sig false) + (m + 6) := by
    rw [← hcount, Nat.mul_add, Nat.mul_one]
  have hready : readyWork w (q.epoll.notify fd).ready ≤ readyWork w q.epoll.ready + (w fd + 2) :=
    readyWork_le Epoll.ready_notify
  cases sent
  · simp only [Process.work, Process.sigHandler, Bool.false_eq_true, if_false] at hmul ⊢
    omega
  · simp only [Process.work, Process.sigHandler, if_true, List.length_append, List.length_singleton,
      Nat.mul_add] at hmul ⊢
    omega

/-- `epoll_wait` turns queued events into events to handle, which count two less each. -/
theorem work_wait {e : Epoll D} (h : e.ready ≠ []) :
    readyWork w (e.wait maxEventNumber).2.ready + (1 + eventWork w (e.wait maxEventNumber).1) <
      readyWork w e.ready := by
  have hpos : 0 < e.ready.length := List.length_pos_of_ne_nil h
  have hsplit : eventWork w e.ready =
      eventWork w (e.ready.take maxEventNumber) + eventWork w (e.ready.drop maxEventNumber) := by
    rw [← eventWork_append, List.take_append_drop]
  simp only [readyWork, Epoll.wait, List.length_drop, hsplit, maxEventNumber]
  omega

end Process

/-- What a signal counts at the parent: it may signal all children. -/
def sigWork (n : ℕ) : ℕ := 8 * n + 4

/-- What an event counts at the parent: for one of `listenfd` it sends to a child, or gets `SIGPIPE`. -/
def parentEvent (n : ℕ) : ParentFd → ℕ
  | .listenfd => sigWork n + 9
  | .sigPipefd => 3

/-- What an event counts at a child: for one of its pipe it registers a connection. -/
def childEvent : ChildFd → ℕ
  | .pipefd => 6
  | .sigPipefd | .connfd _ => 3

/-- What the parent still has to do for what it has taken, and for registering `listenfd`. -/
def ParentPc.work (n : ℕ) : ParentPc → ℕ
  | .setup => sigWork n + 13
  | .wait => 1
  | .dispatch events => 2 + eventWork (parentEvent n) events
  | .signals sigs events => 3 + sigWork n * sigs.length + eventWork (parentEvent n) events
  | .kill k _ sigs events =>
      4 + 8 * (n - k) + sigWork n * sigs.length + eventWork (parentEvent n) events
  | .reap sigs events => 5 + sigWork n * sigs.length + eventWork (parentEvent n) events
  | .check sigs events => 4 + sigWork n * sigs.length + eventWork (parentEvent n) events
  | .exited | .killed => 0

/-- What a child still has to do for what it has taken and for registering its pipe, and its death, of
which the parent is told. -/
def ChildPc.work (n : ℕ) : ChildPc → ℕ
  | .setup => sigWork n + 17
  | .wait => sigWork n + 8
  | .dispatch events => sigWork n + 9 + eventWork childEvent events
  | .signals sigs events => sigWork n + 10 + sigs.length + eventWork childEvent events
  | .zombie => 1
  | .reaped => 0

/-- What a child still has to do. -/
def childWork (n : ℕ) (c : Process ChildFd ChildPc) : ℕ := c.work childEvent 1 + c.pc.work n

/-- What the pool still has to do, if nobody else does anything. -/
def State.work (s : State n) : ℕ :=
  s.parent.work (parentEvent n) (sigWork n) + s.parent.pc.work n + tally (childWork n) s.child

/-- A child does some of its work. -/
theorem work_setChild (h : childWork n c < childWork n (s.child i)) :
    (s.setChild i c).work < s.work := by
  have hsum := tally_update (childWork n) s.child i c
  simp only [State.work, State.setChild]
  omega

/-- A child that dies has no more to do, but for the parent to be told and to reap it. -/
theorem work_exits (halive : (s.child i).pc.alive = true) : (s.exits i).work < s.work := by
  have hsum : tally (childWork n) (s.exits i).child + childWork n (s.child i) =
      tally (childWork n) s.child + childWork n { s.child i with pc := .zombie } := tally_update ..
  have hraised : (s.exits i).parent = s.parent.raise .sigchld := rfl
  have hparent : (s.parent.raise .sigchld).work (parentEvent n) (sigWork n) ≤
      s.parent.work (parentEvent n) (sigWork n) + (sigWork n + 6) := work_raise
  have hpc : sigWork n + 8 ≤ (s.child i).pc.work n := by
    cases hpc : (s.child i).pc <;> simp only [hpc, ChildPc.alive, Bool.false_eq_true] at halive <;>
      simp only [ChildPc.work] <;> omega
  have hself : childWork n { s.child i with pc := .zombie } = (s.child i).work childEvent 1 + 1 := rfl
  have hwas : childWork n (s.child i) = (s.child i).work childEvent 1 + (s.child i).pc.work n := rfl
  simp only [State.work, hraised, Process.raise_pc]
  omega

/-- A step of a child does some of its work. -/
theorem work_child (hst : childNext s i = some s') : s'.work < s.work := by
  cases hpc : (s.child i).pc with
  | setup =>
    simp only [childNext, hpc] at hst
    split at hst
    · cases hst
      refine work_setChild ?_
      simp only [childWork, Process.work, hpc]
      omega
    · cases hst
      have hready : readyWork childEvent ((s.child i).epoll.add .pipefd (s.requests.sent i)).ready ≤
          readyWork childEvent (s.child i).epoll.ready + (6 + 2) := readyWork_le Epoll.ready_add
      refine work_setChild ?_
      simp only [childWork, Process.work, hpc, ChildPc.work]
      omega
  | wait =>
    simp only [childNext, hpc] at hst
    split at hst
    · cases hst
    case isFalse hready =>
      cases hst
      have hwait := work_wait (w := childEvent) hready
      refine work_setChild ?_
      simp only [childWork, Process.work, hpc, ChildPc.work]
      omega
  | dispatch events =>
    cases events with
    | nil =>
      simp only [childNext, hpc] at hst
      split at hst
      · cases hst
        exact work_exits (by simp [hpc, ChildPc.alive])
      · cases hst
        refine work_setChild ?_
        simp only [childWork, Process.work, hpc, ChildPc.work]
        omega
    | cons fd events =>
      cases fd with
      | sigPipefd =>
        cases hst.symm.trans (by rw [childNext, hpc])
        refine work_setChild ?_
        simp only [childWork, Process.work, hpc, ChildPc.work, eventWork_cons, childEvent,
          List.length_take, List.length_drop]
        omega
      | pipefd => simp [childNext, hpc] at hst
      | connfd k =>
        cases hst.symm.trans (by rw [childNext, hpc])
        refine work_setChild ?_
        simp only [childWork, Process.work, hpc, ChildPc.work, eventWork_cons, childEvent]
        omega
  | signals sigs events =>
    cases sigs with
    | nil =>
      cases hst.symm.trans (by rw [childNext, hpc])
      refine work_setChild ?_
      simp only [childWork, Process.work, hpc, ChildPc.work, List.length_nil]
      omega
    | cons sig sigs =>
      cases hst.symm.trans (by rw [childNext, hpc])
      refine work_setChild ?_
      simp only [childWork, Process.work, hpc, ChildPc.work, List.length_cons]
      omega
  | zombie => simp [childNext, hpc] at hst
  | reaped => simp [childNext, hpc] at hst

/-- A child that accepts does some of its work. -/
theorem work_accept {conn : Option (ℕ × Bool)} (hst : acceptNext s i conn = some s') :
    s'.work < s.work := by
  simp only [acceptNext] at hst
  split at hst
  case h_2 => cases hst
  case h_1 events hpc =>
    cases hst
    refine work_setChild ?_
    cases conn with
    | none =>
      simp only [childWork, Process.work, hpc, ChildPc.work, eventWork_cons, childEvent,
        Option.elim_none]
      omega
    | some conn =>
      have hready : readyWork childEvent ((s.child i).epoll.add (.connfd conn.1) conn.2).ready ≤
          readyWork childEvent (s.child i).epoll.ready + (3 + 2) := readyWork_le Epoll.ready_add
      simp only [childWork, Process.work, hpc, ChildPc.work, eventWork_cons, childEvent,
        Option.elim_some]
      omega

/-- What is sent to a child is work for the child, or for the parent, which gets `SIGPIPE`. -/
theorem work_send : (s.send i).work ≤ s.work + (sigWork n + 8) := by
  unfold State.send
  split
  · have hsum := tally_update (childWork n) s.child i ((s.child i).notify .pipefd)
    have hready : readyWork childEvent ((s.child i).epoll.notify .pipefd).ready ≤
        readyWork childEvent (s.child i).epoll.ready + (6 + 2) := readyWork_le Epoll.ready_notify
    simp only [State.work, State.setChild, childWork, Process.work, Process.notify] at hsum ⊢
    omega
  · have hraise : (s.parent.raise .sigpipe).work (parentEvent n) (sigWork n) ≤
        s.parent.work (parentEvent n) (sigWork n) + (sigWork n + 6) := work_raise
    simp only [State.work, Process.raise_pc]
    omega

/-- The parent goes on, with the same signals and events to come. -/
theorem work_move {p : Process ParentFd ParentPc}
    (hsame : p.work (parentEvent n) (sigWork n) = s.parent.work (parentEvent n) (sigWork n))
    (h : p.pc.work n < s.parent.pc.work n) : State.work { s with parent := p } < s.work := by
  have hwork : State.work { s with parent := p } =
      p.work (parentEvent n) (sigWork n) + p.pc.work n + tally (childWork n) s.child := rfl
  rw [hwork, State.work]
  omega

/-- A step of the parent does some of its work. -/
theorem work_parent [NeZero n] (hst : parentNext s = some s') : s'.work < s.work := by
  cases hpc : s.parent.pc with
  | setup =>
    simp only [parentNext, hpc] at hst
    split at hst
    · cases hst
      simp only [State.work, Process.work, hpc]
      omega
    · cases hst
      have hready : readyWork (parentEvent n)
        (s.parent.epoll.add .listenfd s.requests.connected).ready ≤
          readyWork (parentEvent n) s.parent.epoll.ready + (sigWork n + 9 + 2) :=
        readyWork_le Epoll.ready_add
      simp only [State.work, Process.work, hpc, ParentPc.work]
      omega
  | wait =>
    simp only [parentNext, hpc] at hst
    split at hst
    · cases hst
    case isFalse hready =>
      cases hst
      have hwait := work_wait (w := parentEvent n) hready
      simp only [State.work, Process.work, hpc, ParentPc.work]
      omega
  | dispatch events =>
    cases events with
    | nil =>
      cases hst.symm.trans (by rw [parentNext, hpc])
      refine work_move rfl ?_
      cases s.parent.stop <;> simp [hpc, ParentPc.work]
    | cons fd events =>
      cases fd with
      | listenfd =>
        simp only [parentNext, hpc] at hst
        split at hst
        case h_1 =>
          cases hst
          refine work_move rfl ?_
          simp only [hpc, ParentPc.work, eventWork_cons, parentEvent, eventWork_nil]
          omega
        case h_2 j _ =>
          cases hst
          have hsend : (s.send j).work ≤ s.work + (sigWork n + 8) := work_send
          simp only [State.served, State.work, Process.work, State.send_pc, hpc, ParentPc.work,
            eventWork_cons, parentEvent] at hsend ⊢
          omega
      | sigPipefd =>
        cases hst.symm.trans (by rw [parentNext, hpc])
        have hsplit : sigWork n * s.parent.pipe.length =
            sigWork n * (s.parent.pipe.take maxSignals).length +
              sigWork n * (s.parent.pipe.drop maxSignals).length := by
          rw [← Nat.mul_add, ← List.length_append, List.take_append_drop]
        simp only [State.work, Process.work, hpc, ParentPc.work, eventWork_cons, parentEvent]
        omega
  | signals sigs events =>
    cases sigs with
    | nil =>
      cases hst.symm.trans (by rw [parentNext, hpc])
      refine work_move rfl ?_
      simp only [hpc, ParentPc.work, List.length_nil]
      omega
    | cons sig sigs =>
      cases sig <;>
        cases hst.symm.trans (by rw [parentNext, hpc]) <;>
        refine work_move rfl ?_ <;>
        simp only [hpc, ParentPc.work, List.length_cons, Nat.mul_add, sigWork] <;>
        omega
  | kill k sig sigs events =>
    simp only [parentNext, hpc] at hst
    split at hst
    case isTrue hlt =>
      split at hst
      · cases hst
        have hsum := tally_update (childWork n) s.child ⟨k, hlt⟩ ((s.child ⟨k, hlt⟩).raise sig)
        have hraise : ((s.child ⟨k, hlt⟩).raise sig).work childEvent 1 ≤
            (s.child ⟨k, hlt⟩).work childEvent 1 + (1 + 6) := work_raise
        have hself : childWork n ((s.child ⟨k, hlt⟩).raise sig) =
            ((s.child ⟨k, hlt⟩).raise sig).work childEvent 1 + (s.child ⟨k, hlt⟩).pc.work n := by
          rw [childWork, Process.raise_pc]
        have hwas : childWork n (s.child ⟨k, hlt⟩) =
            (s.child ⟨k, hlt⟩).work childEvent 1 + (s.child ⟨k, hlt⟩).pc.work n := rfl
        simp only [State.work, State.kill, State.setChild, Process.work, hpc, ParentPc.work]
          at hraise hself hwas ⊢
        omega
      · cases hst
        refine work_move rfl ?_
        simp only [hpc, ParentPc.work]
        omega
    case isFalse =>
      cases hst
      refine work_move rfl ?_
      simp only [hpc, ParentPc.work]
      omega
  | reap sigs events =>
    simp only [parentNext, hpc] at hst
    split at hst
    · cases hst
    · cases hst
      refine work_move rfl ?_
      simp only [hpc, ParentPc.work]
      omega
  | check sigs events =>
    cases hst.symm.trans (by rw [parentNext, hpc])
    refine work_move rfl ?_
    simp only [hpc, ParentPc.work]
    omega
  | exited => simp [parentNext, hpc] at hst
  | killed => simp [parentNext, hpc] at hst

/-- An internal step, or the death of a child, does some of the work. -/
theorem work_lt [NeZero n] (hl : l.own = true) (hst : Step s l s') : s'.work < s.work := by
  cases l with
  | parent => exact work_parent hst
  | child i => exact work_child hst
  | accept i conn => exact work_accept hst
  | die i =>
    simp only [Step, next] at hst
    split at hst
    case isTrue halive =>
      cases hst
      exact work_exits halive
    case isFalse => cases hst
  | reap i =>
    simp only [Step, next, reapNext] at hst
    split at hst
    case h_2 => cases hst
    case h_1 =>
      split at hst
      case isFalse => cases hst
      case isTrue hzombie =>
        cases hst
        have hlt := work_setChild (s := s) (i := i) (c := { s.child i with pc := .reaped })
          (by simp [childWork, Process.work, hzombie, ChildPc.work])
        exact hlt
  | deliver sig sent =>
    simp only [Step, next, deliverNext] at hst
    split at hst
    case isFalse => cases hst
    case isTrue hpending =>
      split at hst
      · cases hst
        have hlt : (s.parent.sigHandler .sigPipefd sig sent).work (parentEvent n) (sigWork n) <
            s.parent.work (parentEvent n) (sigWork n) := work_sigHandler le_rfl hpending.1
        have hpc : (s.parent.sigHandler .sigPipefd sig sent).pc = s.parent.pc := by
          cases sent <;> rfl
        simp only [State.work, hpc]
        omega
      case isFalse hno =>
        cases hst
        have hpos : 0 < s.parent.pc.work n := by
          cases hpc : s.parent.pc <;> simp only [hpc, ParentPc.alive, Bool.false_eq_true,
            and_false] at hpending <;>
            simp only [ParentPc.work] <;> omega
        exact work_move rfl hpos
  | deliverChild i sig sent =>
    simp only [Step, next, deliverChildNext] at hst
    split at hst
    case isFalse => cases hst
    case isTrue hpending =>
      split at hst
      · cases hst
        have hlt : ((s.child i).sigHandler .sigPipefd sig sent).work childEvent 1 <
            (s.child i).work childEvent 1 := work_sigHandler le_rfl hpending.1
        have hpc : ((s.child i).sigHandler .sigPipefd sig sent).pc = (s.child i).pc := by
          cases sent <;> rfl
        refine work_setChild ?_
        simp only [childWork, hpc]
        omega
      · cases hst
        exact work_exits hpending.2
  | _ => cases hl

/-- What is sent to a child changes no more than its events, or the signals of the parent. -/
theorem send_frame : (s.asked = true → (s.send i).asked = true) ∧
    s.parent.installed ≤ (s.send i).parent.installed ∧
    (4 ≤ s.parent.installed → ∀ j, s.missed j = false → (s.send i).missed j = false) := by
  unfold State.send
  split
  · exact ⟨id, le_rfl, fun _ _ => id⟩
  · exact ⟨id, Process.raise_installed.ge, fun _ _ => id⟩

/-- What the parent has been asked, and that it has been, is kept by every step; and a child that dies
when all handlers are installed is not missed. -/
theorem frame [NeZero n] (hst : Step s l s') : (s.asked = true → s'.asked = true) ∧
    s.parent.installed ≤ s'.parent.installed ∧
    (4 ≤ s.parent.installed → ∀ i, s.missed i = false → s'.missed i = false) := by
  have hexits : ∀ i, (s.asked = true → (s.exits i).asked = true) ∧
      s.parent.installed ≤ (s.exits i).parent.installed ∧
      (4 ≤ s.parent.installed → ∀ j, s.missed j = false → (s.exits i).missed j = false) := by
    refine fun i => ⟨id, by simp [State.exits], fun hinstalled j hj => ?_⟩
    have hhandles : s.parent.handles .sigchld = true :=
      decide_eq_true (show 0 < s.parent.installed by omega)
    by_cases hji : j = i
    · subst hji; simp [State.exits, hhandles]
    · simp [State.exits, hji, hj]
  cases l with
  | parent =>
    simp only [Step, next, parentNext] at hst
    repeat' split at hst
    all_goals cases hst
    all_goals first
      | exact ⟨id, by simp, fun _ _ => id⟩
      | exact send_frame
  | child i =>
    simp only [Step, next, childNext] at hst
    repeat' split at hst
    all_goals cases hst
    all_goals first
      | exact hexits i
      | exact ⟨id, le_rfl, fun _ _ => id⟩
  | accept i conn =>
    simp only [Step, next, acceptNext] at hst
    split at hst
    all_goals cases hst
    exact ⟨id, le_rfl, fun _ _ => id⟩
  | reap i =>
    simp only [Step, next, reapNext] at hst
    repeat' split at hst
    all_goals cases hst
    all_goals exact ⟨id, le_rfl, fun _ _ => id⟩
  | deliver sig sent =>
    simp only [Step, next, deliverNext] at hst
    repeat' split at hst
    all_goals cases hst
    · exact ⟨fun ha => by simp [ha], by cases sent <;> exact le_rfl, fun _ _ => id⟩
    · exact ⟨id, le_rfl, fun _ _ => id⟩
  | deliverChild i sig sent =>
    simp only [Step, next, deliverChildNext] at hst
    repeat' split at hst
    all_goals cases hst
    · exact ⟨id, le_rfl, fun _ _ => id⟩
    · exact hexits i
  | die i =>
    simp only [Step, next] at hst
    split at hst
    · cases hst
      exact hexits i
    · cases hst
  | signal sig =>
    cases hst
    exact ⟨id, by simp, fun _ _ => id⟩
  | _ =>
    cases hst
    exact ⟨id, le_rfl, fun _ _ => id⟩

/-- The parent leaves its loop only when it has reaped every child. After `SIGTERM` or `SIGINT` has
come to its handler, no more than `work` steps of the processes follow and deaths of children, whatever
their order and with whatever is left to do for connections, and when there is none left the parent has
left its loop, if it had installed its handlers and not all children died before that. -/
theorem shutdown [NeZero n] {ls : List (Label n)} (hrun : Run (Guarded Step Kept) (init n) ls s) :
    (s.parent.pc = .exited → ∀ i, (s.child i).pc = .reaped) ∧
    (s.asked = true → 4 ≤ s.parent.installed → (∃ i, s.missed i = false) →
      ∀ ls' t, Run (Guarded Step fun s l => l.own = true ∧ Kept s l) s ls' t →
        ls'.length ≤ s.work ∧
          ((∀ l u, l.internal = true → Kept t l → ¬ Step t l u) →
            t.parent.pc = .exited ∧ ∀ i, (t.child i).pc = .reaped)) := by
  have hok := ok_of_run hrun
  refine ⟨fun hpc => hok.stop (hok.parent.exited hpc), ?_⟩
  refine fun hasked hinstalled ⟨i, hi⟩ ls' t hrun' => ⟨?_, ?_⟩
  · have hlength := hrun'.length_le (μ := State.work) fun s l t hst => work_lt hst.2.1 hst.1
    omega
  · intro hquiet
    have hall : Ok t ∧ t.asked = true ∧ 4 ≤ t.parent.installed ∧ t.missed i = false := by
      refine hrun'.invariant
        (I := fun t => Ok t ∧ t.asked = true ∧ 4 ≤ t.parent.installed ∧ t.missed i = false)
        ?_ ⟨hok, hasked, hinstalled, hi⟩
      rintro s l t ⟨hok, hasked, hinstalled, hi⟩ ⟨hst, -, hkept⟩
      obtain ⟨hasked', hinstalled', hmissed'⟩ := frame hst
      exact ⟨ok_step hok ⟨hst, hkept⟩, hasked' hasked, hinstalled.trans hinstalled',
        hmissed' hinstalled i hi⟩
    obtain ⟨hok', hasked', hinstalled', hi'⟩ := hall
    refine ended_of_quiet hok' ?_ hasked' hinstalled' ⟨i, hi'⟩
    rintro ⟨l, u, hl, hst, hkept⟩
    exact hquiet l u hl hkept hst

section TwoChildren

/-- The first child. -/
def firstChild : Fin 2 := ⟨0, Nat.two_pos⟩

/-- The second child. -/
def secondChild : Fin 2 := ⟨1, Nat.one_lt_two⟩

/-- A pool of two children is started, a client connects, and the parent gets `SIGTERM`. -/
def asks : List (Label 2) :=
  List.replicate 5 .parent ++ List.replicate 5 (.child firstChild) ++ List.replicate 5
    (.child secondChild) ++
    [.connect, .parent, .signal .sigterm, .deliver .sigterm true]

/-- The parent sends the connection to the first child, which accepts it, and the second child dies. The
parent signals the first child, which ends, and reaps both. -/
def ends : List (Label 2) :=
  [.parent, .die secondChild, .child firstChild, .accept firstChild (some (5, true))] ++
    List.replicate 4 (.child firstChild) ++ List.replicate 9 .parent ++
    [.deliverChild firstChild .sigterm true] ++ List.replicate 5 (.child firstChild) ++
    [.deliver .sigchld true, .parent, .parent, .parent, .reap firstChild, .reap secondChild] ++
    List.replicate 4 .parent

/-- A pool of two children ends, with a connection left to accept and one child dead already. -/
theorem shutdown_twoChildren : ∃ s t : State 2, Run (Guarded Step Kept) (init 2) asks s ∧
    Run (Guarded Step fun s l => l.own = true ∧ Kept s l) s ends t ∧ ends.length ≤ s.work ∧
    t.parent.pc = .exited ∧ ∀ i, (t.child i).pc = .reaped := by
  obtain ⟨s, hs, hrest⟩ := Option.bind_eq_some_iff.mp (show
    ((exec (guardedNext next Kept) (init 2) asks).bind fun s =>
      (exec (guardedNext next fun s l => l.own = true ∧ Kept s l) s ends).map fun t =>
        (s.asked, s.parent.installed, s.missed firstChild, t.parent.pc, (t.child firstChild).pc,
          (t.child secondChild).pc)) =
      some (true, 4, false, .exited, .reaped, .reaped) from rfl)
  obtain ⟨_, hrun, rfl⟩ := Run.of_exec_guarded (f := id) (v := s) (congrArg (Option.map id) hs)
  obtain ⟨t, hrun', ht⟩ := Run.of_exec_guarded hrest
  simp only [Prod.mk.injEq] at ht
  obtain ⟨hasked, hinstalled, hmissed, hexited, hfirst, hsecond⟩ := ht
  have hreaped : ∀ i, (t.child i).pc = .reaped := Fin.forall_fin_two.mpr ⟨hfirst, hsecond⟩
  obtain ⟨hlength, hquiet⟩ := (shutdown hrun).2 hasked hinstalled.ge ⟨firstChild, hmissed⟩ ends t hrun'
  refine ⟨_, t, hrun, hrun', hlength, hquiet fun l u hl _ hst => ?_⟩
  cases l with
  | parent => simp [Step, next, parentNext, hexited] at hst
  | child i => simp [Step, next, childNext, hreaped] at hst
  | accept i conn => simp [Step, next, acceptNext, hreaped] at hst
  | reap i => simp [Step, next, reapNext, hexited] at hst
  | deliver sig sent => simp [Step, next, deliverNext, hexited, ParentPc.alive] at hst
  | deliverChild i sig sent =>
    simp [Step, next, deliverChildNext, hreaped, ChildPc.alive] at hst
  | _ => cases hl

end TwoChildren

end Shutdown

end Ulsp
