import Ulsp.Procpool.Pool

/-!
# The process pool and coalesced events

The parent sends one message for each event of `listenfd` and a child accepts once for each event of
its pipe, so the accepts still to come (`State.owed`) are counted by events, and the backlog by
arrivals. Every step keeps their difference, except an arrival that merges with an earlier one, which
raises it by one (`ok_step`). In a quiet state no accept is to come, so connections are left in the
backlog exactly when an arrival has merged.
-/

namespace Ulsp

open Lib

namespace Procpool

/-- The events a child still has to handle. -/
def ChildPc.events : ChildPc → List ChildFd
  | dispatch events => events
  | accept events => .pipefd :: events
  | _ => []

/-- The events the parent still has to handle. -/
def ParentPc.events : ParentPc → List ParentFd
  | dispatch events => events
  | _ => []

/-- The accepts a child will make for the messages sent so far. -/
def Process.owed (p : Process) : ℕ :=
  p.epoll.queued .pipefd (p.pipe != 0) + p.pc.events.count .pipefd

/-- A child is running, and has registered its pipe once it is past its setup. -/
structure Process.Ok (p : Process) : Prop where
  pid : p.pid ≠ -1
  setup : p.pc = .setup ↔ .pipefd ∉ p.epoll.interest

section Child

variable {p p' : Process} {fd : ChildFd}

/-- A message causes one accept more, or merges. -/
theorem Process.Ok.send (h : p.Ok) : p.send.Ok ∧
    p.send.owed + (p.epoll.merges .pipefd (p.pipe != 0)).toNat = p.owed + 1 := by
  refine ⟨⟨h.pid, by simpa [Process.send] using h.setup⟩, ?_⟩
  have hq := p.epoll.queued_notify .pipefd (p.pipe != 0)
  have hinput : (p.pipe + 1 != 0) = true := by simp
  simp only [Process.owed, Process.send, hinput]
  omega

/-- Events of other descriptors cause no accept. -/
theorem Process.Ok.event (h : p.Ok) (hne : .pipefd ≠ fd) :
    (p.event fd).Ok ∧ (p.event fd).owed = p.owed :=
  ⟨⟨h.pid, by simpa [Process.event] using h.setup⟩, by
    simp only [Process.owed, Process.event, Epoll.queued_notify_of_ne _ hne]⟩

/-- Registering a connection causes no accept. -/
theorem Process.Ok.addfd (h : p.Ok) (hne : .pipefd ≠ fd) :
    (p.addfd fd).Ok ∧ (p.addfd fd).owed = p.owed :=
  ⟨⟨h.pid, by simpa [Process.addfd, hne] using h.setup⟩, by
    simp only [Process.owed, Process.addfd, Epoll.queued_add_of_ne _ hne]⟩

/-- Whether the next step of a child calls `accept`. -/
def ChildPc.accepts : ChildPc → Bool
  | accept _ => true
  | _ => false

/-- A child's step makes one of its accepts, or none. -/
theorem Process.Ok.next (h : p.Ok) (hnext : p.next = some p') :
    p'.Ok ∧ p.owed = p'.owed + p.pc.accepts.toNat := by
  obtain ⟨pid, pipe, epoll, pc⟩ := p
  have hsetup := h.setup
  cases pc with
  | setup =>
    cases hnext
    have hnot : ChildFd.pipefd ∉ epoll.interest := hsetup.mp rfl
    have hnot' : ChildFd.pipefd ∉ (epoll.add .sigPipefd false).interest := by simp [hnot]
    refine ⟨⟨h.pid, by simp⟩, ?_⟩
    simp only [Process.owed, ChildPc.events, ChildPc.accepts, Epoll.queued_add hnot',
      epoll.queued_add_of_ne (show ChildFd.pipefd ≠ .sigPipefd from nofun)]
    rfl
  | wait =>
    simp only [Process.next] at hnext
    split at hnext
    · cases hnext
    · cases hnext
      have hcount := epoll.count_wait .pipefd (pipe != 0) maxEventNumber
      refine ⟨⟨h.pid, by simpa using hsetup⟩, ?_⟩
      simp only [Process.owed, ChildPc.events, ChildPc.accepts, List.count_nil, Bool.toNat_false]
      omega
  | dispatch events =>
    have hreg : ChildFd.pipefd ∈ epoll.interest := by simpa using hsetup
    cases events with
    | nil =>
      cases hnext
      exact ⟨⟨h.pid, by simpa using hreg⟩, rfl⟩
    | cons fd events =>
      cases fd with
      | pipefd =>
        cases hnext
        refine ⟨⟨h.pid, by simpa using hreg⟩, ?_⟩
        simp only [Process.owed, ChildPc.events, ChildPc.accepts, Bool.toNat_false, add_zero]
        rw [Epoll.queued_input hreg _ (pipe != 0)]
      | sigPipefd =>
        cases hnext
        exact ⟨⟨h.pid, by simpa using hreg⟩, by simp [Process.owed, ChildPc.events, ChildPc.accepts]⟩
      | connfd conn =>
        cases hnext
        exact ⟨⟨h.pid, by simpa using hreg⟩, by simp [Process.owed, ChildPc.events, ChildPc.accepts]⟩
  | accept events =>
    cases hnext
    have hreg : ChildFd.pipefd ∈ epoll.interest := by simpa using hsetup
    refine ⟨⟨h.pid, by simpa using hreg⟩, ?_⟩
    simp only [Process.owed, ChildPc.events, ChildPc.accepts, List.count_cons_self,
      Bool.toNat_true]
    omega

end Child

variable {n : ℕ} {s s' : State n} {i : Fin n} {l : Label n}

/-- The messages the parent will send for the connections that have arrived so far. -/
def State.parentOwed (s : State n) : ℕ :=
  s.parent.epoll.queued .listenfd (!s.backlog.isEmpty) + s.parent.pc.events.count .listenfd

/-- The accepts to come for the connections that have arrived so far. -/
def State.owed (s : State n) : ℕ := s.parentOwed + tally Process.owed s.subProcess

/-- The invariant: connections are accepted in the order they arrived in, there is a connection in
the backlog for every accept to come, and none is to come before the parent's setup but those the
parent owes. -/
structure State.Ok (s : State n) : Prop where
  process : ∀ i, (s.subProcess i).Ok
  setup : s.parent.pc = .setup ↔ .listenfd ∉ s.parent.epoll.interest
  early : s.parent.pc = .setup → ∀ i, (s.subProcess i).owed = 0
  order : s.accepted.map Prod.fst ++ s.backlog = List.range s.arrived
  owed : s.owed ≤ s.backlog.length

/-- One child changes. -/
theorem ok_update {p : Process} (h : s.Ok) (hp : p.Ok) :
    ∀ k, (Function.update s.subProcess i p k).Ok := fun k => by
  rcases eq_or_ne k i with rfl | hk
  · rwa [Function.update_self]
  · rw [Function.update_of_ne hk]
    exact h.process k

/-- A child that owes nothing more leaves all of them so, if they were. -/
theorem early_update {p : Process} (h : s.Ok) (hs : s.parent.pc = .setup)
    (hp : p.owed ≤ (s.subProcess i).owed) :
    ∀ k, (Function.update s.subProcess i p k).owed = 0 := fun k => by
  rcases eq_or_ne k i with rfl | hk
  · rw [Function.update_self]
    have := h.early hs k
    omega
  · rw [Function.update_of_ne hk]
    exact h.early hs k

/-- An event that is not of a pipe leaves everything as it was. -/
theorem ok_childEvent {fd : ChildFd} (h : s.Ok) (hne : .pipefd ≠ fd) :
    (s.childEvent i fd).Ok ∧ (s.childEvent i fd).owed = s.owed := by
  obtain ⟨hok, howed⟩ := (h.process i).event hne
  have htally := tally_update Process.owed s.subProcess i ((s.subProcess i).event fd)
  have heq : (s.childEvent i fd).owed = s.owed := by
    simp only [State.owed, State.parentOwed, State.childEvent]
    omega
  exact ⟨⟨ok_update h hok, h.setup, fun hs => early_update h hs howed.le, h.order, heq ▸ h.owed⟩, heq⟩

/-- What a step does to the difference of backlog and accepts to come. -/
def Accounts (s s' : State n) (merged : Bool) : Prop :=
  s'.backlog.length + s.owed = s.backlog.length + s'.owed + merged.toNat

theorem Accounts.owed_le {b : Bool} (h : Accounts s s' b) (hs : s.Ok) :
    s'.owed ≤ s'.backlog.length := by
  have := hs.owed
  simp only [Accounts] at h
  omega

/-- The parent takes a step of its own. -/
theorem ok_parent_move {p : Parent n} (h : s.Ok)
    (hsetup : p.pc = .setup ↔ .listenfd ∉ p.epoll.interest)
    (hearly : p.pc = .setup → s.parent.pc = .setup)
    (howed : State.parentOwed { s with parent := p } = s.parentOwed) :
    State.Ok { s with parent := p } ∧ Accounts s { s with parent := p } false := by
  have hacc : Accounts s { s with parent := p } false := by
    simp only [Accounts, State.owed, howed, Bool.toNat_false]
    rfl
  exact ⟨⟨h.process, hsetup, fun hs => h.early (hearly hs), h.order, hacc.owed_le h⟩, hacc⟩

/-- A child takes a step other than an accept. -/
theorem ok_child_move {p : Process} (h : s.Ok) (hp : p.Ok) (howed : (s.subProcess i).owed = p.owed) :
    State.Ok { s with subProcess := Function.update s.subProcess i p } ∧
      Accounts s { s with subProcess := Function.update s.subProcess i p } false := by
  have htally := tally_update Process.owed s.subProcess i p
  have hacc : Accounts s { s with subProcess := Function.update s.subProcess i p } false := by
    simp only [Accounts, State.owed, State.parentOwed, Bool.toNat_false]
    omega
  exact ⟨⟨ok_update h hp, h.setup, fun hs => early_update h hs howed.ge, h.order, hacc.owed_le h⟩,
    hacc⟩

/-- A child accepts a connection. -/
theorem ok_accept {p : Process} {conn : ℕ} {backlog : List ℕ} (h : s.Ok)
    (hback : s.backlog = conn :: backlog) (hp : p.Ok) (howed : (s.subProcess i).owed = p.owed + 1) :
    State.Ok { s with
      backlog
      accepted := s.accepted ++ [(conn, i)]
      subProcess := Function.update s.subProcess i p } ∧
    Accounts s { s with
      backlog
      accepted := s.accepted ++ [(conn, i)]
      subProcess := Function.update s.subProcess i p } false := by
  have hpc : s.parent.pc ≠ .setup := fun hs => by
    have := h.early hs i
    omega
  have hreg : ParentFd.listenfd ∈ s.parent.epoll.interest := by simpa [hpc] using h.setup
  have htally := tally_update Process.owed s.subProcess i p
  have hinput := Epoll.queued_input hreg (!s.backlog.isEmpty) (!backlog.isEmpty)
  have hlen : s.backlog.length = backlog.length + 1 := by simp [hback]
  have hacc : Accounts s { s with
      backlog
      accepted := s.accepted ++ [(conn, i)]
      subProcess := Function.update s.subProcess i p } false := by
    simp only [Accounts, State.owed, State.parentOwed, Bool.toNat_false]
    omega
  refine ⟨⟨ok_update h hp, h.setup, fun hs => absurd hs hpc, ?_, hacc.owed_le h⟩, hacc⟩
  have horder := h.order
  simpa [hback] using horder

/-- In a quiet state no accept is to come. -/
theorem owed_of_quiet (hs : s.Quiet) (hok : s.Ok) : s.owed = 0 := by
  obtain ⟨⟨hpc, hready⟩, hchild⟩ := hs
  have hreg : ParentFd.listenfd ∈ s.parent.epoll.interest := by simpa [hpc] using hok.setup
  have hprocess : ∀ i, (s.subProcess i).owed = 0 := fun i => by
    obtain ⟨hpc, hready⟩ := hchild i
    have hreg : ChildFd.pipefd ∈ (s.subProcess i).epoll.interest := by
      simpa [hpc] using (hok.process i).setup
    rw [Process.owed, Epoll.queued_of_ready hreg hready, hpc]
    rfl
  rw [State.owed, State.parentOwed, Epoll.queued_of_ready hreg hready, tally_eq_zero.mpr hprocess,
    hpc]
  rfl

/-- A list whose first components are distinct holds each of them once. -/
theorem filter_of_nodup {A : Type} {log : List (ℕ × A)} (hnd : (log.map Prod.fst).Nodup) {c : ℕ}
    (hc : c ∈ log.map Prod.fst) : ∃ i, log.filter (fun a => a.1 = c) = [(c, i)] := by
  induction log with
  | nil => cases hc
  | cons a log ih =>
    obtain ⟨c', i⟩ := a
    obtain ⟨hnot, hnd⟩ := List.nodup_cons.mp hnd
    rcases eq_or_ne c' c with rfl | hne
    · refine ⟨i, ?_⟩
      have hrest : log.filter (fun a => a.1 = c') = [] :=
        List.filter_eq_nil_iff.mpr fun b hb => by
          have hmem : b.1 ∈ log.map Prod.fst := List.mem_map_of_mem hb
          have hne : b.1 ≠ c' := fun heq => hnot (heq ▸ hmem)
          simpa using hne
      simpa using hrest
    · obtain ⟨j, hj⟩ := ih hnd ((List.mem_cons.mp hc).resolve_left hne.symm)
      exact ⟨j, by simpa [hne] using hj⟩

/-- In a state that keeps the invariant, all connections that have arrived have been accepted exactly
when the backlog is empty. -/
theorem acceptedOnce_iff (hok : s.Ok) :
    (∀ conn < s.arrived, s.AcceptedOnce conn) ↔ s.backlog = [] := by
  have horder := hok.order
  have hnd : (s.accepted.map Prod.fst ++ s.backlog).Nodup := horder ▸ List.nodup_range
  obtain ⟨hndmap, -, hdisj⟩ := List.nodup_append'.mp hnd
  refine ⟨?_, ?_⟩
  · intro hall
    cases hback : s.backlog with
    | nil => rfl
    | cons conn rest =>
      have hmem : conn ∈ s.backlog := by simp [hback]
      have hlt : conn < s.arrived :=
        List.mem_range.mp (horder ▸ List.mem_append_right _ hmem)
      obtain ⟨i, hfilter⟩ := hall conn hlt
      have hin : (conn, i) ∈ s.accepted.filter (fun a => a.1 = conn) := by simp [hfilter]
      exact absurd hmem (hdisj (List.mem_map_of_mem (List.mem_of_mem_filter hin)))
  · intro hnil conn hlt
    refine filter_of_nodup hndmap ?_
    rw [hnil, List.append_nil] at horder
    rw [horder]
    exact List.mem_range.mpr hlt

variable [NeZero n]

/-- With every child running, the loop over `sub_process` stops at its first pass. -/
theorem runningChild_of_running {sub : Fin n → Process} (h : ∀ i, (sub i).pid ≠ -1)
    (counter : Fin n) : runningChild sub counter = some counter := by
  obtain ⟨m, rfl⟩ := Nat.exists_eq_succ_of_ne_zero (NeZero.ne n)
  simp [runningChild, List.finRange_succ, h]

/-- A connection arrives. -/
theorem ok_connect (h : s.Ok) (hstep : next s .connect = some s') :
    s'.Ok ∧ Accounts s s' (merges s .connect) := by
  cases hstep
  have hq := s.parent.epoll.queued_notify .listenfd (!s.backlog.isEmpty)
  have hinput : (!(s.backlog ++ [s.arrived]).isEmpty) = true := by simp
  have hacc : Accounts s { s with
      arrived := s.arrived + 1
      backlog := s.backlog ++ [s.arrived]
      parent := { s.parent with epoll := s.parent.epoll.notify .listenfd } }
      (merges s .connect) := by
    simp only [Accounts, State.owed, State.parentOwed, hinput, merges, List.length_append,
      List.length_singleton]
    omega
  refine ⟨⟨h.process, by simpa using h.setup, h.early, ?_, hacc.owed_le h⟩, hacc⟩
  show s.accepted.map Prod.fst ++ (s.backlog ++ [s.arrived]) = List.range (s.arrived + 1)
  rw [← List.append_assoc, h.order, List.range_succ]

/-- The parent sends a message. -/
theorem ok_send {events : List ParentFd} (h : s.Ok)
    (hpc : s.parent.pc = .dispatch (.listenfd :: events)) (hstep : next s .parent = some s') :
    s'.Ok ∧ Accounts s s' (merges s .parent) := by
  have hrun := runningChild_of_running (fun i => (h.process i).pid) s.parent.counter
  have hreg : ParentFd.listenfd ∈ s.parent.epoll.interest := by simpa [hpc] using h.setup
  simp only [next, parentNext, hpc, hrun] at hstep
  cases hstep
  obtain ⟨hok, hsend⟩ := (h.process s.parent.counter).send
  have htally := tally_update Process.owed s.subProcess s.parent.counter
    (s.subProcess s.parent.counter).send
  have hacc : Accounts s { s with
      parent := { s.parent with pc := .dispatch events, counter := s.parent.counter + 1 }
      subProcess := Function.update s.subProcess s.parent.counter
        (s.subProcess s.parent.counter).send } (merges s .parent) := by
    simp only [Accounts, State.owed, State.parentOwed, merges, hpc, hrun, ParentPc.events,
      List.count_cons_self]
    omega
  exact ⟨⟨ok_update h hok, by simpa using hreg, nofun, h.order, hacc.owed_le h⟩, hacc⟩

/-- The parent takes a step. -/
theorem ok_parent (h : s.Ok) (hstep : next s .parent = some s') :
    s'.Ok ∧ Accounts s s' (merges s .parent) := by
  have hsetup := h.setup
  cases hpc : s.parent.pc with
  | setup =>
    have hnot : ParentFd.listenfd ∉ s.parent.epoll.interest := hsetup.mp hpc
    have hnot' : ParentFd.listenfd ∉ (s.parent.epoll.add .sigPipefd false).interest := by
      simp [hnot]
    simp only [next, parentNext, hpc] at hstep
    cases hstep
    simp only [merges, hpc]
    refine ok_parent_move h (by simp) nofun ?_
    simp only [State.parentOwed, hpc, ParentPc.events, Epoll.queued_add hnot',
      s.parent.epoll.queued_add_of_ne (show ParentFd.listenfd ≠ .sigPipefd from nofun)]
  | wait =>
    have hreg : ParentFd.listenfd ∈ s.parent.epoll.interest := by simpa [hpc] using hsetup
    simp only [next, parentNext, hpc] at hstep
    split at hstep
    · cases hstep
    · cases hstep
      simp only [merges, hpc]
      refine ok_parent_move h (by simpa using hreg) nofun ?_
      have hcount := s.parent.epoll.count_wait .listenfd (!s.backlog.isEmpty) maxEventNumber
      simp only [State.parentOwed, hpc, ParentPc.events, List.count_nil]
      exact hcount
  | dispatch events =>
    have hreg : ParentFd.listenfd ∈ s.parent.epoll.interest := by simpa [hpc] using hsetup
    cases events with
    | nil =>
      simp only [next, parentNext, hpc] at hstep
      cases hstep
      simp only [merges, hpc]
      refine ok_parent_move h ?_ ?_ ?_
      · cases s.parent.stop <;> simpa using hreg
      · cases s.parent.stop <;> nofun
      · cases s.parent.stop <;> simp [State.parentOwed, hpc, ParentPc.events]
    | cons fd events =>
      cases fd with
      | listenfd => exact ok_send h hpc hstep
      | sigPipefd =>
        simp only [next, parentNext, hpc] at hstep
        cases hstep
        simp only [merges, hpc]
        refine ok_parent_move h (by simpa using hreg) nofun ?_
        simp [State.parentOwed, hpc, ParentPc.events]
  | exited =>
    simp only [next, parentNext, hpc] at hstep
    cases hstep

/-- A child takes a step. It finds a connection whenever it accepts. -/
theorem ok_child (h : s.Ok) (hstep : next s (.child i) = some s') :
    s'.Ok ∧ Accounts s s' (merges s (.child i)) := by
  simp only [next, childNext, Option.bind_eq_bind, Option.bind_eq_some_iff] at hstep
  obtain ⟨p, hp, hstep⟩ := hstep
  obtain ⟨hok, howed⟩ := (h.process i).next hp
  split at hstep
  · rename_i events conn backlog hpc hback
    cases hstep
    obtain ⟨hok', howed'⟩ := hok.addfd (show ChildFd.pipefd ≠ .connfd conn from nofun)
    rw [hpc] at howed
    exact ok_accept h hback hok' (by rw [howed', howed]; rfl)
  · rename_i hno
    cases hstep
    refine ok_child_move h hok ?_
    cases hpc : (s.subProcess i).pc with
    | accept events =>
      -- the backlog holds a connection for every accept to come
      have hzero : (s.subProcess i).owed = 0 := by
        have hnil : s.backlog = [] := by
          cases hback : s.backlog with
          | nil => rfl
          | cons conn backlog => exact absurd hback (hno events conn backlog hpc)
        have hle := h.owed
        have htally : tally Process.owed s.subProcess = 0 := by
          simp only [hnil, List.length_nil, State.owed] at hle
          omega
        exact tally_eq_zero.mp htally i
      rw [hpc] at howed
      simp only [ChildPc.accepts, Bool.toNat_true] at howed
      omega
    | _ => simpa [hpc, ChildPc.accepts] using howed

/-- Every step keeps the invariant, and raises the number of connections that no accept is to come
for exactly when it is an arrival that merges. -/
theorem ok_step (h : s.Ok) (hstep : Step s l s') : s'.Ok ∧ Accounts s s' (merges s l) := by
  cases l with
  | connect => exact ok_connect h hstep
  | parent => exact ok_parent h hstep
  | child i => exact ok_child h hstep
  | data i conn =>
    cases hstep
    obtain ⟨hok, howed⟩ := ok_childEvent (i := i) h (show ChildFd.pipefd ≠ .connfd conn from nofun)
    exact ⟨hok, by simp only [Accounts, howed]; rfl⟩
  | parentSignal =>
    cases hstep
    refine ok_parent_move h (by simpa using h.setup) id ?_
    simp only [State.parentOwed, s.parent.epoll.queued_notify_of_ne
      (show ParentFd.listenfd ≠ .sigPipefd from nofun)]
  | childSignal i =>
    cases hstep
    obtain ⟨hok, howed⟩ := ok_childEvent (i := i) h (show ChildFd.pipefd ≠ .sigPipefd from nofun)
    exact ⟨hok, by simp only [Accounts, howed]; rfl⟩

/-- The invariant holds at the start, when no accept is to come. -/
theorem init_ok (pid : Fin n → ℕ) : (init pid).Ok ∧ (init pid).owed = 0 := by
  have hprocess : ∀ i, ((init pid).subProcess i).owed = 0 := fun i => rfl
  have howed : (init pid).owed = 0 := by
    rw [State.owed, tally_eq_zero.mpr hprocess]
    rfl
  refine ⟨⟨fun i => ⟨?_, by simp [init, Epoll.create]⟩, by simp [init, Epoll.create],
    fun _ => hprocess, rfl, howed.le⟩, howed⟩
  show ((pid i : ℕ) : ℤ) ≠ -1
  omega

/-- After every run there is an accept to come for every connection in the backlog exactly when no
arrival of the run has merged. -/
theorem accounts_of_run {pid : Fin n → ℕ} {ls : List (Label n)} (h : Run Step (init pid) ls s) :
    s.Ok ∧ (s.owed = s.backlog.length ↔ Run (Guarded Step Separate) (init pid) ls s) := by
  induction h with
  | refl =>
    obtain ⟨hok, howed⟩ := init_ok pid
    exact ⟨hok, fun _ => .refl, fun _ => howed⟩
  | @tail as s s' l hrun hstep ih =>
    obtain ⟨hok, hiff⟩ := ih
    obtain ⟨hok', hacc⟩ := ok_step hok hstep
    refine ⟨hok', ?_⟩
    rw [hrun.guarded_tail (fun _ _ _ _ h h' => Option.some.inj (h.symm.trans h')) hstep, ← hiff]
    have hle := hok.owed
    unfold Accounts at hacc
    cases hm : merges s l with
    | false =>
      rw [hm, Bool.toNat_false] at hacc
      simp only [Separate, hm, and_true]
      omega
    | true =>
      rw [hm, Bool.toNat_true] at hacc
      simp only [Separate, hm, Bool.true_eq_false, and_false, iff_false]
      omega

/-- For every run to a state in which all processes are blocked in `epoll_wait` and no event is
pending: every connection that arrived has been accepted once, by one child, if and only if no
arrival of the run merged with an earlier one whose event had not been taken. -/
theorem all_accepted_iff_separate {pid : Fin n → ℕ} {ls : List (Label n)}
    (h : Run Step (init pid) ls s) (hs : s.Quiet) :
    (∀ conn < s.arrived, s.AcceptedOnce conn) ↔ Run (Guarded Step Separate) (init pid) ls s := by
  obtain ⟨hok, hiff⟩ := accounts_of_run h
  rw [acceptedOnce_iff hok, ← hiff, owed_of_quiet hs hok]
  refine ⟨fun hnil => by rw [hnil]; rfl, fun hlen => List.eq_nil_of_length_eq_zero hlen.symm⟩

/-- What is seen of a pool with one child. -/
def State.read (s : State 1) :
    (ParentPc × List ParentFd) × (ChildPc × List ChildFd) × ℕ × List (ℕ × Fin 1) :=
  ((s.parent.pc, s.parent.epoll.ready), ((s.subProcess 0).pc, (s.subProcess 0).epoll.ready),
    s.arrived, s.accepted)

theorem quiet_of_read {s : State 1} {k : ℕ} {log : List (ℕ × Fin 1)}
    (h : s.read = ((.wait, []), (.wait, []), k, log)) :
    s.Quiet ∧ s.arrived = k ∧ s.accepted = log := by
  simp only [State.read, Prod.mk.injEq] at h
  obtain ⟨hparent, hchild, harrived, haccepted⟩ := h
  exact ⟨⟨hparent, fun i => Subsingleton.elim 0 i ▸ hchild⟩, harrived, haccepted⟩

/-- One connection, at a pool with one child. -/
def oneConnection : List (Label 1) :=
  [.parent, .child 0, .connect, .parent, .parent, .parent, .child 0, .child 0, .child 0, .child 0]

/-- Its arrival is separate from others, and it is accepted. -/
theorem all_accepted_iff_separate_one : ∃ s, Run (Step (n := 1)) (init fun _ => 7) oneConnection s ∧
    s.Quiet ∧ s.AcceptedOnce 0 ∧
    Run (Guarded Step Separate) (init fun _ => 7) oneConnection s := by
  obtain ⟨s, hrun, hread⟩ := Run.of_exec_map (f := State.read) (s := init fun _ => 7)
    (v := ((.wait, []), (.wait, []), 1, [(0, 0)])) (rfl : (exec next _ oneConnection).map _ = some _)
  obtain ⟨hquiet, harrived, haccepted⟩ := quiet_of_read hread
  have honce : s.AcceptedOnce 0 := ⟨0, by rw [haccepted]; rfl⟩
  refine ⟨s, hrun, hquiet, honce, (all_accepted_iff_separate hrun hquiet).mp ?_⟩
  intro conn hlt
  obtain rfl : conn = 0 := by omega
  exact honce

/-- Two connections that arrive before the parent's `epoll_wait`, at a pool with one child. -/
def twoConnections : List (Label 1) :=
  [.parent, .child 0, .connect, .connect, .parent, .parent, .parent, .child 0, .child 0, .child 0,
    .child 0]

/-- All processes are blocked in `epoll_wait`, no event is pending, and the second connection has not
been accepted. -/
theorem connection_lost : ∃ s, Run (Step (n := 1)) (init fun _ => 7) twoConnections s ∧
    s.Quiet ∧ s.arrived = 2 ∧ ¬ s.AcceptedOnce 1 := by
  obtain ⟨s, hrun, hread⟩ := Run.of_exec_map (f := State.read) (s := init fun _ => 7)
    (v := ((.wait, []), (.wait, []), 2, [(0, 0)])) (rfl : (exec next _ twoConnections).map _ = some _)
  obtain ⟨hquiet, harrived, haccepted⟩ := quiet_of_read hread
  refine ⟨s, hrun, hquiet, harrived, ?_⟩
  rintro ⟨i, hfilter⟩
  rw [haccepted] at hfilter
  simp at hfilter

end Procpool

end Ulsp
