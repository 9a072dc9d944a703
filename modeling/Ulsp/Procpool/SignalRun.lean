import Mathlib.Algebra.Group.Fin.Basic
import Ulsp.Procpool.Signals

/-!
# What a run of the process pool with signals keeps

A signal that was sent to a process and not handled yet is pending, in its signal pipe, or received
(`Process.coming`), and signals in the pipe come with an event (`Piped`). From these follow what holds
of the children that are to be signalled and of those that are to be reaped, as long as no signal is
lost (`Ok`, `ok_of_run`).
-/

namespace Ulsp

open Lib Procpool

namespace Shutdown

variable {n : ℕ}

/-- The events that the parent still has to handle. -/
def ParentPc.events : ParentPc → List ParentFd
  | .dispatch events | .signals _ events | .kill _ _ _ events | .reap _ events | .check _ events =>
      events
  | _ => []

/-- The signals that the parent still has to handle. -/
def ParentPc.sigs : ParentPc → List Signal
  | .signals sigs _ | .kill _ _ sigs _ | .reap sigs _ | .check sigs _ => sigs
  | _ => []

/-- The parent is at `waitpid`. -/
def ParentPc.reaping : ParentPc → Bool
  | .reap _ _ => true
  | _ => false

/-- The parent is at `waitpid` or at the test behind it. -/
def ParentPc.testing : ParentPc → Bool
  | .reap _ _ | .check _ _ => true
  | _ => false

/-- The parent is not in one of the loops of `SIGTERM` and `SIGCHLD`. -/
def ParentPc.plain : ParentPc → Bool
  | .kill _ _ _ _ | .reap _ _ | .check _ _ => false
  | _ => true

/-- The parent is in its loop, and not at `epoll_wait`. -/
def ParentPc.busy : ParentPc → Bool
  | .setup | .wait | .exited | .killed => false
  | _ => true

/-- The events that a child still has to handle. -/
def ChildPc.events : ChildPc → List ChildFd
  | .dispatch events | .signals _ events => events
  | _ => []

/-- The signals that a child still has to handle. -/
def ChildPc.sigs : ChildPc → List Signal
  | .signals sigs _ => sigs
  | _ => []

/-- Signals in the pipe come with an event, unless the process is leaving its loop, and fit into one
`recv`. -/
structure Piped {D P : Type} [DecidableEq D] (sigPipefd : D) (p : Process D P) (events : List D) :
    Prop where
  registered : sigPipefd ∈ p.epoll.interest
  room : p.pipe.length ≤ maxSignals
  event : p.pipe ≠ [] → p.stop = true ∨ sigPipefd ∈ p.epoll.ready ∨ sigPipefd ∈ events

/-- A signal has been sent to a process, which has not handled it yet; `sigs` are those it has
received. -/
def Process.coming {D P : Type} [DecidableEq D] (p : Process D P) (sig : Signal) (sigs : List Signal) :
    Prop :=
  p.pending sig = true ∨ sig ∈ p.pipe ∨ sig ∈ sigs

/-- The parent may be signalled, but is not going to end by itself, where it waits; it has installed all
handlers when it is out of `setup_sig_pipe`. -/
structure ParentOk (p : Process ParentFd ParentPc) : Prop where
  piped : Piped .sigPipefd p p.pc.events
  waits : p.pc = .setup ∨ p.pc = .wait → p.stop = false
  exited : p.pc = .exited → p.stop = true
  killed : p.pc = .killed → p.installed < 4
  installed : p.installed < 4 → p.pc = .setup ∨ p.pc = .killed

/-- The same of a child that has not died. -/
structure ChildOk (c : Process ChildFd ChildPc) : Prop where
  piped : Piped .sigPipefd c c.pc.events
  waits : c.pc = .setup ∨ c.pc = .wait → c.stop = false

/-- A child is going to die. -/
def Told (c : Process ChildFd ChildPc) : Prop :=
  c.pc.alive = false ∨ c.stop = true ∨ ∃ sig, sig.ends = true ∧ c.coming sig c.pc.sigs

/-- A signal that ends the pool is in the signal pipe of the parent, or received and not handled. -/
def Asking (p : Process ParentFd ParentPc) : Prop :=
  ∃ sig, sig.ends = true ∧ (sig ∈ p.pipe ∨ sig ∈ p.pc.sigs)

/-- The parent signals its children, and those before the next have been. -/
def Telling (p : Process ParentFd ParentPc) (child : Fin n → Process ChildFd ChildPc) : Prop :=
  ∃ k sig sigs events, p.pc = .kill k sig sigs events ∧ ∀ i : Fin n, i < k → Told (child i)

/-- The invariant. -/
structure Ok (s : State n) : Prop where
  parent : ParentOk s.parent
  child : ∀ i, (s.child i).pc.alive = true → ChildOk (s.child i)
  running : ∀ i, s.running i = false ↔ (s.child i).pc = .reaped
  early : s.parent.installed < 4 → ∀ i, (s.child i).pc ≠ .reaped
  stop : s.parent.stop = true → ∀ i, (s.child i).pc = .reaped
  last : (∀ i, (s.child i).pc = .reaped) → s.parent.stop = true ∨ s.parent.pc.testing = true
  kill : ∀ k sig sigs events, s.parent.pc = .kill k sig sigs events → sig.ends = true
  chld : ∀ i, (s.child i).pc = .zombie → s.missed i = false →
    s.parent.coming .sigchld s.parent.pc.sigs ∨ s.parent.pc.reaping = true
  missed : ∀ i, (s.child i).pc = .zombie → s.missed i = true →
    (∀ j, (s.child j).pc ≠ .reaped) ∨ s.parent.pc.reaping = true
  asked : s.asked = true → Asking s.parent ∨ (∀ i, Told (s.child i)) ∨ Telling s.parent s.child

section Process
variable {D P : Type} [DecidableEq D] {p : Process D P} {sig sig' : Signal} {sigs : List Signal}
  {sigPipefd fd : D} {events : List D}

@[simp]
theorem Process.raise_pc : (p.raise sig).pc = p.pc := by unfold raise; split <;> rfl

@[simp]
theorem Process.raise_epoll : (p.raise sig).epoll = p.epoll := by unfold raise; split <;> rfl

@[simp]
theorem Process.raise_pipe : (p.raise sig).pipe = p.pipe := by unfold raise; split <;> rfl

@[simp]
theorem Process.raise_stop : (p.raise sig).stop = p.stop := by unfold raise; split <;> rfl

@[simp]
theorem Process.raise_installed :
    (p.raise sig).installed = p.installed := by unfold raise; split <;> rfl

/-- A signal on its way is not lost by another. -/
theorem Process.coming_raise (h : p.coming sig sigs) : (p.raise sig').coming sig sigs := by
  unfold raise
  split
  · exact h
  · refine h.imp_left fun hpending => ?_
    by_cases heq : sig = sig'
    · subst heq; exact Function.update_self ..
    · exact (Function.update_of_ne heq ..).trans hpending

/-- A signal that is sent is on its way, unless it is ignored. -/
theorem Process.coming_raise_self (h : sig = .sigchld → p.handles sig = true) :
    (p.raise sig).coming sig sigs := by
  have hno : ¬ (sig = .sigchld ∧ p.handles sig = false) := fun ⟨heq, hf⟩ => by simp [h heq] at hf
  rw [raise, if_neg hno]
  exact .inl (Function.update_self ..)

/-- A signal on its way is still, when the handler has sent one. -/
theorem Process.coming_sigHandler (h : p.coming sig sigs) :
    (p.sigHandler sigPipefd sig' true).coming sig sigs := by
  rcases h with hpending | hpipe | hsigs
  · by_cases heq : sig = sig'
    · subst heq; exact .inr (.inl (List.mem_append_right _ (List.mem_singleton_self sig)))
    · exact .inl ((Function.update_of_ne heq ..).trans hpending)
  · exact .inr (.inl (List.mem_append_left _ hpipe))
  · exact .inr (.inr hsigs)

theorem Piped.raise (h : Piped sigPipefd p events) : Piped sigPipefd (p.raise sig) events := by
  refine ⟨?_, ?_, ?_⟩ <;> simp only [Process.raise_epoll, Process.raise_pipe, Process.raise_stop]
  · exact h.registered
  · exact h.room
  · exact h.event

theorem Piped.notify (h : Piped sigPipefd p events) : Piped sigPipefd (p.notify fd) events where
  registered := by simpa [Process.notify] using h.registered
  room := h.room
  event hne := (h.event hne).imp_right (Or.imp_left fun hin => Epoll.mem_ready_notify.mpr (.inl hin))

/-- What the handler sends is in the pipe, and there is an event. -/
theorem Piped.sigHandler (h : Piped sigPipefd p events) (hroom : p.pipe.length < maxSignals) :
    Piped sigPipefd (p.sigHandler sigPipefd sig true) events where
  registered := by simpa [Process.sigHandler] using h.registered
  room := by simpa [Process.sigHandler] using Nat.succ_le_of_lt hroom
  event _ := .inr (.inl (Epoll.mem_ready_notify.mpr (.inr ⟨rfl, h.registered⟩)))

/-- Nothing happens to the signal pipe. -/
theorem Piped.of_eq {p' : Process D P} {events' : List D} (h : Piped sigPipefd p events)
    (hepoll : p'.epoll = p.epoll) (hpipe : p'.pipe = p.pipe) (hstop : p.stop = true → p'.stop = true)
    (hevents : p'.stop = true ∨ (sigPipefd ∈ events → sigPipefd ∈ events')) :
    Piped sigPipefd p' events' := by
  refine ⟨?_, ?_, ?_⟩ <;> simp only [hepoll, hpipe]
  · exact h.registered
  · exact h.room
  · exact fun hne => hevents.elim .inl fun hevents => (h.event hne).imp hstop (Or.imp_right hevents)

/-- `epoll_wait` with no event left to handle. -/
theorem Piped.wait {p' : Process D P} {max : ℕ} (h : Piped sigPipefd p [])
    (hepoll : p'.epoll = (p.epoll.wait max).2) (hpipe : p'.pipe = p.pipe) (hstop : p'.stop = p.stop) :
    Piped sigPipefd p' (p.epoll.wait max).1 := by
  refine ⟨?_, ?_, ?_⟩ <;> simp only [hepoll, hpipe, hstop]
  · exact h.registered
  · exact h.room
  · exact fun hne => (h.event hne).imp_right fun hin =>
      (Epoll.mem_wait (hin.resolve_right List.not_mem_nil)).symm

/-- `recv` takes all that is in the pipe. -/
theorem Piped.recv {p' : Process D P} (h : Piped sigPipefd p (sigPipefd :: events))
    (hepoll : p'.epoll = p.epoll)
    (hpipe : p'.pipe = p.pipe.drop maxSignals) : Piped sigPipefd p' events := by
  have hnil : p.pipe.drop maxSignals = [] := List.drop_eq_nil_of_le h.room
  refine ⟨by rw [hepoll]; exact h.registered, by simp [hpipe, hnil], fun hne => ?_⟩
  exact absurd (hpipe.trans hnil) hne

/-- Another descriptor is registered. -/
theorem Piped.add {p' : Process D P} {input : Bool} (h : Piped sigPipefd p events)
    (hepoll : p'.epoll = p.epoll.add fd input) (hpipe : p'.pipe = p.pipe) (hstop : p'.stop = p.stop) :
    Piped sigPipefd p' events := by
  refine ⟨?_, ?_, ?_⟩ <;> simp only [hepoll, hpipe, hstop]
  · simpa using .inr h.registered
  · exact h.room
  · exact fun hne => (h.event hne).imp_right (Or.imp_left fun hin => Epoll.mem_ready_add.mpr (.inl hin))

end Process

variable {s s' : State n} {l : Label n} {i : Fin n} {sig : Signal} {sent : Bool}
  {p p' : Process ParentFd ParentPc} {c c' : Process ChildFd ChildPc}

/-- The parent has installed its handlers when it is in its loop. -/
theorem ParentOk.four_le (h : ParentOk p) (hne : p.pc ≠ .setup)
    (hne' : p.pc ≠ .killed) : 4 ≤ p.installed :=
  not_lt.mp fun hlt => (h.installed hlt).elim hne hne'

/-- In its loop the parent only has to keep its signal pipe. -/
theorem ParentOk.of_busy (hpiped : Piped .sigPipefd p p.pc.events) (hinstalled : 4 ≤ p.installed)
    (hbusy : p.pc.busy = true) : ParentOk p := by
  refine ⟨hpiped, ?_, ?_, ?_, fun hlt => absurd hlt (not_lt.mpr hinstalled)⟩
  · rintro (hpc | hpc) <;> simp [hpc, ParentPc.busy] at hbusy
  · intro hpc
    simp [hpc, ParentPc.busy] at hbusy
  · intro hpc
    simp [hpc, ParentPc.busy] at hbusy

/-- The requests have no part in it. -/
theorem Ok.setRequests (h : Ok s) (requests : Requests n) : Ok { s with requests } :=
  ⟨h.parent, h.child, h.running, h.early, h.stop, h.last, h.kill, h.chld, h.missed, h.asked⟩

/-- Only the parent moves. -/
theorem Ok.parent_move (h : Ok s) (hp : ParentOk p')
    (hinstalled : p'.installed < 4 → s.parent.installed < 4)
    (hstop : p'.stop = true → ∀ i, (s.child i).pc = .reaped)
    (hlast : (∀ i, (s.child i).pc = .reaped) → p'.stop = true ∨ p'.pc.testing = true)
    (hkill : ∀ k sig sigs events, p'.pc = .kill k sig sigs events → sig.ends = true)
    (hchld : s.parent.coming .sigchld s.parent.pc.sigs ∨ s.parent.pc.reaping = true →
      (∀ i, (s.child i).pc ≠ .zombie) ∨ p'.coming .sigchld p'.pc.sigs ∨ p'.pc.reaping = true)
    (hmissed : s.parent.pc.reaping = true → (∀ i, (s.child i).pc ≠ .zombie) ∨ p'.pc.reaping = true)
    (hasked : Asking s.parent ∨ (∀ i, Told (s.child i)) ∨ Telling s.parent s.child →
      Asking p' ∨ (∀ i, Told (s.child i)) ∨ Telling p' s.child) : Ok { s with parent := p' } where
  parent := hp
  child := h.child
  running := h.running
  early he := h.early (hinstalled he)
  stop := hstop
  last := hlast
  kill := hkill
  chld i hi hm := (hchld (h.chld i hi hm)).resolve_left fun hno => hno i hi
  missed i hi hm := (h.missed i hi hm).imp_right fun hr => (hmissed hr).resolve_left fun hno => hno i hi
  asked ha := hasked (h.asked ha)

/-- Only a child moves, and it does not die. -/
theorem Ok.child_move (h : Ok s) (hc : c'.pc.alive = true → ChildOk c')
    (hzombie : c'.pc = .zombie ↔ (s.child i).pc = .zombie)
    (hreaped : c'.pc = .reaped ↔ (s.child i).pc = .reaped) (htold : Told (s.child i) → Told c') :
    Ok (s.setChild i c') := by
  have hz : ∀ j, (Function.update s.child i c' j).pc = .zombie ↔ (s.child j).pc = .zombie := by
    intro j
    rcases eq_or_ne j i with rfl | hne
    · rw [Function.update_self, hzombie]
    · rw [Function.update_of_ne hne]
  have hr : ∀ j, (Function.update s.child i c' j).pc = .reaped ↔ (s.child j).pc = .reaped := by
    intro j
    rcases eq_or_ne j i with rfl | hne
    · rw [Function.update_self, hreaped]
    · rw [Function.update_of_ne hne]
  have ht : ∀ j, Told (s.child j) → Told (Function.update s.child i c' j) := by
    intro j
    rcases eq_or_ne j i with rfl | hne
    · rw [Function.update_self]; exact htold
    · rw [Function.update_of_ne hne]; exact id
  constructor
  case parent => exact h.parent
  case child =>
    intro j
    rcases eq_or_ne j i with rfl | hne
    · simpa [State.setChild] using hc
    · simpa [State.setChild, hne] using h.child j
  case running => exact fun j => (h.running j).trans (hr j).symm
  case early => exact fun he j => mt (hr j).mp (h.early he j)
  case stop => exact fun hs j => (hr j).mpr (h.stop hs j)
  case last => exact fun hall => h.last fun j => (hr j).mp (hall j)
  case kill => exact h.kill
  case chld => exact fun j hj => h.chld j ((hz j).mp hj)
  case missed =>
    exact fun j hj hm => (h.missed j ((hz j).mp hj) hm).imp_left fun hno k => mt (hr k).mp (hno k)
  case asked =>
    refine fun ha => (h.asked ha).imp_right (Or.imp (fun hall j => ht j (hall j)) ?_)
    rintro ⟨k, sig, sigs, events, hpc, hall⟩
    exact ⟨k, sig, sigs, events, hpc, fun j hj => ht j (hall j hj)⟩

/-- What the parent has been asked stays on its way, where it signals nobody. -/
theorem asked_keep {child : Fin n → Process ChildFd ChildPc}
    (hkill : ∀ k sig sigs events, p.pc ≠ .kill k sig sigs events)
    (hsigs : ∀ sig, sig.ends = true → sig ∈ p.pipe ∨ sig ∈ p.pc.sigs →
      sig ∈ p'.pipe ∨ sig ∈ p'.pc.sigs)
    (h : Asking p ∨ (∀ i, Told (child i)) ∨ Telling p child) :
    Asking p' ∨ (∀ i, Told (child i)) ∨ Telling p' child := by
  rcases h with ⟨sig, hends, hin⟩ | hall | ⟨k, sig, sigs, events, hpc, -⟩
  · exact .inl ⟨sig, hends, hsigs sig hends hin⟩
  · exact .inr (.inl hall)
  · exact absurd hpc (hkill k sig sigs events)

/-- The parent goes on, outside the loops of `SIGTERM` and `SIGCHLD`. -/
theorem Ok.parent_goto (h : Ok s) (hp : ParentOk p') (hplain : s.parent.pc.plain = true)
    (hplain' : p'.pc.plain = true) (hinstalled : s.parent.installed ≤ p'.installed)
    (hstop : p'.stop = s.parent.stop) (hpending : p'.pending = s.parent.pending)
    (hsigs : ∀ sig, sig ≠ .sigpipe → sig ∈ s.parent.pipe ∨ sig ∈ s.parent.pc.sigs →
      sig ∈ p'.pipe ∨ sig ∈ p'.pc.sigs) : Ok { s with parent := p' } := by
  have hreaping : s.parent.pc.reaping = false := by
    cases hpc : s.parent.pc <;> simp [hpc, ParentPc.plain, ParentPc.reaping] at hplain ⊢
  have htesting : s.parent.pc.testing = false := by
    cases hpc : s.parent.pc <;> simp [hpc, ParentPc.plain, ParentPc.testing] at hplain ⊢
  refine h.parent_move hp (fun hlt => by omega) (fun hs => h.stop (hstop ▸ hs)) ?_ ?_ ?_ ?_ ?_
  · intro hall
    rw [hstop]
    exact .inl ((h.last hall).resolve_right (by simp [htesting]))
  · rintro k sig sigs events hpc
    simp [hpc, ParentPc.plain] at hplain'
  · rintro (hcoming | hr)
    · refine .inr (.inl ?_)
      rw [Process.coming, hpending]
      exact hcoming.imp_right (hsigs _ nofun)
    · simp [hreaping] at hr
  · intro hr
    simp [hreaping] at hr
  · refine asked_keep ?_ fun sig hends => hsigs sig (by rintro rfl; cases hends)
    rintro k sig sigs events hpc
    simp [hpc, ParentPc.plain] at hplain

/-- The parent goes on in its loop, and has only moved. -/
theorem Ok.parent_turn {pc : ParentPc} (h : Ok s) (hbusy : s.parent.pc.busy = true)
    (hbusy' : pc.busy = true) (hevents : pc.events = s.parent.pc.events)
    (htesting : s.parent.pc.testing = true → pc.testing = true)
    (hkill : ∀ k sig sigs events, pc = .kill k sig sigs events → sig.ends = true)
    (hchld : .sigchld ∈ s.parent.pc.sigs → .sigchld ∈ pc.sigs ∨ pc.reaping = true)
    (hreaping : s.parent.pc.reaping = true → (∀ i, (s.child i).pc ≠ .zombie) ∨ pc.reaping = true)
    (hasked : Asking s.parent ∨ (∀ i, Told (s.child i)) ∨ Telling s.parent s.child →
      Asking { s.parent with pc } ∨ (∀ i, Told (s.child i)) ∨ Telling { s.parent with pc } s.child) :
    Ok { s with parent := { s.parent with pc } } := by
  have hset : 4 ≤ s.parent.installed := by
    refine h.parent.four_le ?_ ?_ <;> intro hpc <;> simp [hpc, ParentPc.busy] at hbusy
  have hpiped : Piped .sigPipefd { s.parent with pc } pc.events :=
    h.parent.piped.of_eq rfl rfl id (.inr fun hin => by rwa [hevents])
  refine h.parent_move (.of_busy hpiped hset hbusy') id h.stop
    (fun hall => (h.last hall).imp_right htesting) hkill ?_ hreaping hasked
  rintro ((hpending | hpipe | hin) | hr)
  · exact .inr (.inl (.inl hpending))
  · exact .inr (.inl (.inr (.inl hpipe)))
  · exact .inr ((hchld hin).imp_left fun hin => .inr (.inr hin))
  · exact (hreaping hr).imp_right .inr

/-- Some child is not reaped, or all are. -/
theorem Ok.any_running (h : Ok s) :
    (List.finRange n).any s.running = false ↔ ∀ i, (s.child i).pc = .reaped := by
  rw [List.any_eq_false]
  exact ⟨fun hno i => (h.running i).mp (by simpa using hno i (List.mem_finRange i)),
    fun hall i _ => by simp [(h.running i).mpr (hall i)]⟩

/-- The loop over `sub_process` finds no child when all are reaped. -/
theorem Ok.runningChild_eq_none [NeZero n] (h : Ok s) :
    s.runningChild = none ↔ ∀ i, (s.child i).pc = .reaped := by
  have hall : s.runningChild = none ↔ ∀ i, s.running i = false := by
    simp only [State.runningChild, List.find?_eq_none, List.mem_map, List.mem_finRange, true_and,
      forall_exists_index, forall_apply_eq_imp_iff, Bool.not_eq_true]
    refine ⟨fun hno i => ?_, fun hno k => hno _⟩
    have hi := hno (i - s.requests.counter)
    rwa [add_sub_cancel] at hi
  exact hall.trans (forall_congr' h.running)

/-- A child that is signalled to end is told. -/
theorem Told.raise (hends : sig.ends = true) : Told (c.raise sig) :=
  .inr (.inr ⟨sig, hends, Process.coming_raise_self (by rintro rfl; cases hends)⟩)

/-- What a child has been told, a signal leaves. -/
theorem Told.mono (h : Told c) (hpc : c'.pc = c.pc) (hstop : c'.stop = c.stop)
    (hcoming : ∀ sig, c.coming sig c.pc.sigs → c'.coming sig c.pc.sigs) : Told c' := by
  rw [Told, hpc, hstop]
  exact h.imp_right (Or.imp_right fun ⟨sig, hends, hc⟩ => ⟨sig, hends, hcoming sig hc⟩)

/-- `kill` of a child. -/
theorem Ok.kill_child (h : Ok s) : Ok (s.kill i sig) := by
  refine h.child_move (fun halive => ⟨?_, ?_⟩) (by simp) (by simp)
    fun ht => ht.mono (by simp) (by simp) fun _ => Process.coming_raise
  · simpa using (h.child i (by simpa using halive)).piped.raise
  · simpa using (h.child i (by simpa using halive)).waits

/-- A signal that is sent to the parent. -/
theorem Ok.raise_parent (h : Ok s) : Ok { s with parent := s.parent.raise sig } := by
  have hp := h.parent
  refine h.parent_move ⟨?_, ?_, ?_, ?_, ?_⟩ (by simp) (by simpa using h.stop) (by simpa using h.last)
    (by simpa using h.kill) ?_ ?_ ?_
  · simpa using hp.piped.raise
  · simpa using hp.waits
  · simpa using hp.exited
  · simpa using hp.killed
  · simpa using hp.installed
  · intro hc
    simpa using .inr (hc.imp_left Process.coming_raise)
  · simpa using .inr
  · simp [Asking, Telling]

/-- An event comes to a child. -/
theorem Ok.notify_child {fd : ChildFd} (h : Ok s) : Ok (s.setChild i ((s.child i).notify fd)) :=
  h.child_move (fun halive => ⟨(h.child i halive).piped.notify, (h.child i halive).waits⟩) .rfl .rfl id

@[simp]
theorem State.send_pc : (s.send i).parent.pc = s.parent.pc := by
  unfold send
  split <;> simp [setChild]

/-- Something is sent to a child. -/
theorem Ok.send (h : Ok s) : Ok (s.send i) := by
  unfold State.send
  split
  · exact h.notify_child.setRequests _
  · exact h.raise_parent

/-- The parent starts to signal its children. -/
theorem Ok.start_kill {sigs : List Signal} {events : List ParentFd} (h : Ok s)
    (hpc : s.parent.pc = .signals (sig :: sigs) events) (hends : sig.ends = true) :
    Ok { s with parent := { s.parent with pc := .kill 0 sig sigs events } } := by
  refine h.parent_turn (by rw [hpc]; rfl) rfl (by rw [hpc]; rfl) (by simp [hpc, ParentPc.testing]) ?_ ?_
    (by simp [hpc, ParentPc.reaping]) fun _ => .inr (.inr ⟨0, sig, sigs, events, rfl, nofun⟩)
  · rintro _ _ _ _ ⟨⟩
    exact hends
  · intro hin
    rw [hpc] at hin
    refine .inl ((List.mem_cons.mp hin).resolve_left ?_)
    rintro rfl
    cases hends

/-- The parent signals the child `k`, unless that is reaped. -/
theorem Ok.next_kill {k : ℕ} {sigs : List Signal} {events : List ParentFd} (h : Ok s)
    (hpc : s.parent.pc = .kill k sig sigs events)
    (htold : ∀ i : Fin n, (i : ℕ) = k → Told (s.child i)) :
    Ok { s with parent := { s.parent with pc := .kill (k + 1) sig sigs events } } := by
  refine h.parent_turn (by rw [hpc]; rfl) rfl (by rw [hpc]; rfl) (by simp [hpc, ParentPc.testing]) ?_
    (fun hin => by rw [hpc] at hin; exact .inl hin) (by simp [hpc, ParentPc.reaping]) ?_
  · rintro _ _ _ _ ⟨⟩
    exact h.kill k sig sigs events hpc
  · rintro (⟨sig', hends, hin⟩ | hall | ⟨k', sig', sigs', events', hpc', hall⟩)
    · rw [hpc] at hin
      exact .inl ⟨sig', hends, hin⟩
    · exact .inr (.inl hall)
    · rw [hpc] at hpc'
      cases hpc'
      refine .inr (.inr ⟨_, _, _, _, rfl, fun i hi => ?_⟩)
      rcases Nat.lt_succ_iff_lt_or_eq.mp hi with hlt | heq
      · exact hall i hlt
      · exact htold i heq

/-- The parent has signalled all its children. -/
theorem Ok.end_kill {k : ℕ} {sigs : List Signal} {events : List ParentFd} (h : Ok s)
    (hpc : s.parent.pc = .kill k sig sigs events) (hge : n ≤ k) :
    Ok { s with parent := { s.parent with pc := .signals sigs events } } := by
  refine h.parent_turn (by rw [hpc]; rfl) rfl (by rw [hpc]; rfl) (by simp [hpc, ParentPc.testing]) nofun
    (fun hin => by rw [hpc] at hin; exact .inl hin) (by simp [hpc, ParentPc.reaping]) ?_
  rintro (⟨sig', hends, hin⟩ | hall | ⟨k', sig', sigs', events', hpc', hall⟩)
  · rw [hpc] at hin
    exact .inl ⟨sig', hends, hin⟩
  · exact .inr (.inl hall)
  · rw [hpc] at hpc'
    cases hpc'
    exact .inr (.inl fun i => hall i (by omega))

/-- The parent comes to `waitpid`. -/
theorem Ok.start_reap {sigs : List Signal} {events : List ParentFd} (h : Ok s)
    (hpc : s.parent.pc = .signals (.sigchld :: sigs) events) :
    Ok { s with parent := { s.parent with pc := .reap sigs events } } := by
  refine h.parent_turn (by rw [hpc]; rfl) rfl (by rw [hpc]; rfl) (fun _ => rfl) nofun (fun _ => .inr rfl)
    (fun _ => .inr rfl) (asked_keep (by simp [hpc]) fun sig hends hin => hin.imp_right fun hin => ?_)
  rw [hpc] at hin
  refine (List.mem_cons.mp hin).resolve_left ?_
  rintro rfl
  cases hends

/-- `waitpid` finds no child. -/
theorem Ok.end_reap {sigs : List Signal} {events : List ParentFd} (h : Ok s)
    (hpc : s.parent.pc = .reap sigs events) (hno : ∀ i, (s.child i).pc ≠ .zombie) :
    Ok { s with parent := { s.parent with pc := .check sigs events } } :=
  h.parent_turn (by rw [hpc]; rfl) rfl (by rw [hpc]; rfl) (fun _ => rfl) nofun
    (fun hin => by rw [hpc] at hin; exact .inl hin) (fun _ => .inl hno)
    (asked_keep (by simp [hpc]) fun sig _ hin => by rw [hpc] at hin; exact hin)

/-- The parent tests whether all children are reaped. -/
theorem Ok.check {sigs : List Signal} {events : List ParentFd} {stop : Bool} (h : Ok s)
    (hpc : s.parent.pc = .check sigs events)
    (hstop : stop = true ↔ ∀ i, (s.child i).pc = .reaped) :
    Ok { s with parent := { s.parent with pc := .signals sigs events, stop } } := by
  have hpiped := h.parent.piped
  rw [hpc] at hpiped
  have hset := h.parent.four_le (by simp [hpc]) (by simp [hpc])
  refine h.parent_move
    (.of_busy (hpiped.of_eq rfl rfl (fun hs => hstop.mpr (h.stop hs)) (.inr id)) hset rfl) id hstop.mp
    (fun hall => .inl (hstop.mpr hall)) nofun ?_ (by simp [hpc, ParentPc.reaping])
    (asked_keep (by simp [hpc]) fun sig _ hin => by rw [hpc] at hin; exact hin)
  rintro (hcoming | hr)
  · rw [hpc] at hcoming
    exact .inr (.inl hcoming)
  · simp [hpc, ParentPc.reaping] at hr

/-- The loop over `sub_process` finds no child, and the parent is to end. -/
theorem Ok.none_running {events : List ParentFd} (h : Ok s)
    (hpc : s.parent.pc = .dispatch (.listenfd :: events)) (hall : ∀ i, (s.child i).pc = .reaped) :
    Ok { s with parent := { s.parent with pc := .dispatch [], stop := true } } := by
  have hpiped := h.parent.piped
  rw [hpc] at hpiped
  have hset := h.parent.four_le (by simp [hpc]) (by simp [hpc])
  exact h.parent_move (.of_busy (hpiped.of_eq rfl rfl (fun _ => rfl) (.inl rfl)) hset rfl) id
    (fun _ => hall) (fun _ => .inl rfl) nofun (fun _ => .inl fun i => by simp [hall i])
    (by simp [hpc, ParentPc.reaping]) fun _ =>
      .inr (.inl fun i => .inl (by simp [hall i, ChildPc.alive]))

/-- The parent has sent to a child, and goes on. -/
theorem Ok.served [NeZero n] {events : List ParentFd} (h : Ok s)
    (hpc : s.parent.pc = .dispatch (.listenfd :: events)) : Ok ((s.send i).served events) := by
  have hsend : (s.send i).parent.pc = s.parent.pc := State.send_pc
  have h' : Ok (s.send i) := h.send
  generalize s.send i = u at hsend h'
  rw [hpc] at hsend
  have hpiped := h'.parent.piped
  have hset := h'.parent.four_le (by simp [hsend]) (by simp [hsend])
  rw [hsend] at hpiped
  have hgoto : Ok { u with parent := { u.parent with pc := .dispatch events } } :=
    h'.parent_goto (.of_busy (hpiped.of_eq rfl rfl id (.inr (by simp [ParentPc.events]))) hset rfl)
      (by simp [hsend, ParentPc.plain]) rfl le_rfl rfl rfl (by simp [hsend, ParentPc.sigs])
  exact hgoto.setRequests _

/-- A step of the parent keeps the invariant. -/
theorem ok_parent [NeZero n] (h : Ok s) (hst : parentNext s = some s') : Ok s' := by
  have hp := h.parent
  have hpiped := hp.piped
  have hset := hp.four_le
  cases hpc : s.parent.pc with
  | setup =>
    simp only [parentNext, hpc] at hst
    rw [hpc] at hpiped
    split at hst
    case isTrue hlt =>
      cases hst
      exact h.parent_goto ⟨hpiped.of_eq rfl rfl id (.inr id), fun _ => hp.waits (.inl hpc), nofun,
        nofun, fun _ => .inl rfl⟩
        (by simp [hpc, ParentPc.plain]) rfl (by simp) rfl rfl (by simp [hpc, ParentPc.sigs])
    case isFalse hlt =>
      cases hst
      exact h.parent_goto ⟨hpiped.add rfl rfl rfl, fun _ => hp.waits (.inl hpc), nofun, nofun, fun h' =>
        absurd h' hlt⟩
        (by simp [hpc, ParentPc.plain]) rfl le_rfl rfl rfl (by simp [hpc, ParentPc.sigs])
  | wait =>
    simp only [parentNext, hpc] at hst
    rw [hpc] at hpiped hset
    split at hst
    case isTrue => cases hst
    case isFalse =>
      cases hst
      exact h.parent_goto (.of_busy (hpiped.wait rfl rfl rfl) (hset nofun nofun) rfl)
        (by simp [hpc, ParentPc.plain]) rfl le_rfl rfl rfl (by simp [hpc, ParentPc.sigs])
  | dispatch events =>
    rw [hpc] at hpiped hset
    match events with
    | [] =>
      simp only [parentNext, hpc, Option.some.injEq] at hst
      cases hst
      have hearly {Q : Prop} (hlt : s.parent.installed < 4) : Q :=
        absurd hlt (not_lt.mpr (hset nofun nofun))
      cases hstop : s.parent.stop with
      | true =>
        exact h.parent_goto
          ⟨hpiped.of_eq rfl rfl (fun _ => rfl) (.inr id), nofun, fun _ => rfl, nofun, hearly⟩
          (by simp [hpc, ParentPc.plain]) rfl le_rfl hstop.symm rfl (by simp [hpc, ParentPc.sigs])
      | false =>
        exact h.parent_goto
          ⟨hpiped.of_eq rfl rfl hstop.symm.trans (.inr id), fun _ => rfl, nofun, nofun, hearly⟩
          (by simp [hpc, ParentPc.plain]) rfl le_rfl hstop.symm rfl (by simp [hpc, ParentPc.sigs])
    | .listenfd :: events =>
      simp only [parentNext, hpc] at hst
      split at hst
      case h_2 =>
        cases hst
        exact h.served hpc
      case h_1 hno =>
        cases hst
        exact h.none_running hpc (h.runningChild_eq_none.mp hno)
    | .sigPipefd :: events =>
      simp only [parentNext, hpc] at hst
      cases hst
      have hall : s.parent.pipe.take maxSignals = s.parent.pipe := List.take_of_length_le hpiped.room
      exact h.parent_goto (.of_busy (hpiped.recv rfl rfl) (hset nofun nofun) rfl)
        (by simp [hpc, ParentPc.plain]) rfl le_rfl rfl rfl
        fun sig _ hin => .inr (by simpa [hpc, ParentPc.sigs, hall] using hin)
  | signals sigs events =>
    rw [hpc] at hpiped hset
    match sigs with
    | [] =>
      cases hst.symm.trans (by rw [parentNext, hpc])
      exact h.parent_goto (.of_busy (hpiped.of_eq rfl rfl id (.inr id)) (hset nofun nofun) rfl)
        (by simp [hpc, ParentPc.plain]) rfl le_rfl rfl rfl (by simp [hpc, ParentPc.sigs])
    | .sigpipe :: sigs =>
      cases hst.symm.trans (by rw [parentNext, hpc])
      exact h.parent_goto (.of_busy (hpiped.of_eq rfl rfl id (.inr id)) (hset nofun nofun) rfl)
        (by simp [hpc, ParentPc.plain]) rfl le_rfl rfl rfl (by simp +contextual [hpc, ParentPc.sigs])
    | .sigchld :: sigs =>
      cases hst.symm.trans (by rw [parentNext, hpc])
      exact h.start_reap hpc
    | .sigterm :: sigs =>
      cases hst.symm.trans (by rw [parentNext, hpc])
      exact h.start_kill hpc rfl
    | .sigint :: sigs =>
      cases hst.symm.trans (by rw [parentNext, hpc])
      exact h.start_kill hpc rfl
  | kill k sig sigs events =>
    simp only [parentNext, hpc] at hst
    split at hst
    case isTrue hlt =>
      split at hst
      case isTrue =>
        cases hst
        have hk : Ok (s.kill ⟨k, hlt⟩ sig) := h.kill_child
        refine hk.next_kill hpc fun i hi => ?_
        obtain rfl : i = ⟨k, hlt⟩ := Fin.ext hi
        have hself : (s.kill ⟨k, hlt⟩ sig).child ⟨k, hlt⟩ = (s.child ⟨k, hlt⟩).raise sig :=
          Function.update_self ..
        rw [hself]
        exact Told.raise (h.kill k sig sigs events hpc)
      case isFalse hreaped =>
        cases hst
        refine h.next_kill hpc fun i hi => .inl ?_
        obtain rfl : i = ⟨k, hlt⟩ := Fin.ext hi
        rw [(h.running _).mp (by simpa using hreaped)]
        rfl
    case isFalse hge =>
      cases hst
      exact h.end_kill hpc (not_lt.mp hge)
  | reap sigs events =>
    simp only [parentNext, hpc] at hst
    split at hst
    case isTrue => cases hst
    case isFalse hno =>
      cases hst
      exact h.end_reap hpc (by simpa using hno)
  | check sigs events =>
    simp only [parentNext, hpc] at hst
    cases hst
    exact h.check hpc (by rw [Bool.not_eq_true', h.any_running])
  | exited => simp [parentNext, hpc] at hst
  | killed => simp [parentNext, hpc] at hst

/-- A child dies: the parent is sent `SIGCHLD`, or ignores it. -/
theorem Ok.exits (h : Ok s) (halive : (s.child i).pc.alive = true) : Ok (s.exits i) := by
  have hparent : ParentOk (s.parent.raise .sigchld) := h.raise_parent.parent
  have hother : ∀ j, j ≠ i → (s.exits i).child j = s.child j :=
    fun j hne => Function.update_of_ne hne ..
  have hself : ((s.exits i).child i).pc = .zombie := by simp [State.exits, State.setChild]
  have hne : (s.child i).pc ≠ .reaped := by
    intro hpc
    simp [hpc, ChildPc.alive] at halive
  have hnotall : ¬ ∀ j, ((s.exits i).child j).pc = .reaped :=
    fun hall => absurd (hself.symm.trans (hall i)) nofun
  constructor
  case parent => exact hparent
  case child =>
    intro j
    by_cases hj : j = i
    · subst hj; simp [hself, ChildPc.alive]
    · rw [hother j hj]; exact h.child j
  case running =>
    intro j
    by_cases hj : j = i
    · subst hj
      rw [hself]
      simpa [State.exits, State.setChild, hne] using (h.running j)
    · rw [hother j hj]; exact h.running j
  case early =>
    intro he j
    by_cases hj : j = i
    · subst hj; simp [hself]
    · rw [hother j hj]; exact h.early (by simpa [State.exits] using he) j
  case stop => exact fun hs => absurd (h.stop (by simpa [State.exits] using hs) i) hne
  case last => exact fun hall => absurd hall hnotall
  case kill => simpa [State.exits] using h.kill
  case chld =>
    intro j hj hm
    by_cases hji : j = i
    · subst hji
      have hhandles : s.parent.handles .sigchld = true := by simpa [State.exits] using hm
      exact .inl (Process.coming_raise_self fun _ => hhandles)
    · rw [hother j hji] at hj
      have hm' : s.missed j = false := by simpa [State.exits, hji] using hm
      simpa [State.exits] using (h.chld j hj hm').imp_left Process.coming_raise
  case missed =>
    intro j hj hm
    by_cases hji : j = i
    · subst hji
      have hhandles : s.parent.handles .sigchld = false := by simpa [State.exits] using hm
      refine .inl fun k => ?_
      by_cases hk : k = j
      · subst hk; simp [hself]
      · rw [hother k hk]
        have hzero : ¬ 0 < s.parent.installed := of_decide_eq_false hhandles
        exact h.early (by omega) k
    · rw [hother j hji] at hj
      have hm' : s.missed j = true := by simpa [State.exits, hji] using hm
      refine (h.missed j hj hm').imp (fun hno k => ?_) (by simp [State.exits])
      by_cases hk : k = i
      · subst hk; simp [hself]
      · rw [hother k hk]; exact hno k
  case asked =>
    intro ha
    have htold : ∀ j, Told (s.child j) → Told ((s.exits i).child j) := by
      intro j hj
      by_cases hji : j = i
      · subst hji; exact .inl (by simp [hself, ChildPc.alive])
      · rw [hother j hji]; exact hj
    refine (h.asked ha).imp (by simp [Asking, State.exits]) (Or.imp (fun hall j => htold j (hall j)) ?_)
    rintro ⟨k, sig, sigs, events, hpc, hall⟩
    exact ⟨k, sig, sigs, events, by simpa [State.exits] using hpc, fun j hj => htold j (hall j hj)⟩

/-- A child goes on in its loop. -/
theorem Ok.child_goto (h : Ok s) (hc : ChildOk c') (halive : (s.child i).pc.alive = true)
    (halive' : c'.pc.alive = true)
    (hstop : c'.stop = (s.child i).stop) (hpending : c'.pending = (s.child i).pending)
    (hsigs : ∀ sig, sig ∈ (s.child i).pipe ∨ sig ∈ (s.child i).pc.sigs →
      sig ∈ c'.pipe ∨ sig ∈ c'.pc.sigs) :
    Ok (s.setChild i c') := by
  refine h.child_move (fun _ => hc) ?_ ?_ ?_
  · cases hpc : (s.child i).pc <;> cases hpc' : c'.pc <;> simp_all [ChildPc.alive]
  · cases hpc : (s.child i).pc <;> cases hpc' : c'.pc <;> simp_all [ChildPc.alive]
  · rintro (hdead | hstops | ⟨sig, hends, hcoming⟩)
    · simp [halive] at hdead
    · exact .inr (.inl (hstop.trans hstops))
    · exact .inr (.inr ⟨sig, hends, hcoming.imp (by rw [hpending]; exact id) (hsigs sig)⟩)

/-- A step of a child keeps the invariant. -/
theorem ok_child (h : Ok s) (hst : childNext s i = some s') : Ok s' := by
  have hc := h.child i
  cases hpc : (s.child i).pc with
  | setup =>
    obtain ⟨hpiped, hwaits⟩ := hc (by simp [hpc, ChildPc.alive])
    rw [hpc] at hpiped
    simp only [childNext, hpc] at hst
    split at hst
    · cases hst
      exact h.child_goto ⟨hpiped.of_eq rfl rfl id (.inr id), fun _ => hwaits (.inl hpc)⟩
        (by simp [hpc, ChildPc.alive]) rfl rfl rfl (by simp [hpc, ChildPc.sigs])
    · cases hst
      exact h.child_goto ⟨hpiped.add rfl rfl rfl, fun _ => hwaits (.inl hpc)⟩
        (by simp [hpc, ChildPc.alive]) rfl rfl rfl (by simp [hpc, ChildPc.sigs])
  | wait =>
    obtain ⟨hpiped, hwaits⟩ := hc (by simp [hpc, ChildPc.alive])
    rw [hpc] at hpiped
    simp only [childNext, hpc] at hst
    split at hst
    · cases hst
    · cases hst
      exact h.child_goto ⟨hpiped.wait rfl rfl rfl, nofun⟩
        (by simp [hpc, ChildPc.alive]) rfl rfl rfl (by simp [hpc, ChildPc.sigs])
  | dispatch events =>
    obtain ⟨hpiped, hwaits⟩ := hc (by simp [hpc, ChildPc.alive])
    rw [hpc] at hpiped
    match events with
    | [] =>
      simp only [childNext, hpc] at hst
      split at hst
      case isTrue =>
        cases hst
        exact h.exits (by simp [hpc, ChildPc.alive])
      case isFalse hstop =>
        cases hst
        exact h.child_goto ⟨hpiped.of_eq rfl rfl id (.inr id), fun _ => by simpa using hstop⟩
          (by simp [hpc, ChildPc.alive]) rfl rfl rfl (by simp [hpc, ChildPc.sigs])
    | .sigPipefd :: events =>
      cases hst.symm.trans (by rw [childNext, hpc])
      have hall : (s.child i).pipe.take maxSignals = (s.child i).pipe :=
        List.take_of_length_le hpiped.room
      exact h.child_goto ⟨hpiped.recv rfl rfl, nofun⟩ (by simp [hpc, ChildPc.alive]) rfl rfl rfl
        fun sig hin => .inr (by simpa [hpc, ChildPc.sigs, hall] using hin)
    | .pipefd :: events => simp [childNext, hpc] at hst
    | .connfd conn :: events =>
      cases hst.symm.trans (by rw [childNext, hpc])
      exact h.child_goto ⟨hpiped.of_eq rfl rfl id (.inr (by simp [ChildPc.events])), nofun⟩
        (by simp [hpc, ChildPc.alive]) rfl rfl rfl (by simp [hpc, ChildPc.sigs])
  | signals sigs events =>
    obtain ⟨hpiped, hwaits⟩ := hc (by simp [hpc, ChildPc.alive])
    rw [hpc] at hpiped
    match sigs with
    | [] =>
      cases hst.symm.trans (by rw [childNext, hpc])
      exact h.child_goto ⟨hpiped.of_eq rfl rfl id (.inr id), nofun⟩
        (by simp [hpc, ChildPc.alive]) rfl rfl rfl (by simp [hpc, ChildPc.sigs])
    | sig :: sigs =>
      cases hst.symm.trans (by rw [childNext, hpc])
      refine h.child_move (fun _ => ⟨hpiped.of_eq rfl rfl (fun hs => by simp [hs]) (.inr id), nofun⟩)
        (by simp [hpc]) (by simp [hpc]) ?_
      rintro (hdead | hstops | ⟨sig', hends, hcoming⟩)
      · simp [hpc, ChildPc.alive] at hdead
      · exact .inr (.inl (by simp [hstops]))
      · rw [hpc] at hcoming
        by_cases heq : sig' = sig
        · subst heq
          exact .inr (.inl (by simp [hends]))
        · exact .inr (.inr ⟨sig', hends, hcoming.imp_right (Or.imp_right fun hin =>
            (List.mem_cons.mp hin).resolve_left heq)⟩)
  | zombie => simp [childNext, hpc] at hst
  | reaped => simp [childNext, hpc] at hst

/-- A child has called `accept`. -/
theorem ok_accept {conn : Option (ℕ × Bool)} (h : Ok s)
    (hst : acceptNext s i conn = some s') : Ok s' := by
  simp only [acceptNext] at hst
  split at hst
  case h_2 => cases hst
  case h_1 events hpc =>
    cases hst
    have hpiped := (h.child i (by simp [hpc, ChildPc.alive])).piped
    rw [hpc] at hpiped
    have hnext : Piped .sigPipefd { s.child i with pc := ChildPc.dispatch events } events :=
      hpiped.of_eq rfl rfl id (.inr (by simp [ChildPc.events]))
    refine h.child_goto ⟨?_, nofun⟩ (by simp [hpc, ChildPc.alive]) rfl rfl rfl
      (by simp [hpc, ChildPc.sigs])
    cases conn with
    | none => exact hnext
    | some conn => exact hnext.add rfl rfl rfl

/-- `waitpid` returns a child. -/
theorem ok_reap (h : Ok s) (hst : reapNext s i = some s') : Ok s' := by
  simp only [reapNext] at hst
  split at hst
  case h_2 => cases hst
  case h_1 sigs events hpc =>
    split at hst
    case isFalse => cases hst
    case isTrue hzombie =>
      cases hst
      have hother : ∀ j, j ≠ i →
          Function.update s.child i { s.child i with pc := .reaped } j = s.child j :=
        fun j hne => Function.update_of_ne hne ..
      have hreaping : s.parent.pc.reaping = true := by rw [hpc]; rfl
      constructor
      case parent => exact h.parent
      case child =>
        intro j halive
        by_cases hj : j = i
        · subst hj; simp [State.setChild, ChildPc.alive] at halive
        · simp only [State.setChild, hother j hj] at halive ⊢
          exact h.child j halive
      case running =>
        intro j
        by_cases hj : j = i
        · subst hj; simp [State.setChild]
        · simpa [State.setChild, hj] using h.running j
      case early => exact fun he => absurd (h.parent.installed he) (by simp [hpc])
      case stop => exact fun hs => absurd ((h.stop hs i).symm.trans hzombie) nofun
      case last => exact fun _ => .inr (by simp [State.setChild, hpc, ParentPc.testing])
      case kill => exact h.kill
      case chld => exact fun _ _ _ => .inr hreaping
      case missed => exact fun _ _ _ => .inr hreaping
      case asked =>
        have htold : ∀ j, Told (s.child j) →
            Told (Function.update s.child i { s.child i with pc := .reaped } j) := by
          intro j hj
          by_cases hji : j = i
          · subst hji; exact .inl (by simp [ChildPc.alive])
          · rw [hother j hji]; exact hj
        refine fun ha => (h.asked ha).imp_right (Or.imp (fun hall j => htold j (hall j)) ?_)
        rintro ⟨k, sig, sigs', events', hpc', -⟩
        exact absurd (hpc.symm.trans hpc') nofun

/-- A signal that is delivered to the parent and not lost. -/
theorem ok_deliver (h : Ok s) (hkept : Kept s (.deliver sig sent))
    (hst : deliverNext s sig sent = some s') :
    Ok s' := by
  obtain ⟨rfl, hroom⟩ := hkept
  have hp := h.parent
  simp only [deliverNext] at hst
  split at hst
  case isFalse => cases hst
  case isTrue hpending =>
    split at hst
    case isTrue =>
      cases hst
      have hmove : Ok { s with parent := s.parent.sigHandler .sigPipefd sig true } := by
        refine h.parent_move
          ⟨hp.piped.sigHandler hroom, hp.waits, hp.exited, hp.killed,
            hp.installed⟩ id h.stop h.last h.kill
          ?_ .inr ?_
        · exact fun hc => .inr (hc.imp_left Process.coming_sigHandler)
        · rintro (⟨sig', hends, hin⟩ | hall | htelling)
          · exact .inl ⟨sig', hends, hin.imp_left fun hin => List.mem_append_left _ hin⟩
          · exact .inr (.inl hall)
          · exact .inr (.inr htelling)
      refine ⟨hmove.parent, hmove.child, hmove.running, hmove.early, hmove.stop, hmove.last, hmove.kill,
        hmove.chld, hmove.missed, fun ha => ?_⟩
      rcases Bool.or_eq_true_iff.mp ha with ha | hends
      · exact hmove.asked ha
      · exact .inl ⟨sig, hends, .inl (List.mem_append_right _ (List.mem_singleton_self sig))⟩
    case isFalse hno =>
      cases hst
      have hearly : s.parent.installed < 4 := by
        have hplace : ¬ sig.place < s.parent.installed := by simpa [Process.handles] using hno
        cases sig <;> simp only [Signal.place] at hplace <;> omega
      have hpc : s.parent.pc = .setup :=
        (hp.installed hearly).resolve_right fun hk => by simp [hk, ParentPc.alive] at hpending
      have hpiped := hp.piped
      rw [hpc] at hpiped
      refine h.parent_move
        ⟨hpiped.of_eq rfl rfl id (.inr id), nofun, nofun, fun _ => hearly, fun _ => .inr rfl⟩ id h.stop
        ?_ nofun ?_ (by simp [hpc, ParentPc.reaping]) ?_
      · exact fun hall => .inl ((h.last hall).resolve_right (by simp [hpc, ParentPc.testing]))
      · rintro (hcoming | hr)
        · rw [hpc] at hcoming
          exact .inr (.inl hcoming)
        · simp [hpc, ParentPc.reaping] at hr
      · exact asked_keep (by simp [hpc]) fun sig' _ hin => by rw [hpc] at hin; exact hin

/-- A signal that is delivered to a child and not lost. -/
theorem ok_deliverChild (h : Ok s) (hkept : Kept s (.deliverChild i sig sent))
    (hst : deliverChildNext s i sig sent = some s') : Ok s' := by
  obtain ⟨rfl, hroom⟩ := hkept
  simp only [deliverChildNext] at hst
  split at hst
  case isFalse => cases hst
  case isTrue hpending =>
    obtain ⟨hpiped, hwaits⟩ := h.child i hpending.2
    split at hst
    case isTrue =>
      cases hst
      exact h.child_move (fun _ => ⟨hpiped.sigHandler hroom, hwaits⟩) .rfl .rfl
        fun ht => ht.mono rfl rfl fun _ => Process.coming_sigHandler
    case isFalse =>
      cases hst
      exact h.exits hpending.2

/-- Every step in which no signal is lost keeps the invariant. -/
theorem ok_step [NeZero n] (h : Ok s) (hst : Guarded Step Kept s l s') : Ok s' := by
  obtain ⟨hst, hkept⟩ := hst
  cases l with
  | parent => exact ok_parent h hst
  | child i => exact ok_child h hst
  | accept i conn => exact ok_accept h hst
  | reap i => exact ok_reap h hst
  | deliver sig sent => exact ok_deliver h hkept hst
  | deliverChild i sig sent => exact ok_deliverChild h hkept hst
  | signal sig =>
    cases hst
    exact h.raise_parent
  | signalChild i sig =>
    cases hst
    exact h.kill_child
  | connect =>
    cases hst
    have hp := h.parent
    have hmove : Ok { s with parent := s.parent.notify .listenfd } :=
      h.parent_move ⟨hp.piped.notify, hp.waits, hp.exited, hp.killed, hp.installed⟩ id h.stop h.last
        h.kill .inr .inr id
    exact hmove.setRequests _
  | event i fd =>
    cases hst
    exact h.notify_child
  | die i =>
    simp only [Step, next] at hst
    split at hst
    case isTrue halive =>
      cases hst
      exact h.exits halive
    case isFalse => cases hst

/-- The invariant holds at first. -/
theorem ok_init [NeZero n] : Ok (init n) := by
  have hpiped {D P : Type} [DecidableEq D] {fd : D} {pc : P} : Piped fd (Process.create fd pc) [] :=
    ⟨by simp [Process.create], Nat.zero_le _, fun h => absurd rfl h⟩
  refine ⟨⟨hpiped, fun _ => rfl, nofun, nofun, fun _ => .inl rfl⟩, fun i _ => ⟨hpiped, fun _ => rfl⟩,
    ?_, ?_, nofun, fun hall => ?_, nofun, nofun, nofun, nofun⟩
  · exact fun i => by simp [init, Process.create]
  · exact fun _ i => by simp [init, Process.create]
  · exact absurd (hall 0) (by simp [init, Process.create])

/-- Every state of a run in which no signal is lost satisfies the invariant. -/
theorem ok_of_run [NeZero n] {ls : List (Label n)}
    (hrun : Run (Guarded Step Kept) (init n) ls s) : Ok s :=
  hrun.invariant (I := Ok) (fun _ _ _ => ok_step) ok_init

end Shutdown

end Ulsp
