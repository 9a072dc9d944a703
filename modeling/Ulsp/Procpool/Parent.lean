import Mathlib.Data.Finset.Lattice.Lemmas
import Mathlib.Data.List.Nodup
import Mathlib.Algebra.Order.Ring.Int
import Mathlib.Data.Finset.Basic
import Ulsp.Lib.Fuel
import Ulsp.Lib.Run

/-!
# The parent of the process pool (`ProcessPool::run_parent`, `lib/processpool.hh`)

The parent keeps the pid of each child in `sub_process`, `-1` for a child it has reaped. It hands a
connection event to a child by a search that wraps around from `counter`, and on `SIGCHLD` it calls
`waitpid` until no exited child is left, clears the slots of those it reaped, and tests whether all
slots are clear. Children exit at any time, also between two calls of `waitpid`; what `epoll_wait`
reports and which signals a `recv` takes is arbitrary, so that any number of exits may share one
`SIGCHLD` message. The read of `sub_process[idx]` before the loop, where `idx` is `-1`, is left out:
nothing uses its value.

`parent_bookkeeping` says what this leaves in the slots, in `counter` and in `stop`: a slot is clear
exactly when its child has been reaped (`State.Ok`).
-/

namespace Ulsp

open Lib

namespace RunParent

/-- The descriptors `epoll_wait` may report to the parent. -/
inductive Source where
  | listenfd
  | sigPipefd
  | other
  deriving DecidableEq, Repr

/-- The signals a message of the signal pipe may carry. -/
inductive Signal where
  | sigchld
  | sigterm
  | sigint
  | other
  deriving DecidableEq, Repr

/-- The next step of the parent: `epoll_wait`, the events and the signals still to handle, a call of
`waitpid`, and the test of all slots after the last one. -/
inductive Pc where
  | wait
  | dispatch (events : List Source)
  | signals (sigs : List Signal) (events : List Source)
  | reap (sigs : List Signal) (events : List Source)
  | check (sigs : List Signal) (events : List Source)
  | exited
  deriving DecidableEq, Repr

/-- The parent, the children that run and those that have exited and are not reaped, and the children
that were sent a connection event. `aliveAt` are the children that ran at the last call of
`waitpid`. -/
structure State where
  processNumber : ℕ
  slots : List ℤ
  counter : ℕ
  stop : Bool
  pc : Pc
  sent : List ℕ
  alive : Finset ℤ
  zombie : Finset ℤ
  aliveAt : Finset ℤ

/-- The parent after the constructor, `pids` being the results of `fork`. -/
def init (pids : List ℤ) : State where
  processNumber := pids.length
  slots := pids
  counter := 0
  stop := false
  pc := .wait
  sent := []
  alive := pids.toFinset
  zombie := ∅
  aliveAt := pids.toFinset

/-- The `do` loop of a connection event, for at most `fuel` passes: `j` after it. -/
def search (n : ℕ) (slots : List ℤ) (counter : ℕ) : ℕ → ℕ → Option ℕ
  | 0, _ => none
  | fuel + 1, j => do
    let pid ← slots[j]?
    if pid ≠ -1 then some j
    else
      let j := (j + 1) % n
      if j ≠ counter then search n slots counter fuel j else some j

/-- The loop over `sub_process` that clears the slot of a reaped child. -/
def clearSlot (pid : ℤ) : List ℤ → List ℤ
  | [] => []
  | p :: slots => if p = pid then -1 :: slots else p :: clearSlot pid slots

/-- `stop` after the loop that tests all slots. -/
def allExited : List ℤ → Bool
  | [] => true
  | p :: slots => if p ≠ -1 then false else allExited slots

/-- What happens: a child exits; `epoll_wait` reports events or fails; `recv` takes signals; a call of
`waitpid` returns; or the parent goes on. -/
inductive Label where
  | exit (pid : ℤ)
  | wait (events : List Source)
  | waitFails
  | recv (sigs : List Signal)
  | waitpid (result : ℤ)
  | go
  deriving DecidableEq, Repr

/-- A step of the parent's code other than a system call that reports something. -/
def goNext (s : State) : Option State :=
  match s.pc with
  | .dispatch [] => some { s with pc := if s.stop then .exited else .wait }
  | .dispatch (.listenfd :: events) => do
    let j ← search s.processNumber s.slots s.counter s.processNumber s.counter
    let pid ← s.slots[j]?
    if pid = -1 then some { s with stop := true, pc := .dispatch [] }
    else some { s with
      counter := (s.counter + 1) % s.processNumber
      sent := s.sent ++ [j]
      pc := .dispatch events }
  | .dispatch (.other :: events) => some { s with pc := .dispatch events }
  | .signals [] events => some { s with pc := .dispatch events }
  | .signals (.sigchld :: sigs) events => some { s with pc := .reap sigs events }
  -- `SIGTERM` and `SIGINT` are sent on to the children, which changes no slot
  | .signals (_ :: sigs) events => some { s with pc := .signals sigs events }
  | .check sigs events => some { s with stop := allExited s.slots, pc := .signals sigs events }
  | _ => none

/-- `waitpid(-1, &stat, WNOHANG)` reaps some exited child, or returns `0` while children run, or `-1`
when there is no child. -/
def waitpidNext (s : State) (result : ℤ) (sigs : List Signal) (events : List Source) :
    Option State :=
  if 0 < result then
    if result ∈ s.zombie then
      some { s with
        zombie := s.zombie.erase result
        slots := clearSlot result s.slots
        aliveAt := s.alive }
    else none
  else if s.zombie = ∅ ∧ (result = 0 ∧ s.alive ≠ ∅ ∨ result = -1 ∧ s.alive = ∅) then
    some { s with aliveAt := s.alive, pc := .check sigs events }
  else none

/-- The steps of the parent and its children. -/
def next (s : State) : Label → Option State
  | .exit pid =>
    if pid ∈ s.alive then
      some { s with alive := s.alive.erase pid, zombie := insert pid s.zombie }
    else none
  | .wait events => if s.pc = .wait then some { s with pc := .dispatch events } else none
  | .waitFails => if s.pc = .wait then some { s with pc := .exited } else none
  | .recv sigs =>
    match s.pc with
    | .dispatch (.sigPipefd :: events) => some { s with pc := .signals sigs events }
    | _ => none
  | .waitpid result =>
    match s.pc with
    | .reap sigs events => waitpidNext s result sigs events
    | _ => none
  | .go => goNext s

/-- The step relation. -/
def Step (s : State) (l : Label) (t : State) : Prop := next s l = some t

/-! ## The loops over the slots -/

/-- The slots, when the children in `kept` are not reaped. -/
def slotsOf (pids : List ℤ) (kept : Finset ℤ) : List ℤ :=
  pids.map fun p => if p ∈ kept then p else -1

variable {pids : List ℤ}

section Slots

variable {kept : Finset ℤ} {p : ℤ} {k : ℕ}

theorem slotsOf_getElem? (h : pids[k]? = some p) :
    (slotsOf pids kept)[k]? = some (if p ∈ kept then p else -1) := by
  simp [slotsOf, h]

/-- Clearing the slot of a reaped child leaves the other slots. -/
theorem clearSlot_slotsOf (hnd : pids.Nodup) (hpos : ∀ p ∈ pids, 0 < p) (hp : 0 < p)
    (hk : p ∈ kept) : clearSlot p (slotsOf pids kept) = slotsOf pids (kept.erase p) := by
  induction pids with
  | nil => rfl
  | cons q pids ih =>
    obtain ⟨hq, hnd⟩ := List.nodup_cons.mp hnd
    have ih := ih hnd fun r hr => hpos r (List.mem_cons_of_mem _ hr)
    simp only [slotsOf, List.map_cons, clearSlot] at ih ⊢
    rcases eq_or_ne q p with rfl | hqp
    · -- the slot of the child: it is not found again
      rw [if_pos hk, if_pos rfl, if_neg (Finset.notMem_erase q kept)]
      congr 1
      refine List.map_congr_left ?_
      intro r hr
      have hrq : r ≠ q := fun he => hq (he ▸ hr)
      simp [Finset.mem_erase, hrq]
    · have hne : (if q ∈ kept then q else -1) ≠ p := by
        split <;> omega
      rw [if_neg hne, ih]
      simp [Finset.mem_erase, hqp]

/-- The test of all slots. -/
theorem allExited_iff {slots : List ℤ} : allExited slots = true ↔ ∀ p ∈ slots, p = -1 := by
  induction slots with
  | nil => simp [allExited]
  | cons p slots ih =>
    simp only [allExited, List.forall_mem_cons]
    split
    · simp [*]
    · rename_i hp
      simp [not_not.mp hp, ih]

/-- From the `d`-th slot on, with the slots before it clear, the search ends at the first slot in use, or
back at `counter` when all are clear. -/
theorem search_from {n counter : ℕ} {slots : List ℤ} (hlen : slots.length = n) (hc : counter < n)
    {m d : ℕ} (hd : d + m = n) (hm : 0 < m)
    (hclear : ∀ i < d, slots[(counter + i) % n]? = some (-1)) :
    ∃ j pid, (∀ fuel, m ≤ fuel → search n slots counter fuel ((counter + d) % n) = some j) ∧
      slots[j]? = some pid ∧ (pid = -1 → ∀ i < n, slots[(counter + i) % n]? = some (-1)) ∧
      (pid ≠ -1 → ∃ e, j = (counter + e) % n ∧ ∀ i < e, slots[(counter + i) % n]? = some (-1)) := by
  induction m generalizing d with
  | zero => omega
  | succ m ih =>
    have hlt : (counter + d) % n < slots.length := hlen ▸ Nat.mod_lt _ (by omega)
    obtain ⟨pid, hpid⟩ : ∃ pid, slots[(counter + d) % n]? = some pid :=
      ⟨_, List.getElem?_eq_getElem hlt⟩
    have hfuel : ∀ fuel, m + 1 ≤ fuel → ∃ fuel', fuel = fuel' + 1 ∧ m ≤ fuel' := fun fuel hle =>
      ⟨fuel - 1, by omega, by omega⟩
    rcases eq_or_ne pid (-1) with rfl | hrun
    · have hnext : ((counter + d) % n + 1) % n = (counter + (d + 1)) % n := by
        rw [Nat.mod_add_mod, Nat.add_assoc]
      have hclear' : ∀ i < d + 1, slots[(counter + i) % n]? = some (-1) := fun i hi => by
        rcases Nat.lt_succ_iff_lt_or_eq.mp hi with hi | rfl
        · exact hclear i hi
        · exact hpid
      rcases Nat.eq_zero_or_pos m with rfl | hmpos
      · -- the last slot: the next one is `counter` again
        have hback : (counter + (d + 1)) % n = counter := by
          rw [show d + 1 = n by omega, Nat.add_mod_right, Nat.mod_eq_of_lt hc]
        refine ⟨counter, -1, ?_, ?_, fun _ i hi => hclear' i (by omega), fun hne => absurd rfl hne⟩
        · intro fuel hle
          obtain ⟨fuel', rfl, -⟩ := hfuel fuel hle
          simp [search, hpid, hnext, hback]
        · have := hclear' 0 (by omega)
          rwa [Nat.add_zero, Nat.mod_eq_of_lt hc] at this
      · have hne : (counter + (d + 1)) % n ≠ counter := by
          intro he
          have hd' : d + 1 < n := by omega
          rcases Nat.lt_or_ge (counter + (d + 1)) n with hlt' | hge
          · rw [Nat.mod_eq_of_lt hlt'] at he
            omega
          · rw [Nat.mod_eq_sub_mod hge, Nat.mod_eq_of_lt (by omega)] at he
            omega
        obtain ⟨j, pid, hsearch, hrest⟩ := ih (d := d + 1) (by omega) hmpos hclear'
        refine ⟨j, pid, ?_, hrest⟩
        intro fuel hle
        obtain ⟨fuel', rfl, hle'⟩ := hfuel fuel hle
        simpa [search, hpid, hnext, hne] using hsearch fuel' hle'
    · refine ⟨(counter + d) % n, pid, ?_, hpid, fun he => absurd he hrun, fun _ => ⟨d, rfl, hclear⟩⟩
      intro fuel hle
      obtain ⟨fuel', rfl, -⟩ := hfuel fuel hle
      simp [search, hpid, hrun]

/-- The search ends at the first slot in use, or all are clear. -/
theorem search_spec {n counter : ℕ} {slots : List ℤ} (hlen : slots.length = n) (hc : counter < n) :
    ∃ j pid, (∀ fuel, n ≤ fuel → search n slots counter fuel counter = some j) ∧
      slots[j]? = some pid ∧ (pid = -1 → ∀ p ∈ slots, p = -1) ∧
      (pid ≠ -1 → ∃ e, j = (counter + e) % n ∧ ∀ i < e, slots[(counter + i) % n]? = some (-1)) := by
  obtain ⟨j, pid, hsearch, hj, hall, hfirst⟩ :=
    search_from hlen hc (d := 0) (Nat.zero_add n) (by omega) fun i hi => absurd hi (Nat.not_lt_zero i)
  refine ⟨j, pid, by simpa [Nat.mod_eq_of_lt hc] using hsearch, hj, ?_, hfirst⟩
  intro he p hp
  -- every slot is one of those from `counter` on
  obtain ⟨i, hi⟩ := List.getElem?_of_mem hp
  have hin : i < n := hlen ▸ (List.getElem?_eq_some_iff.mp hi).1
  rcases Nat.lt_or_ge i counter with hlt | hge
  · have hclear := hall he (n - counter + i) (by omega)
    rw [show counter + (n - counter + i) = i + n by omega, Nat.add_mod_right,
      Nat.mod_eq_of_lt hin, hi] at hclear
    exact Option.some.inj hclear
  · have hclear := hall he (i - counter) (by omega)
    rw [Nat.add_sub_cancel' hge, Nat.mod_eq_of_lt hin, hi] at hclear
    exact Option.some.inj hclear

end Slots

/-! ## Runs -/

/-- The children that are not reaped. -/
def State.kept (s : State) : Finset ℤ := s.alive ∪ s.zombie

/-- The invariant, of a pool whose children have the pids `pids`: a slot is clear exactly when its
child has been reaped, and after the last call of `waitpid` the children reaped are those that ran no
longer at that call. -/
structure State.Ok (pids : List ℤ) (s : State) : Prop where
  number : s.processNumber = pids.length
  slots : s.slots = slotsOf pids s.kept
  counter : s.counter < pids.length
  apart : Disjoint s.alive s.zombie
  last : ∀ sigs events, s.pc = .check sigs events → s.kept = s.aliveAt

section Steps

variable {s s' : State} {l : Label}

theorem init_ok (hne : pids ≠ []) : (init pids).Ok pids where
  number := rfl
  slots := by
    have hall : ∀ p ∈ pids, (if p ∈ (init pids).kept then p else -1) = p := fun p hp => by
      simp [State.kept, init, hp]
    show pids = _
    rw [slotsOf, List.map_congr_left hall, List.map_id']
  counter := List.length_pos_iff.mpr hne
  apart := Finset.disjoint_empty_right _
  last := nofun

/-- The slots are as many as the children. -/
theorem State.Ok.length (hs : s.Ok pids) : s.slots.length = pids.length := by
  simp [hs.slots, slotsOf]

/-- A connection event is handed to one child in use, from the slot the search ends at, or stops the
loop. -/
theorem connection_step (hs : s.Ok pids) {events : List Source}
    (hpc : s.pc = .dispatch (.listenfd :: events)) : ∃ s', Step s .go s' ∧ s'.Ok pids ∧
      s'.kept = s.kept ∧ s'.slots = s.slots ∧
      ((∃ p ∈ s.slots, p ≠ -1) → ∃ j pid, s.slots[j]? = some pid ∧ pid ≠ -1 ∧
        s'.sent = s.sent ++ [j] ∧ s'.stop = s.stop ∧ s'.pc = .dispatch events) ∧
      ((∀ p ∈ s.slots, p = -1) → s'.sent = s.sent ∧ s'.stop = true) := by
  have hpos : 0 < pids.length := Nat.zero_lt_of_lt hs.counter
  obtain ⟨j, pid, hsearch, hj, hall, -⟩ := search_spec hs.length hs.counter
  have hrun := hsearch pids.length le_rfl
  rw [← hs.number] at hrun
  have hmem : pid ∈ s.slots := List.mem_of_getElem? hj
  rcases eq_or_ne pid (-1) with rfl | hpid
  · refine ⟨{ s with stop := true, pc := .dispatch [] }, ?_,
      ⟨hs.number, hs.slots, hs.counter, hs.apart, nofun⟩, rfl, rfl, ?_, fun _ => ⟨rfl, rfl⟩⟩
    · simp [Step, next, goNext, hpc, hrun, hj]
    · rintro ⟨p, hp, hne⟩
      exact absurd (hall rfl p hp) hne
  · have hcounter : (s.counter + 1) % s.processNumber < pids.length :=
      hs.number ▸ Nat.mod_lt _ (by rw [hs.number]; exact hpos)
    refine ⟨{ s with
        counter := (s.counter + 1) % s.processNumber
        sent := s.sent ++ [j]
        pc := .dispatch events }, ?_,
      ⟨hs.number, hs.slots, hcounter, hs.apart, nofun⟩, rfl, rfl,
      fun _ => ⟨j, pid, hj, hpid, rfl, rfl, rfl⟩, fun hclear => absurd (hclear pid hmem) hpid⟩
    simp [Step, next, goNext, hpc, hrun, hj, hpid]

/-- A step of the parent's code only moves on, handles a connection event, or tests all slots. -/
theorem go_cases (h : Step s .go s') :
    (∃ pc, s' = { s with pc } ∧ ∀ sigs events, pc ≠ .check sigs events) ∨
    (∃ events, s.pc = .dispatch (.listenfd :: events)) ∨
    ∃ sigs events, s.pc = .check sigs events ∧
      s' = { s with stop := allExited s.slots, pc := .signals sigs events } := by
  have hgo : goNext s = some s' := h
  cases hpc : s.pc with
  | wait => simp [goNext, hpc] at hgo
  | dispatch events =>
    cases events with
    | nil =>
      simp only [goNext, hpc] at hgo
      cases hgo
      refine .inl ⟨_, rfl, ?_⟩
      intro sigs events
      split <;> nofun
    | cons source events =>
      cases source with
      | listenfd => exact .inr (.inl ⟨events, rfl⟩)
      | sigPipefd => simp [goNext, hpc] at hgo
      | other =>
        simp only [goNext, hpc] at hgo
        cases hgo
        exact .inl ⟨_, rfl, nofun⟩
  | signals sigs events =>
    cases sigs with
    | nil =>
      simp only [goNext, hpc] at hgo
      cases hgo
      exact .inl ⟨_, rfl, nofun⟩
    | cons sig sigs =>
      cases sig with
      | _ =>
        simp only [goNext, hpc] at hgo
        cases hgo
        exact .inl ⟨_, rfl, nofun⟩
  | reap sigs events => simp [goNext, hpc] at hgo
  | check sigs events =>
    simp only [goNext, hpc] at hgo
    cases hgo
    exact .inr (.inr ⟨sigs, events, rfl, rfl⟩)
  | exited => simp [goNext, hpc] at hgo

/-- Every step of the parent's code keeps the invariant. -/
theorem ok_go (hs : s.Ok pids) (h : Step s .go s') : s'.Ok pids := by
  rcases go_cases h with ⟨pc, rfl, hpc⟩ | ⟨events, hpc⟩ | ⟨sigs, events, -, rfl⟩
  · exact ⟨hs.number, hs.slots, hs.counter, hs.apart, fun sigs events he =>
      absurd he (hpc sigs events)⟩
  · obtain ⟨t, ht, hok, -⟩ := connection_step hs hpc
    rwa [Option.some.inj (h.symm.trans ht)]
  · exact ⟨hs.number, hs.slots, hs.counter, hs.apart, nofun⟩

/-- A call of `waitpid` that reaps a child clears its slot, and the last one finds no exited child. -/
theorem ok_waitpid (hnd : pids.Nodup) (hpos : ∀ p ∈ pids, 0 < p) (hs : s.Ok pids) {result : ℤ}
    (h : Step s (.waitpid result) s') : s'.Ok pids := by
  simp only [Step, next] at h
  split at h
  · rename_i sigs events hpc
    unfold waitpidNext at h
    split at h
    · rename_i hresult
      split at h
      · rename_i hz
        cases h
        have hnot : result ∉ s.alive := fun ha =>
          Finset.disjoint_left.mp hs.apart ha hz
        have hkept : s.alive ∪ s.zombie.erase result = s.kept.erase result := by
          ext p
          rcases eq_or_ne p result with rfl | hp <;> simp [State.kept, *]
        refine ⟨hs.number, ?_, hs.counter, ?_, ?_⟩
        · show clearSlot result s.slots = slotsOf pids (s.alive ∪ s.zombie.erase result)
          have hmem : result ∈ s.kept := Finset.mem_union_right _ hz
          rw [hs.slots, clearSlot_slotsOf hnd hpos hresult hmem, hkept]
        · exact hs.apart.mono_right (Finset.erase_subset _ _)
        · intro sigs events he
          rw [show s.pc = .check sigs events from he] at hpc
          cases hpc
      · cases h
    · split at h
      · rename_i hlast
        cases h
        refine ⟨hs.number, hs.slots, hs.counter, hs.apart, ?_⟩
        intro _ _ _
        show s.alive ∪ s.zombie = s.alive
        rw [hlast.1, Finset.union_empty]
      · cases h
  · cases h

/-- A child that exits is not reaped yet. -/
theorem exit_kept {pid : ℤ} (h : pid ∈ s.alive) :
    s.alive.erase pid ∪ insert pid s.zombie = s.kept := by
  ext p
  rcases eq_or_ne p pid with rfl | hp <;> simp [State.kept, *]

/-- Every step keeps the invariant. -/
theorem ok_step (hnd : pids.Nodup) (hpos : ∀ p ∈ pids, 0 < p) (hs : s.Ok pids) (h : Step s l s') :
    s'.Ok pids := by
  cases l with
  | exit pid =>
    simp only [Step, next] at h
    split at h
    · rename_i ha
      cases h
      have hkept : s.alive.erase pid ∪ insert pid s.zombie = s.kept := exit_kept ha
      refine ⟨hs.number, ?_, hs.counter, ?_, ?_⟩
      · show s.slots = slotsOf pids (s.alive.erase pid ∪ insert pid s.zombie)
        rw [hkept, hs.slots]
      · rw [Finset.disjoint_insert_right]
        exact ⟨Finset.notMem_erase _ _, hs.apart.mono_left (Finset.erase_subset _ _)⟩
      · intro sigs events he
        exact hkept.trans (hs.last sigs events he)
    · cases h
  | wait events =>
    simp only [Step, next] at h
    split at h
    · cases h
      exact ⟨hs.number, hs.slots, hs.counter, hs.apart, nofun⟩
    · cases h
  | waitFails =>
    simp only [Step, next] at h
    split at h
    · cases h
      exact ⟨hs.number, hs.slots, hs.counter, hs.apart, nofun⟩
    · cases h
  | recv sigs =>
    simp only [Step, next] at h
    split at h
    · cases h
      exact ⟨hs.number, hs.slots, hs.counter, hs.apart, nofun⟩
    · cases h
  | waitpid result => exact ok_waitpid hnd hpos hs h
  | go => exact ok_go hs h

/-- No step other than a connection event and the test of all slots changes `stop`. -/
theorem stop_step (h : Step s l s') (hconn : ∀ events, s.pc ≠ .dispatch (.listenfd :: events))
    (hcheck : ∀ sigs events, s.pc ≠ .check sigs events) : s'.stop = s.stop := by
  cases l with
  | go =>
    rcases go_cases h with ⟨pc, rfl, -⟩ | ⟨events, hpc⟩ | ⟨sigs, events, hpc, -⟩
    · rfl
    · exact absurd hpc (hconn events)
    · exact absurd hpc (hcheck sigs events)
  | exit pid => simp only [Step, next] at h; split at h <;> cases h; rfl
  | wait events => simp only [Step, next] at h; split at h <;> cases h; rfl
  | waitFails => simp only [Step, next] at h; split at h <;> cases h; rfl
  | recv sigs => simp only [Step, next] at h; split at h <;> cases h; rfl
  | waitpid result =>
    simp only [Step, next] at h
    split at h
    · unfold waitpidNext at h
      split at h
      · split at h <;> cases h; rfl
      · split at h <;> cases h; rfl
    · cases h

/-- A reaped child stays so. -/
theorem kept_step (hs : s.Ok pids) (h : Step s l s') : s'.kept ⊆ s.kept := by
  cases l with
  | go =>
    rcases go_cases h with ⟨pc, rfl, -⟩ | ⟨events, hpc⟩ | ⟨sigs, events, hpc, rfl⟩
    · exact Finset.Subset.refl _
    · obtain ⟨t, ht, -, hkept, -⟩ := connection_step hs hpc
      rw [Option.some.inj (h.symm.trans ht), hkept]
    · exact Finset.Subset.refl _
  | exit pid =>
    simp only [Step, next] at h
    split at h
    · rename_i ha
      cases h
      exact (exit_kept ha).subset
    · cases h
  | wait events => simp only [Step, next] at h; split at h <;> cases h; rfl
  | waitFails => simp only [Step, next] at h; split at h <;> cases h; rfl
  | recv sigs => simp only [Step, next] at h; split at h <;> cases h; rfl
  | waitpid result =>
    simp only [Step, next] at h
    split at h
    · unfold waitpidNext at h
      split at h
      · split at h
        · cases h
          exact Finset.union_subset_union_right (Finset.erase_subset _ _)
        · cases h
      · split at h <;> cases h; rfl
    · cases h

/-- Every run keeps the invariant, and a child that is not reaped at its end was not before. -/
theorem ok_run (hnd : pids.Nodup) (hpos : ∀ p ∈ pids, 0 < p) (hs : s.Ok pids) {ls : List Label}
    (h : Run Step s ls s') : s'.Ok pids ∧ s'.kept ⊆ s.kept :=
  h.invariant (I := fun t => t.Ok pids ∧ t.kept ⊆ s.kept)
    (fun _ _ _ ht hstep => ⟨ok_step hnd hpos ht.1 hstep, (kept_step ht.1 hstep).trans ht.2⟩)
    ⟨hs, Finset.Subset.refl _⟩

end Steps

/-- In every run, `counter` stays in range and the search ends. A connection event is sent to exactly
one child, whose slot is in use, when there is one, and else sets `stop`. When the last `waitpid` of a
`SIGCHLD` message has returned, the next step of the parent ends the handling of the message: every
child that did not run any more at that call has been reaped and its slot is clear, every other slot is
as it was in any state before, and `stop` is set exactly when all slots are clear. No other step
changes `stop`. -/
theorem parent_bookkeeping {pids : List ℤ} (hnd : pids.Nodup) (hpos : ∀ p ∈ pids, 0 < p)
    (hne : pids ≠ []) {ls : List Label} {s : State} (h : Run Step (init pids) ls s) :
    s.counter < pids.length ∧
    (∃ j, Returns (fun fuel => search s.processNumber s.slots s.counter fuel s.counter) j) ∧
    (∀ events, s.pc = .dispatch (.listenfd :: events) → ∃ s', Step s .go s' ∧
      s'.slots = s.slots ∧
      ((∃ p ∈ s.slots, p ≠ -1) → ∃ j pid, s.slots[j]? = some pid ∧ pid ≠ -1 ∧
        s'.sent = s.sent ++ [j] ∧ s'.stop = s.stop ∧ s'.pc = .dispatch events) ∧
      ((∀ p ∈ s.slots, p = -1) → s'.sent = s.sent ∧ s'.stop = true)) ∧
    (∀ (ls' : List Label) (t : State) sigs events, Run Step s ls' t → t.pc = .check sigs events →
      ∃ t', Step t .go t' ∧
      (∀ (k : ℕ) (p : ℤ), pids[k]? = some p →
        (p ∉ t'.aliveAt → p ∉ t'.alive ∧ p ∉ t'.zombie ∧ t'.slots[k]? = some (-1)) ∧
        (p ∈ t'.aliveAt → t'.slots[k]? = s.slots[k]?)) ∧
      (t'.stop = true ↔ ∀ p ∈ t'.slots, p = -1)) ∧
    (∀ l s', Step s l s' → (∀ events, s.pc ≠ .dispatch (.listenfd :: events)) →
      (∀ sigs events, s.pc ≠ .check sigs events) → s'.stop = s.stop) := by
  have hs := (ok_run hnd hpos (init_ok hne) h).1
  refine ⟨hs.counter, ?_, ?_, ?_, fun l s' hstep hconn hcheck => stop_step hstep hconn hcheck⟩
  · obtain ⟨j, -, hsearch, -⟩ := search_spec hs.length hs.counter
    exact ⟨j, pids.length, fun fuel hle => by rw [hs.number]; exact hsearch fuel hle⟩
  · intro events hpc
    obtain ⟨s', hstep, -, -, hconn⟩ := connection_step hs hpc
    exact ⟨s', hstep, hconn⟩
  · intro ls' t sigs events hrun hpc
    obtain ⟨ht, hkept⟩ := ok_run hnd hpos hs hrun
    have hlast := ht.last sigs events hpc
    refine ⟨{ t with stop := allExited t.slots, pc := .signals sigs events },
      by simp [Step, next, goNext, hpc], fun k p hk => ⟨?_, ?_⟩, allExited_iff⟩
    · intro hp
      have hnot : p ∉ t.kept := hlast ▸ hp
      refine ⟨fun ha => hnot (Finset.mem_union_left _ ha), fun hz =>
        hnot (Finset.mem_union_right _ hz), ?_⟩
      rw [show t.slots = _ from ht.slots, slotsOf_getElem? hk, if_neg hnot]
    · -- a child that is not reaped now was not before
      intro hp
      have hnow : p ∈ t.kept := hlast ▸ hp
      have hbefore : p ∈ s.kept := hkept hnow
      show t.slots[k]? = _
      rw [ht.slots, hs.slots, slotsOf_getElem? hk, slotsOf_getElem? hk, if_pos hnow, if_pos hbefore]

/-- Three children, of which two exit, one before and one during the handling of a `SIGCHLD`
message. -/
def twoExits : List Label :=
  [.exit 101, .wait [.sigPipefd, .listenfd], .recv [.sigchld], .go, .waitpid 101, .exit 102,
    .waitpid 102, .waitpid 0]

/-- Both are reaped, and the third keeps its slot. -/
theorem parent_bookkeeping_three : ∃ t t', Run Step (init [101, 102, 103]) twoExits t ∧
    Step t .go t' ∧ t'.slots[0]? = some (-1) ∧ t'.slots[1]? = some (-1) ∧
    t'.slots[2]? = some 103 := by
  obtain ⟨t, hrun, hread⟩ : ∃ t, Run Step (init [101, 102, 103]) twoExits t ∧
      (t.pc, t.aliveAt) = (.check [] [.listenfd], {103}) := Run.of_exec_map rfl
  obtain ⟨hpc, halive⟩ := Prod.mk.inj hread
  obtain ⟨t', hstep, hslots, -⟩ := (parent_bookkeeping (by decide : [(101 : ℤ), 102, 103].Nodup)
    (by decide) (by decide) .refl).2.2.2.1 _ t [] [.listenfd] hrun hpc
  have hat : t'.aliveAt = {103} := by
    have hnext : next t .go =
        some { t with stop := allExited t.slots, pc := .signals [] [.listenfd] } := by
      simp [next, goNext, hpc]
    rw [← Option.some.inj (hnext.symm.trans hstep)]
    exact halive
  refine ⟨t, t', hrun, hstep, ?_, ?_, ?_⟩
  · exact ((hslots 0 101 rfl).1 (by rw [hat]; decide)).2.2
  · exact ((hslots 1 102 rfl).1 (by rw [hat]; decide)).2.2
  · exact (hslots 2 103 rfl).2 (by rw [hat]; decide)

end RunParent

end Ulsp
