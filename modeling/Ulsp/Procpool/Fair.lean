import Ulsp.Lib.RoundRobin
import Ulsp.Procpool.Parent

/-!
# Which children the parent sends connections to (`ProcessPool::run_parent`, `lib/processpool.hh`)

For each event of `listenfd` the parent searches a child from `counter` on, and then adds one to
`counter`, whichever child it found. So the children get the turns of the reaped ones before them. In
a window of the run, in which no slot changes, the children whose slots are in use get numbers of
connections that differ by more than one, unless all are in use, or only one is, or every other one
of four (`fair_iff`).
-/

namespace Ulsp

open Lib

namespace RunParent

/-- The slot `j` is in use. -/
def Running (slots : List ℤ) (j : ℕ) : Prop := ∃ pid, slots[j]? = some pid ∧ pid ≠ -1

/-- The child that a connection event is sent to when `counter` is `p`, counted without going back to
0. -/
def firstRunning (slots : List ℤ) (p : ℕ) : ℕ :=
  (search slots.length slots (p % slots.length) slots.length (p % slots.length)).getD 0

/-- The steps of a window, in which the slots do not change. -/
def Window (s : State) (l : Label) (t : State) : Prop := Step s l t ∧ t.slots = s.slots

/-- The children that connection events have been sent to since `s`. -/
def State.handed (s t : State) : List ℕ := t.sent.drop s.sent.length

/-- In every window that begins here, two children whose slots are in use are sent numbers of
connections that differ by one at most. -/
def State.Fair (s : State) : Prop :=
  ∀ ls t, Run Window s ls t → ∀ a b, Running s.slots a → Running s.slots b →
    (s.handed t).count a ≤ (s.handed t).count b + 1

variable {slots : List ℤ} {c p : ℕ}

/-! ## The search -/

theorem running_of_mem {pid : ℤ} (hmem : pid ∈ slots) (hpid : pid ≠ -1) :
    ∃ j < slots.length, Running slots j := by
  obtain ⟨j, hj⟩ := List.getElem?_of_mem hmem
  exact ⟨j, (List.getElem?_eq_some_iff.mp hj).1, pid, hj, hpid⟩

theorem Running.lt {j : ℕ} (h : Running slots j) : j < slots.length := by
  obtain ⟨pid, hpid, -⟩ := h
  exact (List.getElem?_eq_some_iff.mp hpid).1

theorem not_running_of_clear {j : ℕ} (h : slots[j]? = some (-1)) : ¬ Running slots j := by
  rintro ⟨pid, hpid, hne⟩
  exact hne (Option.some.inj (hpid.symm.trans h))

/-- The search finds the first slot in use. -/
theorem search_first (hrun : ∃ p ∈ slots, p ≠ -1) (hc : c < slots.length) : ∃ e,
    search slots.length slots c slots.length c = some ((c + e) % slots.length) ∧
      Running slots ((c + e) % slots.length) ∧
      ∀ i < e, ¬ Running slots ((c + i) % slots.length) := by
  obtain ⟨j, pid, hsearch, hj, hall, hfirst⟩ := search_spec rfl hc
  have hpid : pid ≠ -1 := by
    intro heq
    obtain ⟨p, hp, hne⟩ := hrun
    exact hne (hall heq p hp)
  obtain ⟨e, rfl, hclear⟩ := hfirst hpid
  exact ⟨e, hsearch _ le_rfl, ⟨pid, hj, hpid⟩, fun i hi => not_running_of_clear (hclear i hi)⟩

/-- The search of the parent is one for the first live position on a circle. -/
theorem search_running (hrun : ∃ p ∈ slots, p ≠ -1) :
    Search slots.length (fun p => Running slots (p % slots.length)) (firstRunning slots) where
  pos := by
    obtain ⟨p, hp, -⟩ := hrun
    exact List.length_pos_of_mem hp
  periodic p := by rw [Nat.add_mod_right]
  exists_live := by
    obtain ⟨p, hp, hne⟩ := hrun
    obtain ⟨j, hlt, hj⟩ := running_of_mem hp hne
    exact ⟨j, by rwa [Nat.mod_eq_of_lt hlt]⟩
  here p hp := by
    have hpos : 0 < slots.length := Nat.zero_lt_of_lt hp.lt
    obtain ⟨e, hsearch, -, hclear⟩ := search_first hrun (Nat.mod_lt p hpos)
    rcases e with _ | e
    · rw [firstRunning, hsearch, Nat.add_zero, Nat.mod_mod, Option.getD_some]
    · have hnot := hclear 0 (Nat.succ_pos e)
      rw [Nat.add_zero, Nat.mod_mod] at hnot
      exact absurd hp hnot
  next p hp := by
    have hpos : 0 < slots.length := by
      obtain ⟨q, hq, -⟩ := hrun
      exact List.length_pos_of_mem hq
    obtain ⟨e, hsearch, hlive, hclear⟩ := search_first hrun (Nat.mod_lt p hpos)
    obtain ⟨e', hsearch', hlive', hclear'⟩ := search_first hrun (Nat.mod_lt (p + 1) hpos)
    rw [Nat.mod_add_mod] at hlive hlive'
    simp only [Nat.mod_add_mod] at hclear hclear'
    -- both end at the first slot in use
    have he : e = e' + 1 := by
      rcases Nat.lt_trichotomy e (e' + 1) with hlt | heq | hgt
      · rcases e with _ | e
        · exact absurd hlive hp
        · exact absurd hlive (by rw [Nat.add_comm e 1, ← Nat.add_assoc]; exact hclear' e (by omega))
      · exact heq
      · exact absurd hlive' (by rw [Nat.add_right_comm, Nat.add_assoc]; exact hclear _ hgt)
    rw [firstRunning, firstRunning, hsearch, hsearch', he, Nat.mod_add_mod, Nat.mod_add_mod,
      Nat.add_right_comm, Nat.add_assoc]

/-! ## Windows -/

/-- A connection event is sent to the child that the search finds. -/
theorem go_connection {s : State} {events : List Source} (hn : s.processNumber = s.slots.length)
    (hc : s.counter < s.slots.length) (hrun : ∃ p ∈ s.slots, p ≠ -1)
    (hpc : s.pc = .dispatch (.listenfd :: events)) : next s .go = some { s with
      counter := (s.counter + 1) % s.processNumber
      sent := s.sent ++ [firstRunning s.slots s.counter]
      pc := .dispatch events } := by
  obtain ⟨e, hsearch, ⟨pid, hpid, hne⟩, -⟩ := search_first hrun hc
  simp [next, goNext, hpc, hn, hsearch, hpid, hne, firstRunning, Nat.mod_eq_of_lt hc]

/-- A step of a window handles a connection event, or leaves `counter` and what has been sent. -/
theorem window_step {s t : State} {l : Label} (hn : s.processNumber = s.slots.length)
    (hc : s.counter < s.slots.length) (hrun : ∃ p ∈ s.slots, p ≠ -1) (h : Step s l t) :
    t.processNumber = s.processNumber ∧ (t.sent = s.sent ∧ t.counter = s.counter ∨
      t.sent = s.sent ++ [firstRunning s.slots s.counter] ∧
        t.counter = (s.counter + 1) % s.processNumber) := by
  cases l with
  | go =>
    rcases go_cases h with ⟨pc, rfl, -⟩ | ⟨events, hpc⟩ | ⟨sigs, events, hpc, rfl⟩
    · exact ⟨rfl, .inl ⟨rfl, rfl⟩⟩
    · obtain rfl := Option.some.inj ((go_connection hn hc hrun hpc).symm.trans h)
      exact ⟨rfl, .inr ⟨rfl, rfl⟩⟩
    · exact ⟨rfl, .inl ⟨rfl, rfl⟩⟩
  | exit pid => simp only [Step, next] at h; split at h <;> cases h; exact ⟨rfl, .inl ⟨rfl, rfl⟩⟩
  | wait events => simp only [Step, next] at h; split at h <;> cases h; exact ⟨rfl, .inl ⟨rfl, rfl⟩⟩
  | waitFails => simp only [Step, next] at h; split at h <;> cases h; exact ⟨rfl, .inl ⟨rfl, rfl⟩⟩
  | recv sigs => simp only [Step, next] at h; split at h <;> cases h; exact ⟨rfl, .inl ⟨rfl, rfl⟩⟩
  | waitpid result =>
    simp only [Step, next] at h
    split at h
    · unfold waitpidNext at h
      split at h
      · split at h <;> cases h; exact ⟨rfl, .inl ⟨rfl, rfl⟩⟩
      · split at h <;> cases h; exact ⟨rfl, .inl ⟨rfl, rfl⟩⟩
    · cases h

/-- The children that `k` connection events are sent to. -/
def dealt (slots : List ℤ) (counter k : ℕ) : List ℕ :=
  (List.range k).map fun i => firstRunning slots (counter + i)

/-- In a window, the children are those that the searches from `counter` on find. -/
theorem window_run {s t : State} {ls : List Label} (hn : s.processNumber = s.slots.length)
    (hc : s.counter < s.slots.length) (hrun : ∃ p ∈ s.slots, p ≠ -1) (h : Run Window s ls t) :
    ∃ k, t.processNumber = s.processNumber ∧ t.slots = s.slots ∧
      t.sent = s.sent ++ dealt s.slots s.counter k ∧
      t.counter = (s.counter + k) % s.slots.length := by
  refine h.invariant (I := fun t => ∃ k, t.processNumber = s.processNumber ∧ t.slots = s.slots ∧
    t.sent = s.sent ++ dealt s.slots s.counter k ∧ t.counter = (s.counter + k) % s.slots.length)
    ?_ ⟨0, rfl, rfl, (List.append_nil _).symm, (Nat.mod_eq_of_lt hc).symm⟩
  rintro u l v ⟨k, hnum, hslots, hsent, hcounter⟩ ⟨hstep, hkeep⟩
  have hlt : u.counter < u.slots.length := by
    rw [hcounter, hslots]
    exact Nat.mod_lt _ (by omega)
  obtain ⟨hnum', ⟨hsent', hcounter'⟩ | ⟨hsent', hcounter'⟩⟩ :=
    window_step (by rw [hnum, hn, hslots]) hlt (by rwa [hslots]) hstep
  · exact ⟨k, hnum'.trans hnum, hkeep.trans hslots, hsent'.trans hsent, hcounter'.trans hcounter⟩
  · refine ⟨k + 1, hnum'.trans hnum, hkeep.trans hslots, ?_, ?_⟩
    · have hfirst : firstRunning s.slots ((s.counter + k) % s.slots.length) =
          firstRunning s.slots (s.counter + k) := by
        rw [firstRunning, firstRunning, Nat.mod_mod]
      rw [hsent', hsent, hslots, hcounter, hfirst, dealt, dealt, List.range_succ, List.map_append,
        List.append_assoc]
      rfl
    · rw [hcounter', hcounter, hnum, hn, Nat.mod_add_mod, Nat.add_assoc]

/-- The parent after a connection event that it was woken up for. -/
def State.served (s : State) : State :=
  { s with
    counter := (s.counter + 1) % s.processNumber
    sent := s.sent ++ [firstRunning s.slots s.counter] }

/-- A connection event that the parent waits for, which `epoll_wait` reports alone. -/
theorem one_connection {s : State} (hn : s.processNumber = s.slots.length)
    (hc : s.counter < s.slots.length) (hrun : ∃ p ∈ s.slots, p ≠ -1) (hpc : s.pc = .wait)
    (hstop : s.stop = false) : Run Window s [.wait [.listenfd], .go, .go] s.served := by
  let s₁ : State := { s with pc := .dispatch [.listenfd] }
  let s₂ : State := { s.served with pc := .dispatch [] }
  have hwait : Window s (.wait [.listenfd]) s₁ := ⟨by simp [Step, next, hpc, s₁], rfl⟩
  have hgo : Window s₁ .go s₂ := ⟨go_connection (s := s₁) hn hc hrun rfl, rfl⟩
  have hback : Window s₂ .go s.served := by
    refine ⟨?_, rfl⟩
    simp [Step, next, goNext, s₂, State.served, hstop, hpc]
  exact ((Run.single hwait).tail hgo).tail hback

/-- There are windows with any number of connection events. -/
theorem exists_window {s : State} (k : ℕ) (hn : s.processNumber = s.slots.length)
    (hc : s.counter < s.slots.length) (hrun : ∃ p ∈ s.slots, p ≠ -1) (hpc : s.pc = .wait)
    (hstop : s.stop = false) : ∃ ls t, Run Window s ls t ∧ t.sent.length = s.sent.length + k := by
  induction k generalizing s with
  | zero => exact ⟨[], s, .refl, rfl⟩
  | succ k ih =>
    have hlt : s.served.counter < s.slots.length := by
      rw [State.served, hn]
      exact Nat.mod_lt _ (by omega)
    obtain ⟨ls, t, hrest, hlen⟩ := ih (s := s.served) hn hlt hrun hpc hstop
    refine ⟨_, t, (one_connection hn hc hrun hpc hstop).append hrest, ?_⟩
    rw [hlen, State.served, List.length_append, List.length_singleton]
    omega

theorem count_dealt (a k : ℕ) :
    (dealt slots c k).count a = turns (firstRunning slots) c a k := by
  induction k with
  | zero => rfl
  | succ k ih =>
    rw [turns_succ, ← ih, dealt, dealt, List.range_succ, List.map_append, List.count_append,
      List.map_singleton, List.count_singleton]
    simp only [beq_iff_eq]

/-- All children are in use, or a single one, or every other one of four from `counter` on. -/
def Evenly (slots : List ℤ) (counter : ℕ) : Prop :=
  (∀ p ∈ slots, p ≠ -1) ∨ (∀ a b, Running slots a → Running slots b → a = b) ∨
    slots.length = 4 ∧ ∀ i < 4, Running slots ((counter + i) % 4) ↔ i % 2 = 0

theorem evenly_iff (hrun : ∃ p ∈ slots, p ≠ -1) :
    Evenly slots c ↔ Balanced slots.length (fun p => Running slots (p % slots.length))
      (firstRunning slots) c := by
  have hpos : 0 < slots.length := (search_running hrun).pos
  rw [(search_running hrun).balanced_iff, Evenly]
  refine or_congr ⟨?_, ?_⟩ (or_congr ⟨?_, ?_⟩ (and_congr_right fun hn => ⟨?_, ?_⟩))
  · intro hall p
    have hat := List.getElem?_eq_getElem (Nat.mod_lt p hpos)
    exact ⟨_, hat, hall _ (List.mem_of_getElem? hat)⟩
  · intro hall p hp
    obtain ⟨j, hj⟩ := List.getElem?_of_mem hp
    have hlt := (List.getElem?_eq_some_iff.mp hj).1
    obtain ⟨pid, hpid, hne⟩ := hall j
    rw [Nat.mod_eq_of_lt hlt] at hpid
    exact Option.some.inj (hpid.symm.trans hj) ▸ hne
  · intro hone a b ha hb halive hblive
    rw [Nat.mod_eq_of_lt ha] at halive
    rw [Nat.mod_eq_of_lt hb] at hblive
    exact hone a b halive hblive
  · intro hone a b ha hb
    exact hone a b ha.lt hb.lt (by rwa [Nat.mod_eq_of_lt ha.lt]) (by rwa [Nat.mod_eq_of_lt hb.lt])
  · intro heven i
    have hi := heven (i % 4) (Nat.mod_lt i (by decide))
    rw [Nat.add_mod_mod, Nat.mod_mod_of_dvd i (by decide)] at hi
    rwa [hn]
  · intro heven i _
    have hi := heven i
    rwa [hn] at hi

/-- For all numbers of children, all sets of slots in use but the empty one, and all values of
`counter`: the connections of every window that begins so, with any number of connection events, are
dealt fairly exactly if the slots in use are evenly spread. -/
theorem fair_iff {counter : ℕ} (hcounter : counter < slots.length) (hrun : ∃ p ∈ slots, p ≠ -1) :
    (∀ s : State, s.slots = slots → s.processNumber = slots.length → s.counter = counter → s.Fair) ↔
      Evenly slots counter := by
  rw [evenly_iff hrun]
  refine ⟨?_, ?_⟩
  · intro hfair a b k ha hb halive hblive
    -- a window of `k` connection events
    let s : State := ⟨slots.length, slots, counter, false, .wait, [], ∅, ∅, ∅⟩
    obtain ⟨ls, t, hwindow, hlen⟩ := exists_window (s := s) k rfl hcounter hrun rfl rfl
    obtain ⟨k', -, -, hsent, -⟩ := window_run rfl hcounter hrun hwindow
    have hk : k' = k := by
      rw [hsent, List.length_append, dealt, List.length_map, List.length_range] at hlen
      exact Nat.add_left_cancel hlen
    rw [Nat.mod_eq_of_lt ha] at halive
    rw [Nat.mod_eq_of_lt hb] at hblive
    have hcount := hfair s rfl rfl rfl ls t hwindow a b halive hblive
    rwa [State.handed, hsent, List.drop_left, count_dealt, count_dealt, hk] at hcount
  · rintro hb s rfl hn rfl ls t hwindow x y hx hy
    obtain ⟨k, -, -, hsent, -⟩ := window_run hn hcounter hrun hwindow
    rw [State.handed, hsent, List.drop_left, count_dealt, count_dealt]
    have hmod (j : ℕ) (hj : Running s.slots j) : Running s.slots (j % s.slots.length) := by
      rwa [Nat.mod_eq_of_lt hj.lt]
    exact hb x y k hx.lt hy.lt (hmod x hx) (hmod y hy)

/-- Three children, all in use. -/
theorem fair_three : (∀ s : State, s.slots = [101, 102, 103] → s.processNumber = 3 → s.counter = 1 →
    s.Fair) ↔ Evenly [101, 102, 103] 1 :=
  fair_iff (by decide) ⟨101, by decide, by decide⟩

/-- Of three children the first exits and is reaped. -/
def firstReaped : List Label :=
  [.exit 101, .wait [.sigPipefd], .recv [.sigchld], .go, .waitpid 101, .waitpid 0, .go, .go, .go]

/-- The second child gets the turn of the first and its own. -/
theorem reaped_turn_inherited : ∃ s, Run Step (init [101, 102, 103]) firstReaped s ∧
    s.counter = 0 ∧ Running s.slots 1 ∧ Running s.slots 2 ∧ ¬ s.Fair := by
  obtain ⟨s, hrun, hread⟩ : ∃ s, Run Step (init [101, 102, 103]) firstReaped s ∧
      (s.processNumber, s.slots, s.counter, s.stop, s.pc, s.sent) =
        (3, [-1, 102, 103], 0, false, .wait, []) := Run.of_exec_map rfl
  simp only [Prod.mk.injEq] at hread
  obtain ⟨hn, hslots, hcounter, hstop, hpc, hsent⟩ := hread
  have hlive : ∃ p ∈ s.slots, p ≠ -1 := ⟨102, by rw [hslots]; decide, by decide⟩
  have h₁ : Running s.slots 1 := ⟨102, by rw [hslots]; rfl, by decide⟩
  have h₂ : Running s.slots 2 := ⟨103, by rw [hslots]; rfl, by decide⟩
  refine ⟨s, hrun, hcounter, h₁, h₂, ?_⟩
  intro hfair
  have hlen : s.slots.length = 3 := by rw [hslots]; rfl
  have htwo := (one_connection (hn.trans hlen.symm) (by omega) hlive hpc hstop).append
    (one_connection (s := s.served) (hn.trans hlen.symm)
      (by simp [State.served, hn, hcounter, hlen]) hlive hpc hstop)
  have hcount := hfair _ _ htwo 1 2 h₁ h₂
  have hboth : s.handed s.served.served = [1, 1] := by
    show (s.sent ++ [firstRunning s.slots s.counter] ++
      [firstRunning s.slots ((s.counter + 1) % s.processNumber)]).drop s.sent.length = [1, 1]
    rw [hsent, hslots, hcounter, hn]
    rfl
  rw [hboth] at hcount
  exact absurd hcount (by decide)

end RunParent

end Ulsp
