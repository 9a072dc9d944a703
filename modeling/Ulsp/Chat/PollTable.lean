import Ulsp.Chat.Poll

/-!
# The descriptor table of the poll chat server

The loop over `fds` changes the table it goes through: a user that goes is replaced by the last one,
at whose old place the loop does not look any more, and looks at the same place again; a new user
comes after the last. `fds` is a table that lists the open clients, and a round is a scan of it
(`Lists` and `Scan` of the library), so every client that was there when `poll` returned is visited
once.
-/

namespace Ulsp

open Lib

namespace PollChat

variable {s t u : State} {i j connfd : ℤ}

/-! ## The invariant -/

/-- The descriptors in the table. -/
def State.key (s : State) (i : ℤ) : ℤ := (s.fds i).fd

/-- The table: the listening socket, which is polled for connections only, and the open clients. -/
structure State.Table (s : State) : Prop where
  listen : s.key 0 = s.listenfd
  events : (s.fds 0).events = {.pollin, .pollerr}
  lists : Lists s.key 1 s.userCount s.opened
  other : s.listenfd ∉ s.opened
  limit : s.userCount ≤ userLimit

/-- A round that has come to the place `i`. -/
structure State.Ahead (s : State) (i : ℤ) : Prop where
  nonneg : 0 ≤ i
  scan : Scan s.key i s.userCount s.polled s.visited
  start : i = 0 → s.polled ⊆ s.opened ∧ (s.fds 0).revents ⊆ {.pollin, .pollerr, .pollhup}

/-- The part of the invariant about the round. -/
def State.Round (s : State) : Prop :=
  match s.pc with
  | .poll => ∀ fd ∈ s.polled, s.visited.count fd = 1
  | .loop i => s.Ahead i
  | .stopped => True

/-- The invariant. -/
structure State.TableOk (s : State) : Prop where
  table : s.Table
  round : s.Round

/-- No two places of the table have the same descriptor. -/
theorem State.Table.apart (h : s.Table) (hi : 0 ≤ i) (hij : i < j) (hj : j ≤ s.userCount) :
    s.key j ≠ s.key i := by
  intro heq
  rcases eq_or_ne i 0 with rfl | hne
  · refine h.other ((h.lists.mem _).mpr ⟨j, by omega, hj, ?_⟩)
    rw [heq, h.listen]
  · have := h.lists.inj j i (by omega) hj (by omega) (by omega) heq
    omega

/-- The listening socket is at the place 0 only. -/
theorem State.Table.key_ne (h : s.Table) (hi : 1 ≤ i) (hin : i ≤ s.userCount) :
    s.key i ≠ s.listenfd := by
  rw [← h.listen]
  exact h.apart le_rfl (by omega) hin

/-! ## What a pass changes -/

/-- The descriptors, the users and the round stay as they are, and the place 0 altogether. -/
structure Keeps (s t : State) : Prop where
  key : ∀ j, t.key j = s.key j
  first : t.fds 0 = s.fds 0
  listenfd : t.listenfd = s.listenfd
  userCount : t.userCount = s.userCount
  opened : t.opened = s.opened
  polled : t.polled = s.polled
  visited : t.visited = s.visited

theorem Keeps.refl (s : State) : Keeps s s := ⟨fun _ => rfl, rfl, rfl, rfl, rfl, rfl, rfl⟩

theorem Keeps.trans (h : Keeps s t) (h' : Keeps t u) : Keeps s u where
  key j := (h'.key j).trans (h.key j)
  first := h'.first.trans h.first
  listenfd := h'.listenfd.trans h.listenfd
  userCount := h'.userCount.trans h.userCount
  opened := h'.opened.trans h.opened
  polled := h'.polled.trans h.polled
  visited := h'.visited.trans h.visited

/-- A pass of the loop that broadcasts. -/
theorem announce_keeps (s : State) (hj : j ≠ 0) : Keeps s (s.announce connfd j) := by
  unfold State.announce
  simp only
  split
  · exact .refl s
  · refine ⟨?_, Function.update_of_ne hj.symm _ _, rfl, rfl, rfl, rfl, rfl⟩
    intro k
    simp only [State.key]
    rcases eq_or_ne k j with rfl | hk
    · rw [Function.update_self]
    · rw [Function.update_of_ne hk]

/-- The loop that broadcasts. -/
theorem broadcast_keeps (s : State) (connfd : ℤ) : Keeps s (s.broadcast connfd) := by
  unfold State.broadcast
  induction s.userCount.toNat with
  | zero => exact .refl s
  | succ n ih =>
    rw [List.range_succ, List.foldl_concat]
    exact ih.trans (announce_keeps _ (by omega))

/-- The pass is counted. -/
def State.visit (s : State) (i : ℤ) : State := { s with visited := s.visited ++ [s.key i] }

/-- A user's data are received at this place. -/
def State.Receives (s : State) (i : ℤ) : Prop :=
  s.key i ≠ s.listenfd ∧ .pollerr ∉ (s.fds i).revents ∧ .pollrdhup ∉ (s.fds i).revents ∧
    .pollin ∈ (s.fds i).revents

instance (s : State) (i : ℤ) : Decidable (s.Receives i) := by
  unfold State.Receives
  infer_instance

/-- A user goes at this place, as `poll` has reported. -/
def State.Leaves (s : State) (i : ℤ) : Prop :=
  .pollerr ∉ (s.fds i).revents ∧ .pollrdhup ∈ (s.fds i).revents

instance (s : State) (i : ℤ) : Decidable (s.Leaves i) := by
  unfold State.Leaves
  infer_instance

/-- What a pass does: nothing, or one of its branches. -/
theorem pass_cases {accepted : Option ℤ} {recv : Recv} (h : s.pass i accepted recv = some t) :
    t = { s.visit i with pc := .loop (i + 1) } ∨
    (s.key i = s.listenfd ∧ s.userCount < userLimit ∧
      ∃ connfd, s.Unused connfd ∧ t = { (s.visit i).append connfd with pc := .loop (i + 1) }) ∨
    (s.Leaves i ∧ t = { (s.visit i).leave i with pc := .loop (i - 1 + 1) }) ∨
    (s.Receives i ∧ (s.visit i).receive i recv = some t) ∨
    (.pollout ∈ (s.fds i).revents ∧ (s.visit i).send i = some t) := by
  change (if s.key i = s.listenfd ∧ _ then (s.visit i).accept i accepted else
    if _ then some { s.visit i with pc := .loop (i + 1) } else
    if _ then some { (s.visit i).leave i with pc := .loop (i - 1 + 1) } else
    if _ then (s.visit i).receive i recv else
    if _ then (s.visit i).send i else some { s.visit i with pc := .loop (i + 1) }) = some t at h
  split at h
  · -- `accept`
    rename_i hlisten
    cases accepted with
    | none => exact .inl (Option.some.inj h).symm
    | some connfd =>
      simp only [State.accept] at h
      split at h
      · rename_i hunused
        split at h
        · exact .inl (Option.some.inj h).symm
        · rename_i hlimit
          exact .inr (.inl ⟨hlisten.1, not_le.mp hlimit, connfd, hunused, (Option.some.inj h).symm⟩)
      · cases h
  · rename_i hlisten
    split at h
    · exact .inl (Option.some.inj h).symm
    · rename_i herr
      split at h
      · rename_i hleft
        exact .inr (.inr (.inl ⟨⟨herr, hleft⟩, (Option.some.inj h).symm⟩))
      · rename_i hstay
        split at h
        · rename_i hin
          exact .inr (.inr (.inr (.inl ⟨⟨fun heq => hlisten ⟨heq, hin⟩, herr, hstay, hin⟩, h⟩)))
        · split at h
          · rename_i hout
            exact .inr (.inr (.inr (.inr ⟨hout, h⟩)))
          · exact .inl (Option.some.inj h).symm

/-- What `send` does: nothing when there is no `writeBuf`, or it sends the text there. -/
theorem send_cases (h : s.send i = some t) :
    (s.users (s.key i)).writeBuf = none ∧ t = { s with pc := .loop (i + 1) } ∨
    ∃ k text, (s.users (s.key i)).writeBuf = some k ∧
      (s.users k).buf.cstring bufsize = some text ∧ t = { s with
        users := Function.update s.users (s.key i) { s.users (s.key i) with writeBuf := none }
        fds := Function.update s.fds i
          { s.fds i with events := insert .pollin ((s.fds i).events.erase .pollout) }
        log := { s.log with sent := s.log.sent ++ [(s.conn (s.key i), text)] }
        pc := .loop (i + 1) } := by
  simp only [State.send] at h
  split at h
  · rename_i hnone
    exact .inl ⟨hnone, (Option.some.inj h).symm⟩
  · rename_i k hk
    simp only [Option.bind_eq_bind, Option.bind_eq_some_iff] at h
    obtain ⟨text, htext, h⟩ := h
    exact .inr ⟨k, text, hk, htext, (Option.some.inj h).symm⟩

/-- A `bzero` and `recv` into a `buf`. -/
theorem fill_keeps (s : State) (fd : ℤ) (received : List UInt8) : Keeps s (s.fill fd received) :=
  ⟨fun _ => rfl, rfl, rfl, rfl, rfl, rfl, rfl⟩

/-- Where the loop is, and the log, are not part of the table. -/
theorem keeps_at (s : State) (pc : Pc) (log : Log) : Keeps s { s with pc, log } :=
  ⟨fun _ => rfl, rfl, rfl, rfl, rfl, rfl, rfl⟩

/-- What `receive` does to the table: nothing, or the user goes. -/
theorem receive_keeps {recv : Recv} (h : s.receive i recv = some t) :
    t.pc = .loop (i + 1) ∧ Keeps s t ∨ t.pc = .loop (i - 1 + 1) ∧ Keeps (s.leave i) t := by
  cases recv with
  | again =>
    cases h
    exact .inl ⟨rfl, ((fill_keeps s _ _).trans (broadcast_keeps _ _)).trans (keeps_at _ _ _)⟩
  | fails =>
    cases h
    refine .inr ⟨rfl, .trans (t := (s.fill (s.key i) []).leave i) ?_
      ((broadcast_keeps _ _).trans (keeps_at _ _ _))⟩
    exact ⟨fun _ => rfl, rfl, rfl, rfl, rfl, rfl, rfl⟩
  | data received =>
    simp only [State.receive] at h
    split at h
    · cases h
    · split at h
      · cases h
        exact .inl ⟨rfl, (fill_keeps s _ _).trans (keeps_at _ _ _)⟩
      · cases h
        exact .inl ⟨rfl, ((fill_keeps s _ _).trans (broadcast_keeps _ _)).trans (keeps_at _ _ _)⟩

/-- What `send` does to the table: nothing, except that it changes the events of its place. -/
theorem send_keeps (h : s.send i = some t) (hi : i ≠ 0) : t.pc = .loop (i + 1) ∧ Keeps s t := by
  rcases send_cases h with ⟨-, rfl⟩ | ⟨k, text, -, -, rfl⟩
  · exact ⟨rfl, keeps_at s _ _⟩
  · refine ⟨rfl, ?_, Function.update_of_ne hi.symm _ _, rfl, rfl, rfl, rfl, rfl⟩
    intro j
    simp only [State.key]
    rcases eq_or_ne j i with rfl | hj
    · rw [Function.update_self]
    · rw [Function.update_of_ne hj]

/-! ## The steps -/

/-- The table depends on what a pass keeps only. -/
theorem State.Table.of_keeps (h : s.Table) (hkeeps : Keeps s t) : t.Table where
  listen := by rw [hkeeps.key, hkeeps.listenfd, h.listen]
  events := by rw [hkeeps.first, h.events]
  lists := by
    rw [hkeeps.userCount, hkeeps.opened]
    exact h.lists.congr fun j _ _ => hkeeps.key j
  other := by
    rw [hkeeps.listenfd, hkeeps.opened]
    exact h.other
  limit := by
    rw [hkeeps.userCount]
    exact h.limit

/-- So does a round. -/
theorem State.Ahead.of_keeps (h : s.Ahead i) (hkeeps : Keeps s t) : t.Ahead i where
  nonneg := h.nonneg
  scan := by
    rw [hkeeps.userCount, hkeeps.polled, hkeeps.visited]
    exact h.scan.congr fun k _ => Among.congr fun j _ _ => hkeeps.key j
  start hi := by
    rw [hkeeps.polled, hkeeps.opened, hkeeps.first]
    exact h.start hi

/-- Other events are reported for the clients only. -/
theorem State.Ahead.ne_zero (h : s.Ahead i) {e : Event} (hmem : e ∈ (s.fds i).revents)
    (hnot : e ∉ ({.pollin, .pollerr, .pollhup} : Finset Event)) : i ≠ 0 := by
  rintro rfl
  exact hnot ((h.start rfl).2 hmem)

/-- A visit that leaves the table as it is. -/
theorem visit_ok (h : s.Table) (hround : s.Ahead i) (hin : i ≤ s.userCount) :
    (s.visit i).Table ∧ (s.visit i).Ahead (i + 1) := by
  have hnonneg := hround.nonneg
  refine ⟨⟨h.listen, h.events, h.lists, h.other, h.limit⟩, by omega, ?_, by omega⟩
  exact hround.scan.next hin (fun j hij hj => h.apart hnonneg hij hj) fun _ _ _ => rfl

/-- A new user. -/
theorem append_ok (h : s.Table) (hround : s.Ahead i) (hfirst : s.key i = s.listenfd)
    (hin : i ≤ s.userCount) (hlimit : s.userCount < userLimit) (hunused : s.Unused connfd) :
    ((s.visit i).append connfd).Table ∧ ((s.visit i).append connfd).Ahead (i + 1) := by
  obtain ⟨-, hne, hnew⟩ := hunused
  obtain rfl : i = 0 := by
    by_contra hne
    have hnonneg := hround.nonneg
    exact h.key_ne (by omega) hin hfirst
  have hold : ∀ j, j ≤ s.userCount → ((s.visit 0).append connfd).fds j = s.fds j := fun j hj =>
    Function.update_of_ne (show j ≠ s.userCount + 1 by omega) _ _
  have hkey : ∀ j, j ≤ s.userCount → ((s.visit 0).append connfd).key j = s.key j := fun j hj => by
    rw [State.key, hold j hj, State.key]
  have hlast : ((s.visit 0).append connfd).key (s.userCount + 1) = connfd := by
    simp [State.key, State.append, State.visit]
  obtain ⟨-, hvisit⟩ := visit_ok h hround hin
  have hzero : (0 : ℤ) ≤ s.userCount := hin
  refine ⟨⟨?_, ?_, ?_, ?_, ?_⟩, by omega, ?_, by omega⟩
  · rw [hkey 0 hzero, h.listen]
    rfl
  · rw [hold 0 hzero, h.events]
  · exact h.lists.append hnew hlast fun j _ hj => hkey j hj
  · exact fun hmem => (Finset.mem_insert.mp hmem).elim (fun heq => hne heq.symm) h.other
  · show s.userCount + 1 ≤ userLimit
    omega
  · refine hvisit.scan.append (show (0 : ℤ) + 1 ≤ s.userCount + 1 by omega) ?_ fun j _ hj => hkey j hj
    show ((s.visit 0).append connfd).key (s.userCount + 1) ∉ s.polled
    rw [hlast]
    exact fun hmem => hnew ((hround.start rfl).1 hmem)

/-- A user goes. -/
theorem leave_ok (h : s.Table) (hround : s.Ahead i) (hi : 1 ≤ i) (hin : i ≤ s.userCount) :
    ((s.visit i).leave i).Table ∧ ((s.visit i).leave i).Ahead i := by
  have hself : ((s.visit i).leave i).key i = s.key s.userCount := by
    simp [State.key, State.leave, State.visit]
  have hother : ∀ j, j ≠ i → ((s.visit i).leave i).key j = s.key j := fun j hj => by
    simp [State.key, State.leave, State.visit, hj]
  refine ⟨⟨?_, ?_, ?_, ?_, ?_⟩, by omega, ?_, by omega⟩
  · rw [hother 0 (by omega), h.listen]
    rfl
  · refine Eq.trans ?_ h.events
    simp [State.leave, State.visit, show (0 : ℤ) ≠ i by omega]
  · exact h.lists.remove hi hin hself hother
  · exact fun hmem => h.other (Finset.mem_of_mem_erase hmem)
  · have hlimit := h.limit
    show s.userCount - 1 ≤ userLimit
    omega
  · exact hround.scan.remove hin (fun j hij hj => h.apart (by omega) hij hj) hself hother

/-- A pass keeps the invariant, and comes nearer to the end of the table. -/
theorem pass_tableOk {accepted : Option ℤ} {recv : Recv} (h : s.Table) (hround : s.Ahead i)
    (hin : i ≤ s.userCount) (hpass : s.pass i accepted recv = some t) :
    t.Table ∧ ∃ j, t.pc = .loop j ∧ t.Ahead j ∧ (1 ≤ i → t.userCount - j < s.userCount - i) := by
  have hnonneg := hround.nonneg
  have hvisit : t.pc = .loop (i + 1) → Keeps (s.visit i) t → t.Table ∧
      ∃ j, t.pc = .loop j ∧ t.Ahead j ∧ (1 ≤ i → t.userCount - j < s.userCount - i) := by
    intro hpc hkeeps
    obtain ⟨htable, hahead⟩ := visit_ok h hround hin
    refine ⟨htable.of_keeps hkeeps, i + 1, hpc, hahead.of_keeps hkeeps, ?_⟩
    intro _
    have hcount : t.userCount = s.userCount := hkeeps.userCount
    omega
  have hleave : i ≠ 0 → t.pc = .loop (i - 1 + 1) → Keeps ((s.visit i).leave i) t → t.Table ∧
      ∃ j, t.pc = .loop j ∧ t.Ahead j ∧ (1 ≤ i → t.userCount - j < s.userCount - i) := by
    intro hi hpc hkeeps
    obtain ⟨htable, hahead⟩ := leave_ok h hround (by omega) hin
    refine ⟨htable.of_keeps hkeeps, i, by simpa using hpc, hahead.of_keeps hkeeps, ?_⟩
    intro _
    have hcount : t.userCount = s.userCount - 1 := hkeeps.userCount
    omega
  rcases pass_cases hpass with rfl | ⟨hkey, hlimit, connfd, hunused, rfl⟩ | ⟨⟨-, hleft⟩, rfl⟩ |
    ⟨hreceives, hrecv⟩ | ⟨hout, hsend⟩
  · exact hvisit rfl (keeps_at _ _ _)
  · obtain ⟨htable, hahead⟩ := append_ok h hround hkey hin hlimit hunused
    refine ⟨htable.of_keeps (keeps_at _ _ _), i + 1, rfl, hahead.of_keeps (keeps_at _ _ _), ?_⟩
    exact fun hi => absurd hkey (h.key_ne hi hin)
  · exact hleave (hround.ne_zero hleft (by decide)) rfl (keeps_at _ _ _)
  · rcases receive_keeps hrecv with ⟨hpc, hkeeps⟩ | ⟨hpc, hkeeps⟩
    · exact hvisit hpc hkeeps
    · refine hleave ?_ hpc hkeeps
      rintro rfl
      exact hreceives.1 h.listen
  · obtain ⟨hpc, hkeeps⟩ := send_keeps hsend (hround.ne_zero hout (by decide))
    exact hvisit hpc hkeeps

/-- `poll` returns. -/
theorem reported_ok {revents : ℤ → Finset Event} (h : s.Table) (hreports : s.Reports revents) :
    (s.reported revents).Table ∧ (s.reported revents).Ahead 0 := by
  have hdense := h.lists.dense
  have hkey : ∀ j, (s.reported revents).key j = s.key j := fun j => by
    simp only [State.key, State.reported]
    split <;> rfl
  have hcond : 0 ≤ (0 : ℤ) ∧ 0 ≤ s.userCount := ⟨le_rfl, by omega⟩
  have hpolled : ∀ fd, fd ∈ (s.reported revents).polled → Among s.key 1 s.userCount fd := by
    intro fd hfd
    obtain ⟨j, hj, rfl⟩ := Finset.mem_image.mp hfd
    obtain ⟨hj, hjn⟩ := mem_places.mp hj
    exact ⟨j, hj, hjn, rfl⟩
  refine ⟨⟨(hkey 0).trans h.listen, ?_, h.lists.congr fun j _ _ => hkey j, h.other, h.limit⟩,
    le_rfl, scan_nil ?_, fun _ => ⟨fun fd hfd => (h.lists.mem fd).mpr (hpolled fd hfd), ?_⟩⟩
  · simp only [State.reported, if_pos hcond, h.events]
  · intro fd hfd
    obtain ⟨j, hj, hjn, hk⟩ := hpolled fd hfd
    exact ⟨j, by omega, hjn, (hkey j).trans hk⟩
  · have hsub := hreports 0 (mem_places.mpr hcond)
    rw [h.events] at hsub
    simp only [State.reported, if_pos hcond]
    refine hsub.trans ?_
    decide

/-- The steps of the server, as `next` makes them. -/
inductive PollStep (s : State) : Label → State → Prop
  | poll (revents : ℤ → Finset Event) : s.pc = .poll → s.Reports revents →
    PollStep s (.poll revents) (s.reported revents)
  | pollFails : s.pc = .poll → PollStep s .pollFails { s with pc := .stopped }
  | pass (i : ℤ) (connfd : Option ℤ) (recv : Recv) (t : State) : s.pc = .loop i →
    i ≤ s.userCount → s.pass i connfd recv = some t → PollStep s (.pass connfd recv) t
  | done (i : ℤ) (connfd : Option ℤ) (recv : Recv) : s.pc = .loop i → s.userCount < i →
    PollStep s (.pass connfd recv) { s with pc := .poll }

/-- A step is one of those. -/
theorem step_cases {l : Label} (h : Step s l t) : PollStep s l t := by
  simp only [Step, next] at h
  split at h
  · split at h
    · cases h
      exact .poll _ ‹_› ‹_›
    · cases h
  · cases h
    exact .pollFails ‹_›
  · split at h
    · exact .pass _ _ _ _ ‹_› ‹_› h
    · cases h
      exact .done _ _ _ ‹_› (not_le.mp ‹_›)
  · cases h

/-- Every step keeps the invariant. -/
theorem tableOk_step {l : Label} (h : s.TableOk) (hstep : Step s l t) : t.TableOk := by
  obtain ⟨htable, hround⟩ := h
  have hat : ∀ pc, { s with pc }.Table := fun pc => htable.of_keeps (keeps_at s pc s.log)
  cases step_cases hstep with
  | poll revents hpc hreports =>
    obtain ⟨htable', hahead⟩ := reported_ok htable hreports
    exact ⟨htable', hahead⟩
  | pollFails => exact ⟨hat _, trivial⟩
  | pass i connfd recv _ hpc hin hpass =>
    simp only [State.Round, hpc] at hround
    obtain ⟨htable', j, hpc', hahead, -⟩ := pass_tableOk htable hround hin hpass
    refine ⟨htable', ?_⟩
    simp only [State.Round, hpc']
    exact hahead
  | done i connfd recv hpc hend =>
    simp only [State.Round, hpc] at hround
    exact ⟨hat _, hround.scan.done hend⟩

/-- The server before its first `poll`. -/
theorem init_tableOk {listenfd : ℤ} : (init listenfd).TableOk := by
  have hcount : (init listenfd).userCount = 0 := rfl
  have hlists : Lists (init listenfd).key 1 0 (init listenfd).opened := by
    refine ⟨le_rfl, fun i j hi hin => by omega, ?_⟩
    intro fd
    refine ⟨fun hmem => absurd hmem (Finset.notMem_empty fd), ?_⟩
    rintro ⟨j, hj, hjn, -⟩
    omega
  exact ⟨⟨rfl, rfl, hlists, Finset.notMem_empty listenfd, by rw [hcount]; decide⟩,
    fun fd hmem => absurd hmem (Finset.notMem_empty fd)⟩

/-- The invariant holds throughout. -/
theorem tableOk_run {listenfd : ℤ} {ls : List Label} (h : Run Step (init listenfd) ls s) :
    s.TableOk :=
  h.invariant (fun _ _ _ hs hstep => tableOk_step hs hstep) init_tableOk

/-- The listening socket stays the same. -/
theorem listenfd_step {l : Label} (hstep : Step s l t) : t.listenfd = s.listenfd := by
  cases step_cases hstep with
  | poll | pollFails | done => rfl
  | pass i connfd recv _ hpc hin hpass =>
    rcases pass_cases hpass with rfl | ⟨-, -, connfd, -, rfl⟩ | ⟨-, rfl⟩ | ⟨-, hrecv⟩ | ⟨-, hsend⟩
    · rfl
    · rfl
    · rfl
    · rcases receive_keeps hrecv with ⟨-, hkeeps⟩ | ⟨-, hkeeps⟩ <;> exact hkeeps.listenfd
    · rcases send_cases hsend with ⟨-, rfl⟩ | ⟨k, text, -, -, rfl⟩ <;> rfl

/-- In every state the server reaches, `fds[0]` is the listening socket, and the places from 1 to
`user_count`, which is at most `USER_LIMIT`, list the descriptors of the open clients, each once. In a
round the clients that were in the table when `poll` returned and are not among the places to come
have been visited once, and the others not yet; each pass after the first comes nearer to the end of
the table, and when the round is over each of them has been visited once. -/
theorem poll_table {listenfd : ℤ} {ls : List Label} (h : Run Step (init listenfd) ls s) :
    (s.fds 0).fd = listenfd ∧
    (∀ fd, fd ∈ s.opened ↔ ∃ i, 1 ≤ i ∧ i ≤ s.userCount ∧ (s.fds i).fd = fd) ∧
    (∀ i j, 1 ≤ i → i ≤ s.userCount → 1 ≤ j → j ≤ s.userCount → (s.fds i).fd = (s.fds j).fd →
      i = j) ∧
    0 ≤ s.userCount ∧ s.userCount ≤ userLimit ∧
    (∀ i, s.pc = .loop i → ∀ fd ∈ s.polled,
      (∃ j, i ≤ j ∧ j ≤ s.userCount ∧ (s.fds j).fd = fd) ∧ s.visited.count fd = 0 ∨
      (¬ ∃ j, i ≤ j ∧ j ≤ s.userCount ∧ (s.fds j).fd = fd) ∧ s.visited.count fd = 1) ∧
    (∀ i l t, s.pc = .loop i → 1 ≤ i → Step s l t → t.pc = .poll ∨
      ∃ j, t.pc = .loop j ∧ t.userCount - j < s.userCount - i) ∧
    (s.pc = .poll → ∀ fd ∈ s.polled, s.visited.count fd = 1) := by
  obtain ⟨htable, hround⟩ := tableOk_run h
  have hlisten : s.listenfd = listenfd :=
    h.invariant (I := fun s => s.listenfd = listenfd)
      (fun _ _ _ hs hstep => (listenfd_step hstep).trans hs) rfl
  have hdense := htable.lists.dense
  refine ⟨htable.listen.trans hlisten, htable.lists.mem, htable.lists.inj, by omega, htable.limit,
    ?_, ?_, ?_⟩
  · intro i hpc
    simp only [State.Round, hpc] at hround
    exact hround.scan
  · intro i l t hpc hi hstep
    simp only [State.Round, hpc] at hround
    cases step_cases hstep with
    | poll _ hpc' | pollFails hpc' => cases hpc'.symm.trans hpc
    | pass _ connfd recv _ hpc' hin hpass =>
      cases hpc'.symm.trans hpc
      obtain ⟨-, j, hj, -, hless⟩ := pass_tableOk htable hround hin hpass
      exact .inr ⟨j, hj, hless hi⟩
    | done => exact .inl rfl
  · intro hpc
    simpa only [State.Round, hpc] using hround

/-- A client connects, and a second one; then the first one leaves. -/
def comeAndGo : List Label :=
  [.poll fun _ => {.pollin}, .pass (some 4) .again, .pass none .again, .pass none .again,
    .poll fun i => if i = 0 then {.pollin} else ∅, .pass (some 5) .again, .pass none .again,
    .pass none .again, .pass none .again,
    .poll fun i => if i = 1 then {.pollrdhup} else ∅, .pass none .again, .pass none .again,
    .pass none .again, .pass none .again]

/-- Both were visited in the last round, each once. -/
theorem poll_table_one : ∃ s, Run Step (init 3) comeAndGo s ∧ s.polled = {4, 5} ∧
    s.opened = {5} ∧ s.visited.count 4 = 1 ∧ s.visited.count 5 = 1 := by
  obtain ⟨s, hrun, hread⟩ : ∃ s, Run Step (init 3) comeAndGo s ∧
      (s.pc, s.polled, s.opened) = (.poll, {4, 5}, {5}) := Run.of_exec_map rfl
  simp only [Prod.mk.injEq] at hread
  obtain ⟨hpc, hpolled, hopened⟩ := hread
  have hall := (poll_table hrun).2.2.2.2.2.2.2 hpc
  exact ⟨s, hrun, hpolled, hopened, hall 4 (by rw [hpolled]; decide),
    hall 5 (by rw [hpolled]; decide)⟩

end PollChat

end Ulsp
