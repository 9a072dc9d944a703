import Ulsp.Chat.ServerOps

/-!
# The descriptor sets of the select chat server

Between any two steps of the server the descriptor of a connected client is in the sets for reading
and exceptions, or else in the set for writing, and the latter when the client has a `writeBuf`
(`Pool.FdOk`). What a client sends moves others from one to the other while `check_clients` goes
through what `select` found before, so the invariant has a part about the rest of the round
(`State.RoundOk`): a client still to be passed that was found ready for writing has its `writeBuf`,
and `nready` counts at least the clients that are still to be passed and ready. So the loop does not
end before the last of them.
-/

namespace Ulsp

open Lib

namespace Chat

variable {p p' p'' : Pool} {i j k connfd listenfd : ℕ}

/-! ## The invariant -/

/-- Whether a descriptor is in the sets for reading, for writing and for exceptions. -/
def Pool.watch (p : Pool) (fd : ℕ) : Bool × Bool × Bool :=
  (fd ∈ p.readFds, fd ∈ p.writeFds, fd ∈ p.exceptionFds)

/-- The sets a connected client's descriptor belongs in. -/
def Client.watch (c : Client) : Bool × Bool × Bool :=
  if c.writeBuf = none then (true, false, true) else (false, true, false)

/-- The sets hold the listening descriptor and those of the connected clients, each where it belongs,
and no others. -/
structure Pool.FdOk (p : Pool) (listenfd : ℕ) : Prop where
  free : ∀ i, (p.clients i).connfd = none → (p.clients i).writeBuf = none
  apart : ∀ i j fd, (p.clients i).connfd = some fd → (p.clients j).connfd = some fd → i = j
  other : ∀ i, (p.clients i).connfd ≠ some listenfd
  listening : p.watch listenfd = (true, false, true)
  client : ∀ i fd, (p.clients i).connfd = some fd → p.watch fd = (p.clients i).watch
  departed : ∀ fd, fd ≠ listenfd → (∀ i, (p.clients i).connfd ≠ some fd) →
    p.watch fd = (false, false, false)
  range : ∀ i fd, (p.clients i).connfd = some fd → (i : ℤ) ≤ p.maxi ∧ fd ≤ p.maxfd
  maxi_lt : p.maxi < clientFdNumber

/-- The slots from `k` on that are ready. -/
def Pool.waiting (p : Pool) (k : ℕ) : Finset ℕ :=
  (Finset.range clientFdNumber).filter fun i => k ≤ i ∧ p.ready i ≠ .idle

/-- What is ready is in the sets, and the clients that are ready are not more than `nready` says
when the accepted connection is not counted. -/
structure Pool.Found (p : Pool) : Prop where
  read : p.readyReadFds ⊆ p.readFds
  write : p.readyWriteFds ⊆ p.writeFds
  exception : p.readyExceptionFds ⊆ p.exceptionFds
  count : ((p.waiting 0).card : ℤ) + 1 ≤ p.nready

/-- The rest of a round: from the slot `k` on, a client ready for writing has a `writeBuf`, and
`nready` counts the clients that are ready. -/
structure Pool.Left (p : Pool) (k : ℕ) : Prop where
  writeBuf : ∀ i fd, k ≤ i → p.ready i = .write fd → (p.clients i).writeBuf ≠ none
  count : ((p.waiting k).card : ℤ) ≤ p.nready

/-- The part of the invariant about the round. -/
def State.RoundOk (s : State) : Prop :=
  match s.pc with
  | .accept => s.pool.Found
  | .check k => s.pool.Left k
  | _ => True

/-- The invariant. -/
structure State.FdOk (s : State) : Prop where
  sets : s.pool.FdOk s.listenfd
  round : s.RoundOk

/-! ## One client changes -/

/-- One client changes, and the sets with it: the sets keep what they have of other descriptors, lose
the one the client had, and hold the one it has where it belongs. -/
theorem Pool.FdOk.update {c : Client} (h : p.FdOk listenfd)
    (hclients : p'.clients = Function.update p.clients i c)
    (hkeep : ∀ fd, (p.clients i).connfd ≠ some fd → c.connfd ≠ some fd →
      p'.watch fd = p.watch fd)
    (hgone : ∀ fd, (p.clients i).connfd = some fd → c.connfd ≠ some fd →
      p'.watch fd = (false, false, false))
    (hfree : c.connfd = none → c.writeBuf = none)
    (hnew : ∀ fd, c.connfd = some fd → fd ≠ listenfd ∧
      (∀ j, j ≠ i → (p.clients j).connfd ≠ some fd) ∧ p'.watch fd = c.watch ∧
      (i : ℤ) ≤ p'.maxi ∧ fd ≤ p'.maxfd)
    (hmaxi : p.maxi ≤ p'.maxi) (hmaxfd : p.maxfd ≤ p'.maxfd) (hlt : p'.maxi < clientFdNumber) :
    p'.FdOk listenfd := by
  have hself : p'.clients i = c := by rw [hclients, Function.update_self]
  have hother : ∀ j, j ≠ i → p'.clients j = p.clients j := fun j hj => by
    rw [hclients, Function.update_of_ne hj]
  -- the descriptor of another client is neither the old nor the new one
  have hstay : ∀ j fd, j ≠ i → (p.clients j).connfd = some fd → p'.watch fd = p.watch fd := by
    intro j fd hj hfd
    refine hkeep fd (fun hi => hj (h.apart j i fd hfd hi)) ?_
    intro hc
    exact (hnew fd hc).2.1 j hj hfd
  refine ⟨?_, ?_, ?_, ?_, ?_, ?_, ?_, hlt⟩
  · intro j hj
    rcases eq_or_ne j i with rfl | hji
    · rw [hself] at hj ⊢
      exact hfree hj
    · rw [hother j hji] at hj ⊢
      exact h.free j hj
  · intro j k fd hj hk
    rcases eq_or_ne j i with rfl | hji
    · rcases eq_or_ne k j with rfl | hkj
      · rfl
      · rw [hself] at hj
        rw [hother k hkj] at hk
        exact absurd hk ((hnew fd hj).2.1 k hkj)
    · rw [hother j hji] at hj
      rcases eq_or_ne k i with rfl | hki
      · rw [hself] at hk
        exact absurd hj ((hnew fd hk).2.1 j hji)
      · rw [hother k hki] at hk
        exact h.apart j k fd hj hk
  · intro j hj
    rcases eq_or_ne j i with rfl | hji
    · rw [hself] at hj
      exact (hnew listenfd hj).1 rfl
    · rw [hother j hji] at hj
      exact h.other j hj
  · rw [hkeep listenfd (h.other i) fun hc => (hnew listenfd hc).1 rfl]
    exact h.listening
  · intro j fd hj
    rcases eq_or_ne j i with rfl | hji
    · rw [hself] at hj ⊢
      exact (hnew fd hj).2.2.1
    · rw [hother j hji] at hj ⊢
      rw [hstay j fd hji hj]
      exact h.client j fd hj
  · intro fd hne hnot
    have hc : c.connfd ≠ some fd := fun hc => hnot i (by rw [hself, hc])
    by_cases hi : (p.clients i).connfd = some fd
    · exact hgone fd hi hc
    · rw [hkeep fd hi hc]
      refine h.departed fd hne ?_
      intro j hj
      rcases eq_or_ne j i with rfl | hji
      · exact hi hj
      · exact hnot j (by rw [hother j hji, hj])
  · intro j fd hj
    rcases eq_or_ne j i with rfl | hji
    · rw [hself] at hj
      exact (hnew fd hj).2.2.2
    · rw [hother j hji] at hj
      obtain ⟨hle, hlefd⟩ := h.range j fd hj
      exact ⟨by omega, by omega⟩

/-- A client that stays connected changes, and is put where it belongs. -/
theorem Pool.FdOk.stay {c : Client} (h : p.FdOk listenfd)
    (hclients : p'.clients = Function.update p.clients i c)
    (hfd : (p.clients i).connfd = some connfd) (hc : c.connfd = some connfd)
    (hkeep : ∀ fd, fd ≠ connfd → p'.watch fd = p.watch fd) (hself : p'.watch connfd = c.watch)
    (hmaxi : p'.maxi = p.maxi) (hmaxfd : p'.maxfd = p.maxfd) : p'.FdOk listenfd := by
  obtain ⟨hle, hlefd⟩ := h.range i connfd hfd
  refine h.update hclients (fun fd hne _ => hkeep fd ?_) ?_ ?_ ?_ hmaxi.ge hmaxfd.ge
    (hmaxi ▸ h.maxi_lt)
  · rintro rfl
    exact hne hfd
  · intro fd hi hnot
    cases hfd.symm.trans hi
    exact absurd hc hnot
  · intro hnone
    rw [hc] at hnone
    cases hnone
  · intro fd hfd'
    cases hc.symm.trans hfd'
    refine ⟨?_, fun j hj hjfd => hj (h.apart j i connfd hjfd hfd), hself, by omega, by omega⟩
    rintro rfl
    exact h.other i hfd

/-- What a pass for the client `i` leaves: the descriptors of the others and the `writeBuf` of those
that have one, what `select` found, and `nready`. -/
structure Pool.Leaves (p p' : Pool) (i : ℕ) : Prop where
  connfd : ∀ j, j ≠ i → (p'.clients j).connfd = (p.clients j).connfd
  writeBuf : ∀ j, j ≠ i → (p.clients j).writeBuf ≠ none → (p'.clients j).writeBuf ≠ none
  read : p'.readyReadFds = p.readyReadFds
  write : p'.readyWriteFds = p.readyWriteFds
  exception : p'.readyExceptionFds = p.readyExceptionFds
  nready : p'.nready = p.nready

theorem Pool.Leaves.refl (p : Pool) (i : ℕ) : p.Leaves p i :=
  ⟨fun _ _ => rfl, fun _ _ h => h, rfl, rfl, rfl, rfl⟩

theorem Pool.Leaves.trans (h : p.Leaves p' i) (h' : p'.Leaves p'' i) : p.Leaves p'' i where
  connfd j hj := (h'.connfd j hj).trans (h.connfd j hj)
  writeBuf j hj hne := h'.writeBuf j hj (h.writeBuf j hj hne)
  read := h'.read.trans h.read
  write := h'.write.trans h.write
  exception := h'.exception.trans h.exception
  nready := h'.nready.trans h.nready

theorem Pool.Leaves.ready (h : p.Leaves p' i) (hj : j ≠ i) : p'.ready j = p.ready j :=
  ready_congr (h.connfd j hj) h.read h.write h.exception

/-! ## The operations -/

/-- The end of a `write`. -/
theorem flushed_fdOk (h : p.FdOk listenfd) (hfd : (p.clients i).connfd = some connfd) :
    (p.flushed i connfd).FdOk listenfd ∧ p.Leaves (p.flushed i connfd) i := by
  refine ⟨h.stay rfl hfd hfd ?_ ?_ rfl rfl, ?_, ?_, rfl, rfl, rfl, rfl⟩
  · intro fd hne
    simp [Pool.watch, Pool.flushed, hne]
  · simp [Pool.watch, Pool.flushed, Client.watch]
  · intro j hj
    simp [Pool.flushed, Pool.setClient, hj]
  · intro j hj
    simp [Pool.flushed, Pool.setClient, hj]

/-- A client changes that keeps its descriptor and its `writeBuf`. -/
theorem setClient_fdOk {c : Client} (h : p.FdOk listenfd)
    (hfd : (p.clients i).connfd = some connfd) (hc : c.connfd = (p.clients i).connfd)
    (hwrite : c.writeBuf = (p.clients i).writeBuf) :
    (p.setClient i c).FdOk listenfd ∧ p.Leaves (p.setClient i c) i := by
  refine ⟨h.stay rfl hfd (hc.trans hfd) (fun _ _ => rfl) ?_ rfl rfl, ?_, ?_, rfl, rfl, rfl, rfl⟩
  · exact (h.client i connfd hfd).trans (by simp only [Client.watch, hwrite])
  · intro j hj
    simp [Pool.setClient, hj]
  · intro j hj
    simp [Pool.setClient, hj]

/-- The end of a connection. -/
theorem closeClient_fdOk (h : p.FdOk listenfd) (hfd : (p.clients i).connfd = some connfd) :
    (p.closeClient i connfd).FdOk listenfd ∧ p.Leaves (p.closeClient i connfd) i := by
  refine ⟨h.update rfl ?_ ?_ (fun _ => rfl) nofun le_rfl le_rfl h.maxi_lt, ?_, ?_, rfl, rfl, rfl,
    rfl⟩
  · intro fd hne _
    have hne' : fd ≠ connfd := fun heq => hne (heq ▸ hfd)
    simp [Pool.watch, Pool.closeClient, Pool.setClient, hne']
  · intro fd hi _
    cases hfd.symm.trans hi
    simp [Pool.watch, Pool.closeClient]
  · intro j hj
    simp [Pool.closeClient, Pool.setClient, hj]
  · intro j hj
    simp [Pool.closeClient, Pool.setClient, hj]

/-- A pass of the loop that broadcasts. -/
theorem address_fdOk (h : p.FdOk listenfd) (i j : ℕ) :
    (p.address i j).FdOk listenfd ∧ p.Leaves (p.address i j) i := by
  obtain ⟨-, heq⟩ | ⟨fd, -, hfd, heq⟩ := address_cases p i j
  · rw [heq]
    exact ⟨h, .refl p i⟩
  · rw [heq]
    refine ⟨h.stay rfl hfd hfd ?_ ?_ rfl rfl, ?_, ?_, rfl, rfl, rfl, rfl⟩
    · intro fd' hne
      simp [Pool.watch, hne]
    · simp [Pool.watch, Client.watch, Client.waitFor]
    · intro k _
      rcases eq_or_ne k j with rfl | hkj
      · simp [Pool.setClient, Client.waitFor]
      · simp [Pool.setClient, hkj]
    · intro k _ hk
      rcases eq_or_ne k j with rfl | hkj
      · simp [Pool.setClient, Client.waitFor]
      · simpa [Pool.setClient, hkj] using hk

/-- The loop that broadcasts. -/
theorem broadcast_fdOk (h : p.FdOk listenfd) (i : ℕ) :
    (p.broadcast i).FdOk listenfd ∧ p.Leaves (p.broadcast i) i := by
  unfold Pool.broadcast
  generalize List.range (p.maxi + 1).toNat = js
  induction js generalizing p with
  | nil => exact ⟨h, .refl p i⟩
  | cons j js ih =>
    obtain ⟨hok, hleaves⟩ := address_fdOk h i j
    obtain ⟨hok', hleaves'⟩ := ih hok
    exact ⟨hok', hleaves.trans hleaves'⟩

/-- What `recv` returns is dealt with. -/
theorem recvClient_fdOk {received : List UInt8} {m : Option Message} (h : p.FdOk listenfd)
    (hfd : (p.clients i).connfd = some connfd)
    (hrecv : p.recvClient i connfd received = some (p', m)) :
    p'.FdOk listenfd ∧ p.Leaves p' i := by
  obtain ⟨hok, hleaves⟩ := setClient_fdOk (c := (p.clients i).receive received) h hfd rfl rfl
  have hself : (p.setClient i ((p.clients i).receive received)).clients i =
      (p.clients i).receive received := Function.update_self ..
  have hfd' : ((p.setClient i ((p.clients i).receive received)).clients i).connfd = some connfd := by
    rw [hself]
    exact hfd
  simp only [Pool.recvClient] at hrecv
  split at hrecv
  · cases hrecv
  · split at hrecv
    · -- the connection ends
      cases hrecv
      obtain ⟨hok', hleaves'⟩ := closeClient_fdOk hok hfd'
      exact ⟨hok', hleaves.trans hleaves'⟩
    · split at hrecv
      · -- the client names itself
        simp only [Option.map_eq_some_iff] at hrecv
        obtain ⟨c, hname, hrecv⟩ := hrecv
        cases hrecv
        obtain ⟨hconn, hwrite⟩ := setName_keeps hname
        obtain ⟨hok', hleaves'⟩ := setClient_fdOk (c := c) hok hfd' (by rw [hself, hconn])
          (by rw [hself, hwrite])
        exact ⟨hok', hleaves.trans hleaves'⟩
      · -- a message
        cases hrecv
        obtain ⟨hok', hleaves'⟩ := broadcast_fdOk hok i
        exact ⟨hok', hleaves.trans hleaves'⟩

/-! ## The count of what is ready -/

/-- A client selected for writing has a `writeBuf`. -/
theorem Pool.FdOk.writeBuf (h : p.FdOk listenfd) {fd : ℕ} (hfd : (p.clients i).connfd = some fd)
    (hmem : fd ∈ p.writeFds) : (p.clients i).writeBuf ≠ none := by
  intro hnone
  have hclient := h.client i fd hfd
  simp [Pool.watch, Client.watch, hnone, hmem] at hclient

theorem mem_waiting : i ∈ p.waiting k ↔ i < clientFdNumber ∧ k ≤ i ∧ p.ready i ≠ .idle := by
  simp [Pool.waiting]

/-- The slots that are ready are those that were. -/
theorem waiting_congr (h : ∀ j, k ≤ j → p'.ready j = p.ready j) : p'.waiting k = p.waiting k := by
  ext j
  rw [mem_waiting, mem_waiting]
  exact and_congr_right fun _ => and_congr_right fun hj => by rw [h j hj]

/-- Past a slot that is not ready. -/
theorem waiting_idle (h : p.ready k = .idle) : p.waiting (k + 1) = p.waiting k := by
  ext j
  rw [mem_waiting, mem_waiting]
  refine and_congr_right fun _ => ⟨fun ⟨hj, hready⟩ => ⟨by omega, hready⟩, fun ⟨hj, hready⟩ => ?_⟩
  refine ⟨Nat.lt_of_le_of_ne hj ?_, hready⟩
  rintro rfl
  exact hready h

/-- Past a slot that is ready. -/
theorem waiting_succ (hk : k < clientFdNumber) (h : p.ready k ≠ .idle) :
    (p.waiting (k + 1)).card + 1 = (p.waiting k).card := by
  have hnot : k ∉ p.waiting (k + 1) := fun hm => absurd (mem_waiting.mp hm).2.1 (by omega)
  rw [← Finset.card_insert_of_notMem hnot]
  congr 1
  ext j
  rw [Finset.mem_insert, mem_waiting, mem_waiting]
  constructor
  · rintro (rfl | ⟨hlt, hj, hready⟩)
    · exact ⟨hk, le_rfl, h⟩
    · exact ⟨hlt, by omega, hready⟩
  · rintro ⟨hlt, hj, hready⟩
    rcases eq_or_ne j k with rfl | hne
    · exact .inl rfl
    · exact .inr ⟨hlt, by omega, hready⟩

/-- The invariant says nothing of `nready`. -/
theorem Pool.FdOk.passed (h : p.FdOk listenfd) : p.passed.FdOk listenfd :=
  ⟨h.free, h.apart, h.other, h.listening, h.client, h.departed, h.range, h.maxi_lt⟩

/-- The invariant says nothing of what `select` returns. -/
theorem Pool.FdOk.selected (h : p.FdOk listenfd) (read write exception : Finset ℕ) (nready : ℤ) :
    (p.selected read write exception nready).FdOk listenfd :=
  ⟨h.free, h.apart, h.other, h.listening, h.client, h.departed, h.range, h.maxi_lt⟩

/-- A pass that deals with a ready client leaves one less, and counts it off. -/
theorem Pool.Left.next (h : p.Left k) (hk : k < clientFdNumber) (hready : p.ready k ≠ .idle)
    (hleaves : p.passed.Leaves p' k) : p'.Left (k + 1) := by
  have hsame : ∀ j, k + 1 ≤ j → p'.ready j = p.ready j := fun j hj =>
    (hleaves.ready (by omega)).trans (ready_congr rfl rfl rfl rfl)
  refine ⟨?_, ?_⟩
  · intro j fd hj hwrite
    rw [hsame j hj] at hwrite
    exact hleaves.writeBuf j (by omega) (h.writeBuf j fd (by omega) hwrite)
  · have hnready : p'.nready = p.nready - 1 := hleaves.nready
    have hcard := waiting_succ hk hready
    have hcount := h.count
    rw [waiting_congr hsame]
    omega

/-- A pass of the loop of `check_clients`: it goes to the next slot, and finds the slots after as
they were. -/
theorem fdOk_checkClient {s t : State} {received : List UInt8} (h : s.FdOk) (hpc : s.pc = .check k)
    (hcond : (k : ℤ) ≤ s.pool.maxi ∧ 0 < s.pool.nready)
    (hstep : checkClient s k received = some t) :
    t.FdOk ∧ t.pc = .check (k + 1) ∧ ∀ j, k < j → t.pool.ready j = s.pool.ready j := by
  obtain ⟨hsets, hround⟩ := h
  simp only [State.RoundOk, hpc] at hround
  have hk : k < clientFdNumber := by
    have hmaxi := hsets.maxi_lt
    omega
  -- what remains to be shown of a pass that is made
  have hpass : ∀ pool log, s.pool.ready k ≠ .idle →
      pool.FdOk s.listenfd ∧ s.pool.passed.Leaves pool k →
      t = { s with pool, log, pc := .check (k + 1) } →
      t.FdOk ∧ t.pc = .check (k + 1) ∧ ∀ j, k < j → t.pool.ready j = s.pool.ready j := by
    intro pool log hready hkeep heq
    obtain ⟨hok, hleaves⟩ := hkeep
    subst heq
    exact ⟨⟨hok, hround.next hk hready hleaves⟩, rfl, fun j hj =>
      (hleaves.ready (by omega)).trans (ready_congr rfl rfl rfl rfl)⟩
  rcases ready_cases s.pool k with hidle | ⟨connfd, hfd, ⟨hwrite, -⟩ | hread⟩
  · simp only [checkClient, hidle] at hstep
    cases hstep
    refine ⟨⟨hsets, ?_, ?_⟩, rfl, fun j _ => rfl⟩
    · intro j fd hj hready
      exact hround.writeBuf j fd (by omega) hready
    · rw [waiting_idle hidle]
      exact hround.count
  · simp only [checkClient, hwrite, Option.bind_eq_bind, Option.bind_eq_some_iff] at hstep
    obtain ⟨⟨pool, text⟩, hdo, hstep⟩ := hstep
    simp only [Pool.writeClient, Option.bind_eq_bind, Option.bind_eq_some_iff] at hdo
    obtain ⟨_, -, _, -, hdo⟩ := hdo
    cases hdo
    exact hpass _ _ (by rw [hwrite]; nofun) (flushed_fdOk hsets.passed hfd)
      (Option.some.inj hstep).symm
  · simp only [checkClient, hread, Option.bind_eq_bind, Option.bind_eq_some_iff] at hstep
    obtain ⟨⟨pool, m⟩, hrecv, hstep⟩ := hstep
    exact hpass _ _ (by rw [hread]; nofun) (recvClient_fdOk hsets.passed hfd hrecv)
      (Option.some.inj hstep).symm

/-- The loop of `check_clients` does not end before a slot that is ready. -/
theorem State.FdOk.loops {s : State} (h : s.FdOk) (hpc : s.pc = .check k) (hki : k ≤ i)
    (hready : s.pool.ready i ≠ .idle) : (k : ℤ) ≤ s.pool.maxi ∧ 0 < s.pool.nready := by
  obtain ⟨hsets, hround⟩ := h
  simp only [State.RoundOk, hpc] at hround
  obtain ⟨fd, hfd, -⟩ := ready_ne_idle.mp hready
  have hle := (hsets.range i fd hfd).1
  have hmaxi := hsets.maxi_lt
  have hmem : i ∈ s.pool.waiting k := mem_waiting.mpr ⟨by omega, hki, hready⟩
  have hpos : 0 < (s.pool.waiting k).card := Finset.card_pos.mpr ⟨i, hmem⟩
  have hcount := hround.count
  exact ⟨by omega, by omega⟩

/-- The steps `ls` from `s` on make the pass for the client `i`, and it finds the client ready for
what it is ready for in `s`. -/
def Handled (s : State) (ls : List Label) (i : ℕ) : Prop :=
  ∃ as received bs t u, ls = as ++ .check received :: bs ∧ Run Step s as t ∧ t.pc = .check i ∧
    t.pool.ready i = s.pool.ready i ∧ checkClient t i received = some u

/-- Steps that follow do not undo it. -/
theorem Handled.tail {s : State} {ls : List Label} (h : Handled s ls i) (l : Label) :
    Handled s (ls ++ [l]) i := by
  obtain ⟨as, received, bs, t, u, rfl, h⟩ := h
  exact ⟨as, received, bs ++ [l], t, u, by simp, h⟩

/-- How far `check_clients` has come, when it has gone on for the steps `ls` from `s`: what it has
passed it has handled, and what is to come is as it was, until it ends. -/
def Progress (s : State) (ls : List Label) (t : State) : Prop :=
  t.pc = .check ls.length ∧ (∀ i, ls.length ≤ i → t.pool.ready i = s.pool.ready i) ∧
      (∀ i < ls.length, s.pool.ready i ≠ .idle → Handled s ls i) ∨
    t.pc = .select ∧ ∀ i, s.pool.ready i ≠ .idle → Handled s ls i

/-- A step of `check_clients` more. -/
theorem Progress.step {s t u : State} {ls : List Label} {received : List UInt8} (ht : t.FdOk)
    (hrun : Run Step s ls t) (h : Progress s ls t) (hstep : Step t (.check received) u) :
    Progress s (ls ++ [.check received]) u := by
  rcases h with ⟨hpc, hsame, hhandled⟩ | ⟨hpc, -⟩
  · simp only [Step, next, hpc] at hstep
    split at hstep
    · rename_i hcond
      obtain ⟨-, hpc', hready⟩ := fdOk_checkClient ht hpc hcond hstep
      refine .inl ⟨by simp [hpc'], ?_, ?_⟩
      · intro i hi
        rw [List.length_append, List.length_singleton] at hi
        exact (hready i (by omega)).trans (hsame i (by omega))
      · intro i hi hne
        rw [List.length_append, List.length_singleton] at hi
        rcases Nat.lt_or_ge i ls.length with hlt | hge
        · exact (hhandled i hlt hne).tail _
        · obtain rfl : i = ls.length := by omega
          exact ⟨ls, received, [], t, u, rfl, hrun, hpc, hsame _ le_rfl, hstep⟩
    · rename_i hends
      cases hstep
      refine .inr ⟨rfl, ?_⟩
      intro i hne
      rcases Nat.lt_or_ge i ls.length with hlt | hge
      · exact (hhandled i hlt hne).tail _
      · rw [← hsame i hge] at hne
        exact absurd (ht.loops hpc hge hne) hends
  · simp only [Step, next, hpc] at hstep
    cases hstep

end Chat

end Ulsp
