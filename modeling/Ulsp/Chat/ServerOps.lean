import Ulsp.Chat.Server

/-!
# What the operations of the select chat server change

One lemma for each operation: which fields of the pool it writes, and for the tests on a client which
of them it reads. The proofs about the server use these and do not unfold the operations.
-/

namespace Ulsp

open Lib

namespace Chat

variable {p p' : Pool} {i j k connfd conns : ℕ}

/-! ## A new client and its name -/

/-- `add_client` fills a free slot. -/
theorem addClient_eq (h : addClient connfd conns p = some p') : ∃ i < clientFdNumber,
    (p.clients i).connfd = none ∧ p' = { p with
      nready := p.nready - 1
      clients := Function.update p.clients i { p.clients i with connfd := some connfd, conn := conns }
      readFds := insert connfd p.readFds
      exceptionFds := insert connfd p.exceptionFds
      maxfd := max p.maxfd connfd
      maxi := max p.maxi i } := by
  unfold addClient at h
  split at h
  · cases h
  · rename_i i hfind
    have hfree := List.find?_some hfind
    have hmem := List.mem_of_find?_eq_some hfind
    exact ⟨i, List.mem_range.mp hmem, by simpa using hfree, (Option.some.inj h).symm⟩

/-- What `add_client` changes of the clients and leaves of the sets for writing. -/
theorem addClient_some (h : addClient connfd conns p = some p') : ∃ i < clientFdNumber,
    (p.clients i).connfd = none ∧ p'.clients =
      Function.update p.clients i { p.clients i with connfd := some connfd, conn := conns } ∧
    p'.writeFds = p.writeFds ∧ p'.readyWriteFds = p.readyWriteFds ∧ p'.maxi = max p.maxi i := by
  obtain ⟨i, hi, hfree, rfl⟩ := addClient_eq h
  exact ⟨i, hi, hfree, rfl, rfl, rfl, rfl⟩

/-- A name changes neither the descriptor of a client nor its `writeBuf`. -/
theorem setName_keeps {c c' : Client} {received : List UInt8} (h : c.setName received = some c') :
    c'.connfd = c.connfd ∧ c'.writeBuf = c.writeBuf := by
  simp only [Client.setName, Option.bind_eq_bind, Option.bind_eq_some_iff] at h
  obtain ⟨⟨b, n⟩, -, h⟩ := h
  split at h
  · cases h
  · cases h
    exact ⟨rfl, rfl⟩

/-! ## The tests on a client -/

/-- What the tests on a client found. -/
theorem ready_cases (p : Pool) (i : ℕ) : p.ready i = .idle ∨
    ∃ connfd, (p.clients i).connfd = some connfd ∧
      (p.ready i = .write connfd ∧ connfd ∈ p.readyWriteFds ∨ p.ready i = .read connfd) := by
  unfold Pool.ready
  cases hfd : (p.clients i).connfd with
  | none => exact .inl rfl
  | some connfd =>
    simp only
    split
    · exact .inr ⟨connfd, rfl, .inl ⟨rfl, ‹_›⟩⟩
    · split
      · exact .inr ⟨connfd, rfl, .inr rfl⟩
      · exact .inl rfl

/-- A ready client's descriptor is among what `select` found. -/
theorem ready_ne_idle : p.ready i ≠ .idle ↔ ∃ fd, (p.clients i).connfd = some fd ∧
    fd ∈ p.readyReadFds ∪ p.readyWriteFds ∪ p.readyExceptionFds := by
  unfold Pool.ready
  cases hfd : (p.clients i).connfd with
  | none => simp
  | some connfd =>
    simp only [Option.some.injEq, exists_eq_left', Finset.mem_union]
    by_cases hwrite : connfd ∈ p.readyWriteFds
    · simp [hwrite]
    · by_cases hread : connfd ∈ p.readyReadFds ∨ connfd ∈ p.readyExceptionFds
      · simp [hwrite, hread]
      · simp [hwrite, hread]

/-- The tests on a client read its descriptor and what `select` found. -/
theorem ready_congr (hconn : (p'.clients j).connfd = (p.clients j).connfd)
    (hread : p'.readyReadFds = p.readyReadFds) (hwrite : p'.readyWriteFds = p.readyWriteFds)
    (hexception : p'.readyExceptionFds = p.readyExceptionFds) : p'.ready j = p.ready j := by
  simp only [Pool.ready, hconn, hread, hwrite, hexception]

/-! ## The loop that broadcasts -/

/-- The client `j` gets what the client `i` sends. -/
def Pool.Addressed (p : Pool) (i j : ℕ) : Prop :=
  j ≠ i ∧ (p.clients j).connfd ≠ none ∧ (p.clients j).welcome = false

instance : Decidable (p.Addressed i j) := by
  unfold Pool.Addressed
  infer_instance

/-- A client that gets what the client `i` sends. -/
def Client.waitFor (c : Client) (i : ℕ) : Client := { c with writeBuf := some i }

/-- One pass of the loop: a client that gets the message is selected for writing only. -/
theorem address_cases (p : Pool) (i j : ℕ) :
    ¬ p.Addressed i j ∧ p.address i j = p ∨
    ∃ fd, p.Addressed i j ∧ (p.clients j).connfd = some fd ∧ p.address i j =
      { p.setClient j ((p.clients j).waitFor i) with
        writeFds := insert fd p.writeFds
        readFds := p.readFds.erase fd
        exceptionFds := p.exceptionFds.erase fd } := by
  unfold Pool.address
  cases hfd : (p.clients j).connfd with
  | none => exact .inl ⟨fun h => h.2.1 hfd, rfl⟩
  | some connfd =>
    simp only
    split
    · rename_i hskip
      refine .inl ⟨?_, rfl⟩
      rintro ⟨hne, -, hnamed⟩
      simp [hne, hnamed] at hskip
    · rename_i hskip
      refine .inr ⟨connfd, ⟨fun h => hskip (.inl h), by simp [hfd], ?_⟩, rfl, rfl⟩
      simpa using fun h => hskip (.inr h)

/-- What a pass changes of the clients and the set for writing. -/
theorem address_spec (p : Pool) (i j : ℕ) :
    ((p.address i j).clients =
      Function.update p.clients j
        (if p.Addressed i j then (p.clients j).waitFor i else p.clients j)) ∧
    (∀ fd, fd ∈ (p.address i j).writeFds ↔
      fd ∈ p.writeFds ∨ p.Addressed i j ∧ (p.clients j).connfd = some fd) ∧
    (p.address i j).readyWriteFds = p.readyWriteFds ∧ (p.address i j).maxi = p.maxi := by
  obtain ⟨hnot, heq⟩ | ⟨fd, haddr, hfd, heq⟩ := address_cases p i j
  · rw [heq]
    simp [hnot]
  · rw [heq]
    simp [haddr, hfd, Pool.setClient, or_comm, eq_comm]

/-- All passes. -/
theorem foldl_address_spec (i : ℕ) (js : List ℕ) (p : Pool) :
    (∀ k, (js.foldl (Pool.address i) p).clients k =
      if k ∈ js ∧ p.Addressed i k then (p.clients k).waitFor i else p.clients k) ∧
    (∀ fd, fd ∈ (js.foldl (Pool.address i) p).writeFds ↔
      fd ∈ p.writeFds ∨ ∃ k ∈ js, p.Addressed i k ∧ (p.clients k).connfd = some fd) ∧
    (js.foldl (Pool.address i) p).readyWriteFds = p.readyWriteFds ∧
    (js.foldl (Pool.address i) p).maxi = p.maxi := by
  induction js generalizing p with
  | nil => simp
  | cons j js ih =>
    obtain ⟨hclients, hfds, hready, hmaxi⟩ := address_spec p i j
    obtain ⟨ihclients, ihfds, ihready, ihmaxi⟩ := ih (p.address i j)
    have hsame : ∀ k, ((p.address i j).clients k).connfd = (p.clients k).connfd ∧
        ((p.address i j).clients k).welcome = (p.clients k).welcome := fun k => by
      rw [hclients]
      rcases eq_or_ne k j with rfl | hk
      · rw [Function.update_self]
        split <;> exact ⟨rfl, rfl⟩
      · rw [Function.update_of_ne hk]
        exact ⟨rfl, rfl⟩
    have haddr : ∀ k, (p.address i j).Addressed i k ↔ p.Addressed i k := fun k => by
      simp only [Pool.Addressed, hsame]
    refine ⟨?_, ?_, ihready.trans hready, ihmaxi.trans hmaxi⟩
    · intro k
      rw [List.foldl_cons, ihclients]
      simp only [haddr, hclients, List.mem_cons]
      rcases eq_or_ne k j with rfl | hk
      · rw [Function.update_self]
        by_cases hk : p.Addressed i k <;> simp [hk, Client.waitFor]
      · rw [Function.update_of_ne hk]
        simp [hk]
    · intro fd
      rw [List.foldl_cons, ihfds]
      simp only [haddr, hsame, hfds, List.mem_cons, exists_eq_or_imp, or_assoc]

/-! ## The steps -/

/-- The steps of the server, as `next` makes them. -/
inductive ServerStep (s : State) : Label → State → Prop
  | select (read write exception : Finset ℕ) : s.pc = .select →
    s.pool.Selects read write exception → ServerStep s (.select read write exception)
      { s with
        pool := s.pool.selected read write exception (read.card + write.card + exception.card)
        pc := if s.listenfd ∈ read then .accept else .check 0 }
  | stop (l : Label) : ServerStep s l { s with pc := .stopped }
  | accept (connfd : ℕ) (pool : Pool) : s.pc = .accept → s.Unused connfd →
    addClient connfd s.conns s.pool = some pool → ServerStep s (.accept (some connfd))
      { s with pool, conns := s.conns + 1, pc := .check 0 }
  | check (i : ℕ) (received : List UInt8) (t : State) : s.pc = .check i →
    (i : ℤ) ≤ s.pool.maxi ∧ 0 < s.pool.nready → checkClient s i received = some t →
    ServerStep s (.check received) t
  | done (i : ℕ) (received : List UInt8) : s.pc = .check i →
    ¬ ((i : ℤ) ≤ s.pool.maxi ∧ 0 < s.pool.nready) →
    ServerStep s (.check received) { s with pc := .select }

/-- A step is one of those. -/
theorem step_cases {s t : State} {l : Label} (h : Step s l t) : ServerStep s l t := by
  simp only [Step, next] at h
  split at h
  · split at h
    · cases h
      exact .select _ _ _ ‹_› ‹_›
    · cases h
  · cases h
    exact .stop _
  · cases h
    exact .stop _
  · split at h
    · split at h
      · cases h
        exact .stop _
      · cases h
        exact .accept _ _ ‹_› ‹_› ‹_›
    · cases h
  · split at h
    · exact .check _ _ _ ‹_› ‹_› h
    · cases h
      exact .done _ _ ‹_› ‹_›
  · split at h
    · split at h
      · cases h
        exact .stop _
      · cases h
    · cases h
  · cases h

/-! ## A run -/

/-- Two clients connect and name themselves, and the first one sends a message. -/
def oneMessage : List Label :=
  [.select {3} ∅ ∅, .accept (some 4), .check [], .select {3} ∅ ∅, .accept (some 5), .check [],
    .select {4, 5} ∅ ∅, .check [97, 10], .check [98], .check [], .select {4} ∅ ∅, .check [120],
    .check [], .select ∅ {5} ∅, .check [], .check [], .check []]

end Chat

end Ulsp
