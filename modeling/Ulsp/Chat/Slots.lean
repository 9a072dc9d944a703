import Ulsp.Chat.ServerOps

/-!
# The slots of the select chat server

What holds of the slots between any two steps that take in text as it should be: which clients are in
them, and which of these are selected for writing. Slots change one at a time (`Slots.update`), but
for a broadcast, which changes those of all other named clients (`Slots.broadcast`).
-/

namespace Ulsp

open Lib

namespace Chat

variable {p p' : Pool} {i j k connfd conns : ℕ} {received : List UInt8}

/-- A slot: a free one is as `init_client` leaves it in what is read of it before a name is set, and
a named client's `buf` starts with its name. -/
structure Client.Ok (c : Client) : Prop where
  free : c.connfd = none → c.welcome = true
  unnamed : c.welcome = true → c.data = 0 ∧ c.writeBuf = none
  header : c.welcome = false → c.buf.take c.data = c.nick ++ [58, 32] ∧ 0 ∉ c.nick

/-- Two clients have different descriptors and are different connections. -/
def Client.Apart (c c' : Client) : Prop :=
  ∀ fd fd', c.connfd = some fd → c'.connfd = some fd' → fd ≠ fd' ∧ c.conn ≠ c'.conn

/-- The slots: connected clients are told apart and are within `maxi`, and the descriptors selected
for writing are those of the clients with a `writeBuf`. -/
structure Slots (p : Pool) (conns : ℕ) : Prop where
  client : ∀ i, (p.clients i).Ok
  apart : ∀ i j, i ≠ j → (p.clients i).Apart (p.clients j)
  place : ∀ i fd, (p.clients i).connfd = some fd →
    (i : ℤ) ≤ p.maxi ∧ (p.clients i).conn < conns ∧
      (fd ∈ p.writeFds ↔ (p.clients i).writeBuf ≠ none)
  maxi_lt : p.maxi < clientFdNumber
  served : ∀ fd ∈ p.writeFds, ∃ i, (p.clients i).connfd = some fd

/-- Only a connected client has a `writeBuf`. -/
theorem Client.Ok.connected {c : Client} (h : c.Ok) (hc : c.writeBuf ≠ none) :
    ∃ fd, c.connfd = some fd :=
  Option.ne_none_iff_exists'.mp fun hfree => hc (h.unnamed (h.free hfree)).2

theorem Client.Apart.symm {c c' : Client} (h : c.Apart c') : c'.Apart c := fun fd fd' hc hc' =>
  ⟨(h fd' fd hc' hc).1.symm, (h fd' fd hc' hc).2.symm⟩

/-- A connected client is in one of the slots. -/
theorem Slots.lt (h : Slots p conns) (hi : (p.clients i).connfd = some connfd) :
    i < clientFdNumber := by
  have h₁ := (h.place i connfd hi).1
  have h₂ := h.maxi_lt
  omega

/-- One slot changes, and `writeFds` with it. -/
theorem Slots.update {conns' : ℕ} {c : Client} (h : Slots p conns) (hconns : conns ≤ conns')
    (hclients : p'.clients = Function.update p.clients i c) (hok : c.Ok)
    (hapart : ∀ j, j ≠ i → c.Apart (p.clients j))
    (hmaxi : p.maxi ≤ p'.maxi) (hlt : p'.maxi < clientFdNumber)
    (hplace : ∀ fd, c.connfd = some fd →
      (i : ℤ) ≤ p'.maxi ∧ c.conn < conns' ∧ (fd ∈ p'.writeFds ↔ c.writeBuf ≠ none))
    (hfds : ∀ fd, c.connfd ≠ some fd → (p.clients i).connfd ≠ some fd →
      (fd ∈ p'.writeFds ↔ fd ∈ p.writeFds))
    (hgone : ∀ fd, c.connfd ≠ some fd → (p.clients i).connfd = some fd → fd ∉ p'.writeFds) :
    Slots p' conns' := by
  have hself : p'.clients i = c := by rw [hclients, Function.update_self]
  have hother : ∀ j, j ≠ i → p'.clients j = p.clients j := fun j hj => by
    rw [hclients, Function.update_of_ne hj]
  refine ⟨?_, ?_, ?_, hlt, ?_⟩
  · intro j
    rcases eq_or_ne j i with rfl | hj
    · rwa [hself]
    · rw [hother j hj]
      exact h.client j
  · intro j k hjk
    rcases eq_or_ne j i with rfl | hj
    · rw [hself, hother k hjk.symm]
      exact hapart k hjk.symm
    · rcases eq_or_ne k i with rfl | hk
      · rw [hself, hother j hj]
        exact (hapart j hj).symm
      · rw [hother j hj, hother k hk]
        exact h.apart j k hjk
  · intro j fd hj
    rcases eq_or_ne j i with rfl | hji
    · rw [hself] at hj ⊢
      exact hplace fd hj
    · rw [hother j hji] at hj ⊢
      obtain ⟨hle, hlt, hiff⟩ := h.place j fd hj
      refine ⟨by omega, by omega, (hfds fd ?_ ?_).trans hiff⟩
      · intro hc
        exact (hapart j hji fd fd hc hj).1 rfl
      · intro hi
        exact (h.apart i j hji.symm fd fd hi hj).1 rfl
  · intro fd hfd
    by_cases hc : c.connfd = some fd
    · exact ⟨i, by rw [hself, hc]⟩
    · by_cases hi : (p.clients i).connfd = some fd
      · exact absurd hfd (hgone fd hc hi)
      · obtain ⟨j, hj⟩ := h.served fd ((hfds fd hc hi).mp hfd)
        have hji : j ≠ i := by
          rintro rfl
          exact hi hj
        exact ⟨j, by rw [hother j hji, hj]⟩

/-- A connection is accepted. -/
theorem Slots.add (h : Slots p conns) (hunused : ∀ i, (p.clients i).connfd ≠ some connfd)
    (hadd : addClient connfd conns p = some p') : Slots p' (conns + 1) := by
  obtain ⟨i, hi, hfree, hclients, hwrite, -, hmaxi⟩ := addClient_some hadd
  obtain ⟨free, unnamed, header⟩ := h.client i
  have hlt := h.maxi_lt
  have hnone := (unnamed (free hfree)).2
  have hnot : connfd ∉ p.writeFds := fun hm => by
    obtain ⟨j, hj⟩ := h.served connfd hm
    exact hunused j hj
  refine h.update (Nat.le_succ conns) hclients ⟨nofun, unnamed, header⟩ ?_
    (by omega) (by simp only [hmaxi]; omega) ?_ (fun fd _ _ => by rw [hwrite])
    ?_
  · intro j hj fd fd' hfd hfd'
    cases hfd
    have hconn := (h.place j fd' hfd').2.1
    exact ⟨by rintro rfl; exact hunused j hfd', by simp only; omega⟩
  · intro fd hfd
    cases hfd
    exact ⟨by omega, Nat.lt_succ_self conns, by simp [hwrite, hnot, hnone]⟩
  · intro fd _ hfd
    rw [hfree] at hfd
    cases hfd

/-- What the loop of `check_clients` that broadcasts leaves: every other named client has the sender's
`buf` as `writeBuf`. -/
theorem broadcast_spec (hs : Slots p conns) (c : Client) :
    (∀ k, ((p.setClient i c).broadcast i).clients k =
      if k = i then c else if p.Addressed i k then (p.clients k).waitFor i else p.clients k) ∧
    (∀ fd, fd ∈ ((p.setClient i c).broadcast i).writeFds ↔
      fd ∈ p.writeFds ∨ ∃ k, p.Addressed i k ∧ (p.clients k).connfd = some fd) ∧
    ((p.setClient i c).broadcast i).readyWriteFds = p.readyWriteFds ∧
    ((p.setClient i c).broadcast i).maxi = p.maxi := by
  obtain ⟨hclients, hfds, hready, hmaxi⟩ := foldl_address_spec i
    (List.range ((p.setClient i c).maxi + 1).toNat) (p.setClient i c)
  have hother : ∀ k, k ≠ i → (p.setClient i c).clients k = p.clients k := fun k hk =>
    Function.update_of_ne hk _ _
  have haddr : ∀ k, (p.setClient i c).Addressed i k ↔ p.Addressed i k := fun k => by
    rcases eq_or_ne k i with rfl | hk
    · simp [Pool.Addressed]
    · simp only [Pool.Addressed, hother k hk]
  have hrange : ∀ k, p.Addressed i k →
      k ∈ List.range ((p.setClient i c).maxi + 1).toNat := fun k hk => by
    obtain ⟨fd, hfd⟩ := Option.ne_none_iff_exists'.mp hk.2.1
    have hle : (k : ℤ) ≤ (p.setClient i c).maxi := (hs.place k fd hfd).1
    exact List.mem_range.mpr (by omega)
  refine ⟨?_, ?_, hready, hmaxi⟩
  · intro k
    refine (hclients k).trans ?_
    simp only [haddr]
    rcases eq_or_ne k i with rfl | hk
    · simp [Pool.Addressed, Pool.setClient]
    · rw [if_neg hk, hother k hk]
      by_cases hk' : p.Addressed i k
      · rw [if_pos ⟨hrange k hk', hk'⟩, if_pos hk']
      · rw [if_neg fun h => hk' h.2, if_neg hk']
  · intro fd
    refine (hfds fd).trans (or_congr .rfl ⟨?_, ?_⟩)
    · rintro ⟨k, -, hk, hkfd⟩
      rw [haddr] at hk
      exact ⟨k, hk, by rwa [hother k hk.1] at hkfd⟩
    · rintro ⟨k, hk, hkfd⟩
      exact ⟨k, hrange k hk, (haddr k).mpr hk, by rwa [hother k hk.1]⟩

/-- The connections a message is for. -/
theorem mem_dest {c : Client} (hs : Slots p conns) {d : ℕ} :
    d ∈ ((p.setClient i c).others i).map (fun j => ((p.setClient i c).clients j).conn) ↔
      ∃ j, p.Addressed i j ∧ (p.clients j).conn = d := by
  have hother : ∀ k, k ≠ i → (p.setClient i c).clients k = p.clients k := fun k hk =>
    Function.update_of_ne hk _ _
  simp only [Pool.others, List.mem_map, List.mem_filter, List.mem_range, decide_eq_true_eq]
  refine ⟨?_, ?_⟩
  · rintro ⟨j, ⟨-, hj, hconn, hnamed⟩, hd⟩
    rw [hother j hj] at hconn hnamed hd
    exact ⟨j, ⟨hj, hconn, hnamed⟩, hd⟩
  · rintro ⟨j, ⟨hj, hconn, hnamed⟩, hd⟩
    obtain ⟨fd, hfd⟩ := Option.ne_none_iff_exists'.mp hconn
    refine ⟨j, ⟨hs.lt hfd, hj, ?_, ?_⟩, ?_⟩ <;> rwa [hother j hj]

/-- The slots hold the same connections after a broadcast. -/
theorem broadcast_conn (hs : Slots p conns) (received : List UInt8) (k : ℕ) :
    (((p.setClient i ((p.clients i).receive received)).broadcast i).clients k).connfd =
        (p.clients k).connfd ∧
      (((p.setClient i ((p.clients i).receive received)).broadcast i).clients k).conn =
        (p.clients k).conn := by
  obtain ⟨hclients, -, -, -⟩ := broadcast_spec hs (i := i) ((p.clients i).receive received)
  rw [hclients]
  rcases eq_or_ne k i with rfl | hk
  · rw [if_pos rfl]
    exact ⟨rfl, rfl⟩
  · rw [if_neg hk]
    split <;> exact ⟨rfl, rfl⟩

/-- A broadcast leaves the `buf`s of the other clients as they are. -/
theorem broadcast_buf (hs : Slots p conns) (c : Client) {k : ℕ} (hk : k ≠ i) :
    (((p.setClient i c).broadcast i).clients k).welcome = (p.clients k).welcome ∧
      (((p.setClient i c).broadcast i).clients k).buf = (p.clients k).buf := by
  obtain ⟨hclients, -, -, -⟩ := broadcast_spec hs (i := i) c
  rw [hclients, if_neg hk]
  split <;> exact ⟨rfl, rfl⟩

/-- The slots after a broadcast. -/
theorem Slots.broadcast (hs : Slots p conns) :
    Slots ((p.setClient i ((p.clients i).receive received)).broadcast i) conns := by
  obtain ⟨hclients, hfds, -, hmaxi⟩ := broadcast_spec hs (i := i)
    ((p.clients i).receive received)
  have hsame := broadcast_conn hs (i := i) received
  refine ⟨?_, ?_, ?_, hmaxi ▸ hs.maxi_lt, ?_⟩
  · intro k
    rw [hclients]
    rcases eq_or_ne k i with rfl | hk
    · obtain ⟨free, unnamed, header⟩ := hs.client k
      rw [if_pos rfl]
      refine ⟨free, unnamed, fun hw => ⟨?_, (header hw).2⟩⟩
      refine Eq.trans ?_ (header hw).1
      exact Buffer.take_store_prefix.trans Buffer.take_clearFrom
    · rw [if_neg hk]
      obtain ⟨free, unnamed, header⟩ := hs.client k
      split
      · rename_i haddr
        refine ⟨free, ?_, header⟩
        intro hw
        exact Bool.noConfusion (haddr.2.2.symm.trans hw)
      · exact ⟨free, unnamed, header⟩
  · intro j k hjk
    rw [Client.Apart, (hsame j).1, (hsame k).1, (hsame j).2, (hsame k).2]
    exact hs.apart j k hjk
  · intro k fd hk
    rw [(hsame k).1] at hk
    obtain ⟨hle, hlt, hiff⟩ := hs.place k fd hk
    rw [hmaxi, (hsame k).2, hfds]
    refine ⟨hle, hlt, ?_⟩
    have hkey : (∃ j, p.Addressed i j ∧ (p.clients j).connfd = some fd) ↔ p.Addressed i k := by
      refine ⟨?_, fun haddr => ⟨k, haddr, hk⟩⟩
      rintro ⟨j, haddr, hj⟩
      rcases eq_or_ne j k with rfl | hjk
      · exact haddr
      · exact absurd rfl (hs.apart j k hjk fd fd hj hk).1
    rw [hkey, hiff, hclients]
    rcases eq_or_ne k i with rfl | hki
    · simp [Pool.Addressed, Client.receive]
    · rw [if_neg hki]
      by_cases haddr : p.Addressed i k
      · simp [haddr, Client.waitFor]
      · simp [haddr]
  · intro fd hfd
    rcases (hfds fd).mp hfd with hold | ⟨k, -, hk⟩
    · obtain ⟨k, hk⟩ := hs.served fd hold
      exact ⟨k, (hsame k).1.trans hk⟩
    · exact ⟨k, (hsame k).1.trans hk⟩

end Chat

end Ulsp
