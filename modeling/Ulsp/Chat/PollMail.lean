import Mathlib.Algebra.Order.Ring.Int
import Mathlib.Data.List.Perm.Subperm
import Ulsp.Chat.PollTable

/-!
# What the poll chat server sends

A client to which a message is to be sent only keeps a pointer to its sender's `buf`. When a client
goes the data of the last one are copied over its own, `buf` included, so a client that has not been
sent the message yet is sent what the last client said before: a message it may have got already, or
its own (`own_message`). After a failed `recv` that text is even announced to all. Where the text
that is copied is `Faithful` to what is awaited, and no text is cut short by a zero byte, every
client is sent messages of others only, each once.
-/

namespace Ulsp

open Lib

namespace PollChat

variable {s t : State} {i j fd a : ℤ}

/-- The texts sent to a connection are messages from others, each sent once. -/
def Log.Integral (log : Log) : Prop := ∀ conn, (log.outbox conn).Subperm (log.inbox conn)

/-! ## The condition -/

/-- The text in the `buf` of a user. -/
def State.text (s : State) (fd : ℤ) : Option (List UInt8) := (s.users fd).buf.cstring bufsize

/-- The user at the place `j` is to be sent what is in the `buf` of `fd`. -/
def State.Awaits (s : State) (j fd : ℤ) : Prop :=
  .pollout ∈ (s.fds j).events ∧ (s.users (s.key j)).writeBuf = some fd

instance (s : State) (j fd : ℤ) : Decidable (s.Awaits j fd) := by
  unfold State.Awaits
  infer_instance

/-- The user at the place `i` may go: it is the last one, or nobody awaits its text, or the text of
the last one is empty or the same. -/
def State.MayLeave (s : State) (i : ℤ) : Prop :=
  i = s.userCount ∨ (∀ j ∈ places 1 s.userCount, j ≠ i → ¬ s.Awaits j (s.key i)) ∨
    s.text (s.key s.userCount) = some [] ∨ s.text (s.key s.userCount) = s.text (s.key i)

instance (s : State) (i : ℤ) : Decidable (s.MayLeave i) := by
  unfold State.MayLeave
  infer_instance

/-- The user at the place `i` may get this from `recv`: an error that ends the connection when it is
the last one or the text of the last one is empty, and text that a zero byte does not cut short when
there is anybody to send it to. -/
def State.MayReceive (s : State) (i : ℤ) : Recv → Prop
  | .again => True
  | .fails => i = s.userCount ∨ s.text (s.key s.userCount) = some []
  | .data received => 0 ∉ received ∨ received.head? = some 0 ∨ s.userCount = 1

instance (s : State) (i : ℤ) (recv : Recv) : Decidable (s.MayReceive i recv) := by
  cases recv <;> unfold State.MayReceive <;> infer_instance

/-- The condition on a step. -/
def Faithful (s : State) : Label → Prop
  | .pass _ recv =>
    match s.pc with
    | .loop i => (s.Leaves i → s.MayLeave i) ∧ (s.Receives i → s.MayReceive i recv)
    | _ => True
  | _ => True

instance (s : State) (l : Label) : Decidable (Faithful s l) := by
  unfold Faithful
  split
  · split <;> infer_instance
  · infer_instance

/-! ## The invariant -/

/-- The text in the `buf` of `fd`, if any, may be sent to the user at the place `j` next. -/
def State.Fits (s : State) (j fd : ℤ) : Prop :=
  ∃ text, s.text fd = some text ∧ (text ≠ [] →
    (s.log.outbox (s.conn (s.key j)) ++ [text]).Sublist (s.log.inbox (s.conn (s.key j))))

/-- What the user at the place `j` is to be sent is in the `buf` of another. -/
def State.Held (s : State) (j : ℤ) : Prop :=
  ∃ fd, (s.users (s.key j)).writeBuf = some fd ∧ fd ≠ s.key j ∧ s.Fits j fd

/-- The texts sent to a connection are messages from others, in order, and so is what is held for
it. -/
structure State.Mail (s : State) : Prop where
  conn_lt : ∀ fd ∈ s.opened, s.conn fd < s.conns
  conn_inj : ∀ fd ∈ s.opened, ∀ fd' ∈ s.opened, s.conn fd = s.conn fd' → fd = fd'
  sent : ∀ c, (s.log.outbox c).Sublist (s.log.inbox c)
  held : ∀ j, 1 ≤ j → j ≤ s.userCount → .pollout ∈ (s.fds j).events → s.Held j

/-- The places to come that `poll` reported ready to be sent to still are. -/
def State.Due (s : State) (i : ℤ) : Prop :=
  ∀ j, i ≤ j → j ≤ s.userCount → .pollout ∈ (s.fds j).revents → .pollout ∈ (s.fds j).events

/-- The invariant. -/
structure State.MailOk (s : State) : Prop where
  mail : s.Mail
  due : ∀ i, s.pc = .loop i → s.Due i

/-- Users at two places are different connections. -/
theorem State.Mail.conn_ne (h : s.Mail) (htable : s.Table) (hi : 1 ≤ i) (hin : i ≤ s.userCount)
    (hj : 1 ≤ j) (hjn : j ≤ s.userCount) (hne : s.key i ≠ s.key j) :
    s.conn (s.key i) ≠ s.conn (s.key j) := by
  intro heq
  exact hne (h.conn_inj _ ((htable.lists.mem _).mpr ⟨i, hi, hin, rfl⟩) _
    ((htable.lists.mem _).mpr ⟨j, hj, hjn, rfl⟩) heq)

/-! ## The log -/

/-- The log with a message received. -/
def Log.receive (log : Log) (c : ℕ) (text : List UInt8) : Log :=
  { log with received := log.received ++ [(c, text)] }

/-- What arrives goes to the inbox of its sender only. -/
@[simp]
theorem inbox_receive (log : Log) (c c' : ℕ) (text : List UInt8) :
    (log.receive c' text).inbox c = log.inbox c ++ if c' = c then [] else [text] := by
  simp only [Log.inbox, Log.receive, List.filter_append, List.map_append]
  by_cases hc : c' = c <;> simp [hc]

/-- Sending does not change an inbox. -/
@[simp]
theorem inbox_sent (log : Log) (c : ℕ) (ms : List (ℕ × List UInt8)) :
    Log.inbox { log with sent := ms } c = log.inbox c := rfl

/-- What is sent goes to the outbox of its receiver only. -/
@[simp]
theorem outbox_sent (log : Log) (c c' : ℕ) (text : List UInt8) :
    Log.outbox { log with sent := log.sent ++ [(c', text)] } c =
      log.outbox c ++ if c' = c ∧ text ≠ [] then [text] else [] := by
  simp only [Log.outbox, List.filter_append, List.map_append]
  by_cases hc : c' = c ∧ text ≠ [] <;> simp [hc]

/-! ## The `buf`s -/

/-- The text in a `buf` after a `recv`. -/
theorem text_fill (s : State) (fd : ℤ) {received : List UInt8} (hlen : received.length < bufsize)
    (hnul : 0 ∉ received) : (s.fill fd received).text fd = some received := by
  have hholds := Buffer.holds_store (b := (s.users fd).buf) (i := 0) (by simp [Buffer.take]) hnul
  simp only [State.text, State.fill, Function.update_self]
  exact Buffer.Holds.cstring hholds hlen

/-- Text that starts with a zero byte is empty. -/
theorem text_fill_nul (s : State) (fd : ℤ) {received : List UInt8}
    (hnul : received.head? = some 0) : (s.fill fd received).text fd = some [] := by
  obtain ⟨rest, rfl⟩ := List.head?_eq_some_iff.mp hnul
  simp only [State.text, State.fill, Function.update_self]
  refine Buffer.Holds.cstring ⟨rfl, ?_, List.not_mem_nil⟩ (by decide)
  simp [Buffer.store]

/-- Filling the buffer of one descriptor leaves the text of another. -/
theorem text_fill_ne (s : State) (received : List UInt8) (h : fd ≠ a) :
    (s.fill a received).text fd = s.text fd := by
  simp only [State.text, State.fill, Function.update_of_ne h]

/-- Filling a buffer changes no `write_buf`. -/
theorem writeBuf_fill (s : State) (a : ℤ) (received : List UInt8) (fd : ℤ) :
    ((s.fill a received).users fd).writeBuf = (s.users fd).writeBuf := by
  rcases eq_or_ne fd a with rfl | hne
  · simp [State.fill]
  · simp [State.fill, hne]

/-- A `recv` keeps the invariant if what it leaves may be sent to those that await it. -/
theorem mail_fill {received : List UInt8} (h : s.Mail)
    (hfits : ∀ j, 1 ≤ j → j ≤ s.userCount → s.key j ≠ a → (s.fill a received).Fits j a) :
    (s.fill a received).Mail := by
  refine ⟨h.conn_lt, h.conn_inj, h.sent, ?_⟩
  intro j hj hjn hout
  obtain ⟨fd, hfd, hne, hold⟩ := h.held j hj hjn hout
  refine ⟨fd, (writeBuf_fill s a received _).trans hfd, hne, ?_⟩
  rcases eq_or_ne fd a with rfl | hfda
  · exact hfits j hj hjn hne.symm
  · obtain ⟨text, htext, hsub⟩ := hold
    exact ⟨text, (text_fill_ne s received hfda).trans htext, hsub⟩

/-! ## The loop that broadcasts -/

/-- What the loop has done when it is past the place `n`. -/
structure Announced (s t : State) (a n : ℤ) : Prop where
  frame : t = { s with users := t.users, fds := t.fds }
  told : ∀ j, 1 ≤ j → j ≤ n → s.key j ≠ a → t.fds j =
    { s.fds j with events := insert .pollout ((s.fds j).events.erase .pollin) }
  spared : ∀ j, ¬ (1 ≤ j ∧ j ≤ n ∧ s.key j ≠ a) → t.fds j = s.fds j
  pointed : ∀ fd, Among s.key 1 n fd → fd ≠ a → t.users fd = { s.users fd with writeBuf := some a }
  other : ∀ fd, ¬ (Among s.key 1 n fd ∧ fd ≠ a) → t.users fd = s.users fd

/-- One pass more. -/
theorem Announced.step {n : ℤ} (h : Announced s t a n) (hn : 0 ≤ n) :
    Announced s (t.announce a (n + 1)) a (n + 1) := by
  have hlast : ∀ fd, Among s.key 1 (n + 1) fd ↔ s.key (n + 1) = fd ∨ Among s.key 1 n fd :=
    fun fd => among_last (by omega)
  have hcur : t.fds (n + 1) = s.fds (n + 1) := h.spared (n + 1) (by omega)
  have hkey : (t.fds (n + 1)).fd = s.key (n + 1) := by rw [hcur, State.key]
  unfold State.announce
  simp only [hkey]
  split
  · -- the sender's own place
    rename_i heq
    refine ⟨h.frame, ?_, ?_, ?_, ?_⟩
    · intro j hj hjn hne
      refine h.told j hj ?_ hne
      rcases eq_or_ne j (n + 1) with rfl | hj'
      · exact absurd heq hne
      · omega
    · intro j hj
      exact h.spared j fun hold => hj ⟨hold.1, by omega, hold.2.2⟩
    · intro fd hfd hne
      exact h.pointed fd (((hlast fd).mp hfd).resolve_left fun hk => hne (hk ▸ heq)) hne
    · intro fd hfd
      exact h.other fd fun hold => hfd ⟨(hlast fd).mpr (.inr hold.1), hold.2⟩
  · rename_i hne
    -- the user there may stand at an earlier place too: it is told once more
    have huser : { t.users (s.key (n + 1)) with writeBuf := some a } =
        { s.users (s.key (n + 1)) with writeBuf := some a } := by
      by_cases hmem : Among s.key 1 n (s.key (n + 1))
      · rw [h.pointed _ hmem hne]
      · rw [h.other _ fun hold => hmem hold.1]
    refine ⟨?_, ?_, ?_, ?_, ?_⟩
    · rw [h.frame]
    · intro j hj hjn hjne
      rcases eq_or_ne j (n + 1) with rfl | hj'
      · simp only [Function.update_self, hcur]
        rfl
      · simp only [Function.update_of_ne hj']
        exact h.told j hj (by omega) hjne
    · intro j hj
      have hj' : j ≠ n + 1 := by
        rintro rfl
        exact hj ⟨by omega, le_rfl, hne⟩
      simp only [Function.update_of_ne hj']
      exact h.spared j fun hold => hj ⟨hold.1, by omega, hold.2.2⟩
    · intro fd hfd hfdne
      rcases eq_or_ne fd (s.key (n + 1)) with rfl | hfd'
      · simp only [Function.update_self, huser]
      · simp only [Function.update_of_ne hfd']
        exact h.pointed fd (((hlast fd).mp hfd).resolve_left hfd'.symm) hfdne
    · intro fd hfd
      have hfd' : fd ≠ s.key (n + 1) := by
        rintro rfl
        exact hfd ⟨(hlast _).mpr (.inl rfl), hne⟩
      simp only [Function.update_of_ne hfd']
      exact h.other fd fun hold => hfd ⟨(hlast fd).mpr (.inr hold.1), hold.2⟩

/-- The loop. -/
theorem broadcast_announced (s : State) (a : ℤ) (hn : 0 ≤ s.userCount) :
    Announced s (s.broadcast a) a s.userCount := by
  have hloop : ∀ n : ℕ, Announced s
      ((List.range n).foldl (fun s (k : ℕ) => s.announce a (k + 1)) s) a n := by
    intro n
    induction n with
    | zero =>
      refine ⟨rfl, ?_, fun _ _ => rfl, ?_, fun _ _ => rfl⟩
      · intro j hj hjn
        rw [Nat.cast_zero] at hjn
        omega
      · intro fd hfd
        obtain ⟨j, hj, hjn, -⟩ := hfd
        rw [Nat.cast_zero] at hjn
        omega
    | succ n ih =>
      rw [List.range_succ, List.foldl_concat, Nat.cast_succ]
      exact ih.step (Int.natCast_nonneg n)
  have hall := hloop s.userCount.toNat
  rwa [Int.toNat_of_nonneg hn] at hall

/-- The `buf`s and the descriptors are as they were. -/
theorem Announced.text {n : ℤ} (h : Announced s t a n) (fd : ℤ) : t.text fd = s.text fd := by
  simp only [State.text]
  by_cases hfd : Among s.key 1 n fd ∧ fd ≠ a
  · rw [h.pointed fd hfd.1 hfd.2]
  · rw [h.other fd hfd]

/-- An announcement moves no client in the table. -/
theorem Announced.key {n : ℤ} (h : Announced s t a n) (j : ℤ) : t.key j = s.key j := by
  simp only [State.key]
  by_cases hj : 1 ≤ j ∧ j ≤ n ∧ s.key j ≠ a
  · rw [h.told j hj.1 hj.2.1 hj.2.2]
  · rw [h.spared j hj]

/-- A broadcast keeps the invariant if what is announced may be sent to all that are told. -/
theorem mail_announced (h : s.Mail) (hann : Announced s t a s.userCount)
    (hfits : ∀ j, 1 ≤ j → j ≤ s.userCount → s.key j ≠ a → s.Fits j a) : t.Mail := by
  have htext := hann.text
  have hkey := hann.key
  have hconn : t.conn = s.conn := by rw [hann.frame]
  have hlog : t.log = s.log := by rw [hann.frame]
  have hcount : t.userCount = s.userCount := by rw [hann.frame]
  have hfit : ∀ j fd, s.Fits j fd → t.Fits j fd := by
    rintro j fd ⟨text, hfd, hsub⟩
    exact ⟨text, (htext fd).trans hfd, by rwa [hkey, hconn, hlog]⟩
  refine ⟨by rw [hann.frame]; exact h.conn_lt, by rw [hann.frame]; exact h.conn_inj,
    by rw [hlog]; exact h.sent, ?_⟩
  intro j hj hjn hout
  rw [hcount] at hjn
  by_cases hne : s.key j = a
  · -- the sender itself is not told
    rw [hann.spared j fun hold => hold.2.2 hne] at hout
    obtain ⟨fd, hfd, hfdne, hold⟩ := h.held j hj hjn hout
    refine ⟨fd, ?_, by rwa [hkey], hfit j fd hold⟩
    rw [hkey, hann.other _ fun hmem => hmem.2 hne]
    exact hfd
  · refine ⟨a, ?_, by rw [hkey]; exact fun heq => hne heq.symm, hfit j a (hfits j hj hjn hne)⟩
    rw [hkey, hann.pointed _ ⟨j, hj, hjn, rfl⟩ hne]

/-- A broadcast only adds to what is still due. -/
theorem due_announced (h : s.Due i) (hann : Announced s t a s.userCount) : t.Due i := by
  have hcount : t.userCount = s.userCount := by rw [hann.frame]
  intro j hij hjn hready
  rw [hcount] at hjn
  by_cases hj : 1 ≤ j ∧ j ≤ s.userCount ∧ s.key j ≠ a
  · rw [hann.told j hj.1 hj.2.1 hj.2.2]
    exact Finset.mem_insert_self _ _
  · rw [hann.spared j hj] at hready ⊢
    exact h j hij hjn hready

/-! ## The other steps -/

/-- The visits are not part of the invariant. -/
theorem mail_visit (h : s.Mail) : (s.visit i).Mail := ⟨h.conn_lt, h.conn_inj, h.sent, h.held⟩

/-- Nor is where the loop is. -/
theorem mail_at {pc : Pc} (h : s.Mail) : { s with pc }.Mail := ⟨h.conn_lt, h.conn_inj, h.sent, h.held⟩

/-- `poll` returns. -/
theorem mail_reported {revents : ℤ → Finset Event} (h : s.Mail) : (s.reported revents).Mail := by
  have hkey : ∀ j, (s.reported revents).key j = s.key j := fun j => by
    simp only [State.key, State.reported]
    split <;> rfl
  have hevents : ∀ j, ((s.reported revents).fds j).events = (s.fds j).events := fun j => by
    simp only [State.reported]
    split <;> rfl
  refine ⟨h.conn_lt, h.conn_inj, h.sent, ?_⟩
  intro j hj hjn hout
  rw [hevents] at hout
  simp only [State.Held, State.Fits, hkey]
  exact h.held j hj hjn hout

/-- What is ready to be sent to is still to be. -/
theorem due_reported {revents : ℤ → Finset Event} (hreports : s.Reports revents) :
    (s.reported revents).Due 0 := by
  intro j hj hjn hready
  have hcond : 0 ≤ j ∧ j ≤ s.userCount := ⟨hj, hjn⟩
  simp only [State.reported, if_pos hcond] at hready ⊢
  have hmem := hreports j (mem_places.mpr hcond) hready
  simpa using hmem

/-- A new user, to which nothing is to be sent. -/
theorem mail_append {connfd : ℤ} (htable : s.Table) (h : s.Mail) (hunused : s.Unused connfd) :
    (s.append connfd).Mail := by
  obtain ⟨-, -, hnew⟩ := hunused
  have hold : ∀ fd ∈ s.opened, (s.append connfd).conn fd = s.conn fd := fun fd hfd => by
    refine Function.update_of_ne ?_ _ _
    rintro rfl
    exact hnew hfd
  have hself : (s.append connfd).conn connfd = s.conns := Function.update_self _ _ _
  refine ⟨?_, ?_, h.sent, ?_⟩
  · intro fd hfd
    rcases Finset.mem_insert.mp hfd with rfl | hfd
    · rw [hself]
      exact Nat.lt_succ_self _
    · rw [hold fd hfd]
      exact Nat.lt_succ_of_lt (h.conn_lt fd hfd)
  · intro fd hfd fd' hfd' heq
    rcases Finset.mem_insert.mp hfd with rfl | hmem <;>
      rcases Finset.mem_insert.mp hfd' with rfl | hmem'
    · rfl
    · rw [hself, hold fd' hmem'] at heq
      exact absurd heq (h.conn_lt fd' hmem').ne'
    · rw [hself, hold fd hmem] at heq
      exact absurd heq (h.conn_lt fd hmem).ne
    · rw [hold fd hmem, hold fd' hmem'] at heq
      exact h.conn_inj fd hmem fd' hmem' heq
  · intro j hj hjn hout
    have hjn' : j ≤ s.userCount + 1 := hjn
    rcases eq_or_ne j (s.userCount + 1) with rfl | hne
    · simp [State.append] at hout
    · have hfds : (s.append connfd).fds j = s.fds j := Function.update_of_ne hne _ _
      have hkey : (s.append connfd).key j = s.key j := by rw [State.key, hfds, State.key]
      rw [hfds] at hout
      have hmem : s.key j ∈ s.opened := (htable.lists.mem _).mpr ⟨j, hj, by omega, rfl⟩
      simp only [State.Held, State.Fits, hkey, hold _ hmem]
      exact h.held j hj (by omega) hout

/-- What is due at the old places. -/
theorem due_append (h : s.Due i) (connfd : ℤ) : (s.append connfd).Due i := by
  intro j hij hjn hready
  rcases eq_or_ne j (s.userCount + 1) with rfl | hne
  · simp [State.append] at hready
  · have hjn' : j ≤ s.userCount + 1 := hjn
    simp only [State.append, Function.update_of_ne hne] at hready ⊢
    exact h j hij (by omega) hready

/-- A user goes. -/
theorem mail_leave (htable : s.Table) (h : s.Mail) (hi : 1 ≤ i) (hin : i ≤ s.userCount)
    (hmay : s.MayLeave i) : (s.leave i).Mail := by
  -- a user that stays, and the place it had
  have hplace : ∀ j, 1 ≤ j → j ≤ s.userCount - 1 → ∃ j', 1 ≤ j' ∧ j' ≤ s.userCount ∧ j' ≠ i ∧
      (s.leave i).fds j = s.fds j' := by
    intro j hj hjn
    rcases eq_or_ne j i with rfl | hne
    · exact ⟨s.userCount, by omega, le_rfl, by omega, Function.update_self _ _ _⟩
    · exact ⟨j, hj, by omega, hne, Function.update_of_ne hne _ _⟩
  refine ⟨fun fd hfd => h.conn_lt fd (Finset.mem_of_mem_erase hfd), fun fd hfd fd' hfd' =>
    h.conn_inj fd (Finset.mem_of_mem_erase hfd) fd' (Finset.mem_of_mem_erase hfd'), h.sent,
    ?_⟩
  intro j hj hjn hout
  obtain ⟨j', hj', hjn', hne, hfds⟩ := hplace j hj hjn
  have hkey : (s.leave i).key j = s.key j' := by rw [State.key, hfds, State.key]
  have hother : s.key j' ≠ s.key i := fun heq =>
    hne (htable.lists.inj j' i hj' hjn' hi hin heq)
  rw [hfds] at hout
  obtain ⟨fd, hfd, hfdne, text, htext, hsub⟩ := h.held j' hj' hjn' hout
  refine ⟨fd, ?_, by rwa [hkey], ?_⟩
  · rw [hkey]
    simpa only [State.leave, Function.update_of_ne (show s.key j' ≠ (s.fds i).fd from hother)]
      using hfd
  · rw [State.Fits, hkey]
    rcases eq_or_ne fd (s.key i) with rfl | hfdi
    · -- it awaits the text of the user that goes
      have hnew : (s.leave i).text (s.key i) = s.text (s.key s.userCount) := by
        simp only [State.text, State.leave, State.key, Function.update_self]
      rcases hmay with rfl | hnobody | hempty | hsame
      · exact ⟨text, hnew.trans htext, hsub⟩
      · exact absurd ⟨hout, hfd⟩ (hnobody j' (mem_places.mpr ⟨hj', hjn'⟩) hne)
      · exact ⟨[], hnew.trans hempty, fun hnil => absurd rfl hnil⟩
      · exact ⟨text, (hnew.trans hsame).trans htext, hsub⟩
    · refine ⟨text, ?_, hsub⟩
      simpa only [State.text, State.leave,
        Function.update_of_ne (show fd ≠ (s.fds i).fd from hfdi)] using htext

/-- The last user takes its place in what is still due. -/
theorem due_leave (h : s.Due i) (hin : i ≤ s.userCount) : (s.leave i).Due i := by
  intro j hij hjn
  have hjn' : j ≤ s.userCount - 1 := hjn
  rcases eq_or_ne j i with rfl | hne
  · simp only [State.leave, Function.update_self]
    exact h s.userCount hin le_rfl
  · simp only [State.leave, Function.update_of_ne hne]
    exact h j hij (by omega)

/-- The user at the place `i` is sent what is held for it. -/
theorem mail_send (htable : s.Table) (h : s.Mail) (hi : 1 ≤ i) (hin : i ≤ s.userCount)
    (hout : .pollout ∈ (s.fds i).events) (hsend : s.send i = some t) : t.Mail := by
  obtain ⟨fd, hfd, -, text, htext, hsub⟩ := h.held i hi hin hout
  rcases send_cases hsend with ⟨hnone, -⟩ | ⟨k, text', hk, htext', rfl⟩
  · rw [hfd] at hnone
    cases hnone
  · cases hfd.symm.trans hk
    cases htext.symm.trans htext'
    refine ⟨h.conn_lt, h.conn_inj, ?_, ?_⟩
    · intro c
      rw [inbox_sent, outbox_sent]
      split
      · rename_i hc
        rw [← hc.1]
        exact hsub hc.2
      · rw [List.append_nil]
        exact h.sent c
    · intro j hj hjn hjout
      have hji : j ≠ i := by
        rintro rfl
        simp at hjout
      have hkeyne : s.key j ≠ s.key i := fun heq => hji (htable.lists.inj j i hj hjn hi hin heq)
      have hconn := h.conn_ne htable hi hin hj hjn hkeyne.symm
      simp only [Function.update_of_ne hji] at hjout
      obtain ⟨fd', hfd', hne', text', htext', hsub'⟩ := h.held j hj hjn hjout
      refine ⟨fd', ?_, ?_, text', ?_, ?_⟩
      · simp only [State.key, Function.update_of_ne hji] at hkeyne hfd' ⊢
        rwa [Function.update_of_ne hkeyne]
      · simpa only [State.key, Function.update_of_ne hji] using hne'
      · refine Eq.trans ?_ htext'
        simp only [State.text]
        rcases eq_or_ne fd' (s.key i) with rfl | hne
        · rw [Function.update_self]
        · rw [Function.update_of_ne hne]
      · simp only [State.key, Function.update_of_ne hji] at hconn ⊢
        rw [inbox_sent, outbox_sent, if_neg fun hc => hconn hc.1, List.append_nil]
        exact hsub'

/-- A message is logged, which the other clients may be sent. -/
theorem mail_received (h : s.Mail) (c : ℕ) (text : List UInt8) :
    { s with log := s.log.receive c text }.Mail := by
  have hgrow : ∀ c', (s.log.inbox c').Sublist ((s.log.receive c text).inbox c') := fun c' => by
    rw [inbox_receive]
    exact List.sublist_append_left _ _
  refine ⟨h.conn_lt, h.conn_inj, fun c' => (h.sent c').trans (hgrow c'), ?_⟩
  intro j hj hjn hout
  obtain ⟨fd, hfd, hne, text', htext, hsub⟩ := h.held j hj hjn hout
  exact ⟨fd, hfd, hne, text', htext, fun hnil => (hsub hnil).trans (hgrow _)⟩

/-- The log is not part of what the loop that broadcasts does. -/
theorem Announced.with_log {n : ℤ} (h : Announced s t a n) (log : Log) :
    Announced { s with log } { t with log } a n :=
  ⟨by rw [h.frame], h.told, h.spared, h.pointed, h.other⟩

/-- An empty text may be sent to all. -/
theorem fits_nil (h : s.text fd = some []) : s.Fits j fd := ⟨[], h, fun hnil => absurd rfl hnil⟩

/-- The places after the next one, wherever the loop is. -/
theorem State.Due.next {pc : Pc} {log : Log} (h : s.Due i) : { s with pc, log }.Due (i + 1) :=
  fun j hij => h j (by omega)

/-- A `recv` that leaves nothing in the `buf`. -/
theorem mail_clear (h : s.Mail) : (s.fill a []).Mail ∧ (s.fill a []).text a = some [] := by
  have htext : (s.fill a []).text a = some [] := text_fill s a (by decide) List.not_mem_nil
  exact ⟨mail_fill h fun j _ _ _ => fits_nil htext, htext⟩

/-- `recv` fails with `EAGAIN`: an empty text is announced. -/
theorem mail_again (h : s.Mail) (hdue : s.Due i) (hcount : 0 ≤ s.userCount)
    (hrecv : s.receive i .again = some t) : t.Mail ∧ ∀ k, t.pc = .loop k → t.Due k := by
  cases hrecv
  obtain ⟨hclear, hnil⟩ := mail_clear (a := s.key i) h
  have hann := broadcast_announced (s.fill (s.key i) []) (s.key i) hcount
  refine ⟨mail_at (mail_announced hclear hann fun j _ _ _ => fits_nil hnil), ?_⟩
  intro k hk
  cases hk
  exact (due_announced (s := s.fill (s.key i) []) hdue hann).next

/-- `recv` fails otherwise: the user goes, and the text that is announced is empty. -/
theorem mail_fails (htable : s.Table) (h : s.Mail) (hdue : s.Due i) (hi : 1 ≤ i)
    (hin : i ≤ s.userCount) (hmay : s.MayReceive i .fails)
    (hrecv : s.receive i .fails = some t) : t.Mail ∧ ∀ k, t.pc = .loop k → t.Due k := by
  cases hrecv
  obtain ⟨hclear, hnil⟩ := mail_clear (a := s.key i) h
  have htable' : (s.fill (s.key i) []).Table := htable.of_keeps (fill_keeps s _ _)
  -- the text of the last user, which becomes that of the user that goes
  have hlast : (s.fill (s.key i) []).text (s.key s.userCount) = some [] := by
    rcases eq_or_ne (s.key s.userCount) (s.key i) with heq | hne
    · rw [heq, hnil]
    · rw [text_fill_ne s [] hne]
      exact hmay.resolve_left fun heq => hne (heq ▸ rfl)
  have hmail := mail_leave htable' hclear hi hin (.inr (.inr (.inl hlast)))
  have hempty : ((s.fill (s.key i) []).leave i).text (s.key i) = some [] := by
    refine Eq.trans ?_ hlast
    simp only [State.text, State.leave]
    exact congrArg _ (congrArg _ (Function.update_self _ _ _))
  have hann := broadcast_announced ((s.fill (s.key i) []).leave i) (s.key i)
    (show 0 ≤ s.userCount - 1 by omega)
  refine ⟨mail_at (mail_announced hmail hann fun j _ _ _ => fits_nil hempty), ?_⟩
  intro k hk
  cases hk
  rw [sub_add_cancel]
  have hdue' := due_announced (due_leave (s := s.fill (s.key i) []) hdue hin) hann
  exact hdue'

/-- A message is logged, stored and announced, and may be sent to all the others. -/
theorem mail_data {received : List UInt8} (htable : s.Table) (h : s.Mail) (hdue : s.Due i)
    (hi : 1 ≤ i) (hin : i ≤ s.userCount) (hmay : s.MayReceive i (.data received))
    (hrecv : s.receive i (.data received) = some t) :
    t.Mail ∧ ∀ k, t.pc = .loop k → t.Due k := by
  have hcount : 0 ≤ s.userCount := by omega
  simp only [State.receive] at hrecv
  split at hrecv
  · cases hrecv
  · rename_i hlen
    split at hrecv
    · -- nothing was received
      rename_i hempty
      subst hempty
      cases hrecv
      refine ⟨mail_at (mail_clear h).1, ?_⟩
      intro k hk
      cases hk
      exact State.Due.next (s := s.fill (s.key i) []) hdue
    · cases hrecv
      let s' : State := { s with log := s.log.receive (s.conn (s.key i)) received }
      have hlog : s'.Mail := mail_received h (s.conn (s.key i)) received
      have hfits : ∀ j, 1 ≤ j → j ≤ s.userCount → s.key j ≠ s.key i →
          (s'.fill (s.key i) received).Fits j (s.key i) := by
        intro j hj hjn hne
        rcases hmay with hnul | hhead | hone
        · refine ⟨received, text_fill s' _ (not_le.mp hlen) hnul, ?_⟩
          intro _
          show (s.log.outbox (s.conn (s.key j)) ++ [received]).Sublist
            ((s.log.receive (s.conn (s.key i)) received).inbox (s.conn (s.key j)))
          rw [inbox_receive, if_neg (h.conn_ne htable hi hin hj hjn hne.symm)]
          exact (h.sent _).append (List.Sublist.refl _)
        · exact fits_nil (text_fill_nul s' _ hhead)
        · obtain rfl : j = i := by omega
          exact absurd rfl hne
      have hann : Announced (s'.fill (s.key i) received) _ (s.key i) s.userCount :=
        (broadcast_announced (s.fill (s.key i) received) (s.key i) hcount).with_log s'.log
      refine ⟨mail_at (mail_announced (mail_fill hlog hfits) hann hfits), ?_⟩
      intro k hk
      cases hk
      exact (due_announced (s := s'.fill (s.key i) received) hdue hann).next

/-- What is sent after a `recv` at the place `i`. -/
theorem mail_receive {recv : Recv} (htable : s.Table) (h : s.Mail) (hdue : s.Due i) (hi : 1 ≤ i)
    (hin : i ≤ s.userCount) (hmay : s.MayReceive i recv) (hrecv : s.receive i recv = some t) :
    t.Mail ∧ ∀ k, t.pc = .loop k → t.Due k := by
  cases recv with
  | again => exact mail_again h hdue (by omega) hrecv
  | fails => exact mail_fails htable h hdue hi hin hmay hrecv
  | data received => exact mail_data htable h hdue hi hin hmay hrecv

/-- What is sent after a pass. -/
theorem pass_mail {accepted : Option ℤ} {recv : Recv} (htable : s.Table) (hround : s.Ahead i)
    (hin : i ≤ s.userCount) (h : s.Mail) (hdue : s.Due i) (hleave : s.Leaves i → s.MayLeave i)
    (hrecv : s.Receives i → s.MayReceive i recv) (hpass : s.pass i accepted recv = some t) :
    t.Mail ∧ ∀ k, t.pc = .loop k → t.Due k := by
  have hnonneg := hround.nonneg
  obtain ⟨htable', -⟩ := visit_ok htable hround hin
  have hmail : (s.visit i).Mail := mail_visit h
  rcases pass_cases hpass with rfl | ⟨-, -, connfd, hunused, rfl⟩ | ⟨hleaves, rfl⟩ |
    ⟨hreceives, hdo⟩ | ⟨hout, hdo⟩
  · refine ⟨mail_at hmail, ?_⟩
    intro k hk
    cases hk
    exact State.Due.next (s := s.visit i) hdue
  · refine ⟨mail_at (mail_append htable' hmail hunused), ?_⟩
    intro k hk
    cases hk
    exact (due_append (s := s.visit i) hdue connfd).next
  · have hi : i ≠ 0 := hround.ne_zero hleaves.2 (by decide)
    refine ⟨mail_at (mail_leave htable' hmail (by omega) hin (hleave hleaves)), ?_⟩
    intro k hk
    cases hk
    rw [sub_add_cancel]
    exact due_leave (s := s.visit i) hdue hin
  · have hi : i ≠ 0 := by
      rintro rfl
      exact hreceives.1 htable.listen
    exact mail_receive htable' hmail hdue (by omega) hin (hrecv hreceives) hdo
  · have hi : i ≠ 0 := hround.ne_zero hout (by decide)
    refine ⟨mail_send htable' hmail (by omega) hin (hdue i le_rfl hin hout) hdo, ?_⟩
    rcases send_cases hdo with ⟨-, rfl⟩ | ⟨k, text, -, -, rfl⟩
    · rintro k hk
      cases hk
      exact State.Due.next (s := s.visit i) hdue
    · rintro k hk j hij hjn hready
      cases hk
      have hji : j ≠ i := by omega
      simp only [Function.update_of_ne hji] at hready ⊢
      exact hdue j (by omega) hjn hready

/-- Every step that meets the condition keeps the invariant. -/
theorem mailOk_step {l : Label} (h : s.TableOk ∧ s.MailOk) (hstep : Guarded Step Faithful s l t) :
    t.TableOk ∧ t.MailOk := by
  obtain ⟨htable, hmail, hdue⟩ := h
  obtain ⟨hstep, hfaithful⟩ := hstep
  refine ⟨tableOk_step htable hstep, ?_⟩
  cases step_cases hstep with
  | poll revents hpc hreports =>
    refine ⟨mail_reported hmail, ?_⟩
    intro k hk
    cases hk
    exact due_reported hreports
  | pollFails =>
    refine ⟨mail_at hmail, ?_⟩
    intro k hk
    cases hk
  | pass i connfd recv _ hpc hin hpass =>
    have hround := htable.round
    simp only [State.Round, hpc] at hround
    simp only [Faithful, hpc] at hfaithful
    obtain ⟨hmail', hdue'⟩ := pass_mail htable.table hround hin hmail (hdue i hpc) hfaithful.1
      hfaithful.2 hpass
    exact ⟨hmail', hdue'⟩
  | done =>
    refine ⟨mail_at hmail, ?_⟩
    intro k hk
    cases hk

/-- The server before its first `poll`. -/
theorem init_mailOk {listenfd : ℤ} : (init listenfd).MailOk := by
  refine ⟨⟨nofun, nofun, fun c => List.Sublist.refl _, ?_⟩, nofun⟩
  intro j hj hjn
  have hcount : (init listenfd).userCount = 0 := rfl
  omega

/-! ## Runs -/

/-- In every run whose steps meet the condition, every non-empty text sent to a client is a message
that was received from another, and each message is sent to it at most once. -/
theorem message_integrity {listenfd : ℤ} {ls : List Label}
    (h : Run (Guarded Step Faithful) (init listenfd) ls s) : s.log.Integral := by
  have hok : s.TableOk ∧ s.MailOk :=
    h.invariant (fun _ _ _ hs hstep => mailOk_step hs hstep) ⟨init_tableOk, init_mailOk⟩
  exact fun c => (hok.2.mail.sent c).subperm

/-- The events that clients report. -/
def reports (l : List (ℤ × Finset Event)) (i : ℤ) : Finset Event := (l.lookup i).getD ∅

/-- A pass that calls neither `accept` nor `recv`. -/
def quiet : Label := .pass none .again

/-- Two clients connect, the first one sends a message, and it is sent to the second one. -/
def oneText : List Label :=
  [.poll (reports [(0, {.pollin})]), .pass (some 4) .again, quiet, quiet,
    .poll (reports [(0, {.pollin})]), .pass (some 5) .again, quiet, quiet, quiet,
    .poll (reports [(1, {.pollin})]), quiet, .pass none (.data [120]), quiet, quiet,
    .poll (reports [(2, {.pollout})]), quiet, quiet, quiet, quiet]

/-- It is one of the messages the second client was to get. -/
theorem message_integrity_one : ∃ s, Run (Guarded Step Faithful) (init 3) oneText s ∧
    s.log.outbox 1 = [[120]] ∧ (s.log.outbox 1).Subperm (s.log.inbox 1) := by
  obtain ⟨s, hrun, hout⟩ : ∃ s, Run (Guarded Step Faithful) (init 3) oneText s ∧
      s.log.outbox 1 = [[120]] := Run.of_exec_guarded rfl
  exact ⟨s, hrun, hout, message_integrity hrun 1⟩

/-- Three clients connect. What the third one says is sent to the others; then the first one says
something and leaves while the others are still to be sent it. -/
def saidAndGone : List Label :=
  [.poll (reports [(0, {.pollin})]), .pass (some 4) .again, quiet, quiet,
    .poll (reports [(0, {.pollin})]), .pass (some 5) .again, quiet, quiet, quiet,
    .poll (reports [(0, {.pollin})]), .pass (some 6) .again, quiet, quiet, quiet, quiet,
    .poll (reports [(3, {.pollin})]), quiet, quiet, quiet, .pass none (.data [104, 105]), quiet,
    .poll (reports [(1, {.pollout}), (2, {.pollout})]), quiet, quiet, quiet, quiet, quiet,
    .poll (reports [(1, {.pollin})]), quiet, .pass none (.data [120]), quiet, quiet, quiet,
    .poll (reports [(1, {.pollrdhup}), (2, {.pollout}), (3, {.pollout})]), quiet, quiet, quiet,
    quiet, quiet]

/-- The third client is sent its own message, and nobody the first one's. -/
theorem own_message : ∃ s, Run Step (init 3) saidAndGone s ∧
    s.log.received = [(2, [104, 105]), (0, [120])] ∧
    s.log.sent = [(0, [104, 105]), (1, [104, 105]), (2, [104, 105]), (1, [104, 105])] ∧
    ¬ s.log.Integral := by
  obtain ⟨s, hrun, hread⟩ : ∃ s, Run Step (init 3) saidAndGone s ∧
      (s.log.received, s.log.sent) = ([(2, [104, 105]), (0, [120])],
        [(0, [104, 105]), (1, [104, 105]), (2, [104, 105]), (1, [104, 105])]) :=
    Run.of_exec_map rfl
  simp only [Prod.mk.injEq] at hread
  obtain ⟨hreceived, hsent⟩ := hread
  refine ⟨s, hrun, hreceived, hsent, ?_⟩
  intro hall
  have hmem : [104, 105] ∈ s.log.inbox 2 :=
    (hall 2).subset (by simp [Log.outbox, hsent])
  simp [Log.inbox, hreceived] at hmem

end PollChat

end Ulsp
