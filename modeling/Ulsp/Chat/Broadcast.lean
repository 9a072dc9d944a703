import Ulsp.Chat.Slots

/-!
# The chat server delivers what is not disturbed

A client to which a message is to be written only keeps a pointer to the sender's `buf`, so the
message is gone when another one is received before, or when its sender leaves: `message_lost` is a
run in which two senders in one round cost the third client a message. A step that receives text is
`Undisturbed` when it finds no such pointer that it would spoil; over undisturbed runs every named
client is written every message of the others, in order, each once and as it was received.
-/

namespace Ulsp

open Lib

namespace Chat

variable {p p' : Pool} {i j k connfd : ℕ}

/-! ## The invariant -/

/-- All but the last of the texts for a connection have been written to it. -/
def Log.AllButLast (log : Log) (conn : ℕ) (text : List UInt8) : Prop :=
  log.inbox conn = log.outbox conn ++ [text]

/-- The texts: a client with a `writeBuf` has been written all but the text held there, a connected
one without has been written all, and one that has left may have missed the last. -/
structure Mail (p : Pool) (conns : ℕ) (log : Log) : Prop where
  pending : ∀ i k, (p.clients i).writeBuf = some k → k ≠ i ∧ (p.clients k).welcome = false ∧
    ∃ text, (p.clients k).buf.Holds text ∧ text.length < bufsiz ∧
      log.AllButLast (p.clients i).conn text
  settled : ∀ i, (p.clients i).connfd ≠ none → (p.clients i).writeBuf = none →
    log.inbox (p.clients i).conn = log.outbox (p.clients i).conn
  departed : ∀ c < conns, (∀ i, (p.clients i).connfd ≠ none → (p.clients i).conn ≠ c) →
    log.inbox c = log.outbox c ∨ ∃ text, log.AllButLast c text
  fresh : ∀ c, conns ≤ c → log.inbox c = [] ∧ log.outbox c = []

/-- The clients still to be passed in this round that are ready for writing have a `writeBuf`. -/
def State.Round (s : State) : Prop :=
  match s.pc with
  | .accept => s.pool.readyWriteFds ⊆ s.pool.writeFds
  | .check k => ∀ i, k ≤ i → ∀ fd, (s.pool.clients i).connfd = some fd →
    fd ∈ s.pool.readyWriteFds → fd ∈ s.pool.writeFds
  | _ => True

/-- The invariant. -/
structure State.Ok (s : State) : Prop where
  slots : Slots s.pool s.conns
  mail : Mail s.pool s.conns s.log
  round : s.Round

/-! ## The condition -/

/-- The slot whose `recv` is called in the next step. -/
def State.reads (s : State) : Option ℕ :=
  match s.pc with
  | .check i =>
    match s.pool.ready i with
    | .read _ => if (i : ℤ) ≤ s.pool.maxi ∧ 0 < s.pool.nready then some i else none
    | _ => none
  | _ => none

/-- What the client `i` sends is text that fits its `buf`, a message comes when no other client has a
`writeBuf`, and the client leaves when none has its `buf` as `writeBuf`. -/
def Pool.Allows (p : Pool) (i : ℕ) (received : List UInt8) : Prop :=
  0 ∉ received ∧ (p.clients i).data + received.length < bufsiz ∧
    (received ≠ [] → (p.clients i).welcome = false →
      ∀ j < clientFdNumber, j ≠ i → (p.clients j).writeBuf = none) ∧
    (received = [] → ∀ j < clientFdNumber, (p.clients j).writeBuf ≠ some i)

instance (received : List UInt8) : Decidable (p.Allows i received) := by
  unfold Pool.Allows
  infer_instance

/-- The condition on a step. -/
def Undisturbed (s : State) : Label → Prop
  | .check received => ∀ i ∈ s.reads, s.pool.Allows i received
  | _ => True

instance (s : State) (l : Label) : Decidable (Undisturbed s l) := by
  cases l <;> unfold Undisturbed <;> infer_instance

/-! ## The steps -/

section Steps

variable {conns : ℕ} {log : Log} {received text : List UInt8}

@[simp]
theorem inbox_sent (log : Log) (m : Message) (c : ℕ) :
    Log.inbox { log with sent := log.sent ++ [m] } c =
      log.inbox c ++ if c ∈ m.dest then [m.text] else [] := by
  simp only [Log.inbox, List.filter_append, List.map_append]
  by_cases hc : c ∈ m.dest <;> simp [hc]

@[simp]
theorem outbox_sent (log : Log) (ms : List Message) (c : ℕ) :
    Log.outbox { log with sent := ms } c = log.outbox c := rfl

@[simp]
theorem inbox_written (log : Log) (ws : List (ℕ × List UInt8)) (c : ℕ) :
    Log.inbox { log with written := ws } c = log.inbox c := rfl

@[simp]
theorem outbox_written (log : Log) (w : ℕ × List UInt8) (c : ℕ) :
    Log.outbox { log with written := log.written ++ [w] } c =
      log.outbox c ++ if w.1 = c then [w.2] else [] := by
  simp only [Log.outbox, List.filter_append, List.map_append]
  by_cases hc : w.1 = c <;> simp [hc]

/-- The pool before any connection. -/
theorem init_ok (listenfd : ℕ) : (init listenfd).Ok := by
  refine ⟨?_, ?_, trivial⟩
  · have hclient : (initClient ⟨true, none, fun _ => 0, 0, none, 0, []⟩).Ok :=
      ⟨fun _ => rfl, fun _ => ⟨rfl, rfl⟩, nofun⟩
    exact ⟨fun _ => hclient, fun _ _ _ => nofun, fun _ _ => nofun,
      (by decide : (-1 : ℤ) < (clientFdNumber : ℤ)), nofun⟩
  · exact ⟨fun _ _ => nofun, fun _ h => absurd rfl h, fun _ h => absurd h (Nat.not_lt_zero _),
      fun _ _ => ⟨rfl, rfl⟩⟩

/-- What is held for a client stays so when a slot changes that is not the one it is held in. -/
theorem Mail.pending_of_eq {log' : Log} {p' : Pool} (h : Mail p conns log)
    (hj : (p.clients j).writeBuf = some k) (hk : (p'.clients k).welcome = (p.clients k).welcome)
    (hbuf : (p'.clients k).buf = (p.clients k).buf) (hself : p'.clients j = p.clients j)
    (hlog : log'.inbox (p.clients j).conn = log.inbox (p.clients j).conn ∧
      log'.outbox (p.clients j).conn = log.outbox (p.clients j).conn) :
    k ≠ j ∧ (p'.clients k).welcome = false ∧ ∃ text, (p'.clients k).buf.Holds text ∧
      text.length < bufsiz ∧ log'.AllButLast (p'.clients j).conn text := by
  obtain ⟨hne, hnamed, text, hholds, hlen, hlast⟩ := h.pending j k hj
  refine ⟨hne, hk.trans hnamed, text, hbuf ▸ hholds, hlen, ?_⟩
  rw [Log.AllButLast, hself, hlog.1, hlog.2]
  exact hlast

/-- A new connection has been written all that was sent to it, which is nothing. -/
theorem Mail.add (hs : Slots p conns) (h : Mail p conns log)
    (hadd : addClient connfd conns p = some p') : Mail p' (conns + 1) log := by
  obtain ⟨i, hi, hfree, hclients, -, -, -⟩ := addClient_some hadd
  have hnone := ((hs.client i).unnamed ((hs.client i).free hfree)).2
  have hself : p'.clients i = { p.clients i with connfd := some connfd, conn := conns } := by
    rw [hclients, Function.update_self]
  have hother : ∀ j, j ≠ i → p'.clients j = p.clients j := fun j hj => by
    rw [hclients, Function.update_of_ne hj]
  have hkeep : ∀ k, (p'.clients k).welcome = (p.clients k).welcome ∧
      (p'.clients k).buf = (p.clients k).buf := fun k => by
    rcases eq_or_ne k i with rfl | hk
    · rw [hself]
      exact ⟨rfl, rfl⟩
    · rw [hother k hk]
      exact ⟨rfl, rfl⟩
  refine ⟨?_, ?_, ?_, ?_⟩
  · intro j k hj
    rcases eq_or_ne j i with rfl | hji
    · rw [hself, hnone] at hj
      cases hj
    · rw [hother j hji] at hj
      exact h.pending_of_eq hj (hkeep k).1 (hkeep k).2 (hother j hji) ⟨rfl, rfl⟩
  · intro j hj hwrite
    rcases eq_or_ne j i with rfl | hji
    · rw [hself]
      obtain ⟨hin, hout⟩ := h.fresh conns le_rfl
      exact hin.trans hout.symm
    · rw [hother j hji] at hj hwrite ⊢
      exact h.settled j hj hwrite
  · intro c hc hgone
    have hne : c ≠ conns := fun heq => hgone i (by rw [hself]; nofun) (by rw [hself]; exact heq.symm)
    refine h.departed c (by omega) ?_
    intro j hj
    have hji : j ≠ i := by
      rintro rfl
      exact hj hfree
    have := hgone j (by rwa [hother j hji])
    rwa [hother j hji] at this
  · intro c hc
    exact h.fresh c (by omega)

/-! ### `check_clients` -/

/-- A step of one slot that keeps its connection, or leaves it. -/
theorem Mail.update {log' : Log} {c : Client} (hs : Slots p conns) (h : Mail p conns log)
    (hconn : (p.clients i).connfd = some connfd)
    (hclients : p'.clients = Function.update p.clients i c)
    (hkeep : (∀ j, (p.clients j).writeBuf ≠ some i) ∨
      c.welcome = (p.clients i).welcome ∧ c.buf = (p.clients i).buf)
    (hwrite : c.writeBuf = none)
    (hc : c.connfd = none ∨ c.conn = (p.clients i).conn ∧
      log'.inbox c.conn = log'.outbox c.conn)
    (hleft : log'.inbox (p.clients i).conn = log'.outbox (p.clients i).conn ∨
      ∃ text, log'.AllButLast (p.clients i).conn text)
    (hlog : ∀ d, d ≠ (p.clients i).conn →
      log'.inbox d = log.inbox d ∧ log'.outbox d = log.outbox d) : Mail p' conns log' := by
  have hself : p'.clients i = c := by rw [hclients, Function.update_self]
  have hother : ∀ j, j ≠ i → p'.clients j = p.clients j := fun j hj => by
    rw [hclients, Function.update_of_ne hj]
  have hconnj : ∀ j fd, j ≠ i → (p.clients j).connfd = some fd →
      (p.clients j).conn ≠ (p.clients i).conn :=
    fun j fd hj hfd => (hs.apart j i hj fd connfd hfd hconn).2
  refine ⟨?_, ?_, ?_, ?_⟩
  · intro j k hj
    rcases eq_or_ne j i with rfl | hji
    · rw [hself, hwrite] at hj
      cases hj
    · rw [hother j hji] at hj
      obtain ⟨fd, hfd⟩ := (hs.client j).connected (by simp [hj])
      have hk : (p'.clients k).welcome = (p.clients k).welcome ∧
          (p'.clients k).buf = (p.clients k).buf := by
        rcases eq_or_ne k i with rfl | hki
        · rw [hself]
          exact hkeep.resolve_left fun hnot => hnot j hj
        · rw [hother k hki]
          exact ⟨rfl, rfl⟩
      exact h.pending_of_eq hj hk.1 hk.2 (hother j hji) (hlog _ (hconnj j fd hji hfd))
  · intro j hj hnone
    rcases eq_or_ne j i with rfl | hji
    · rw [hself] at hj ⊢
      exact (hc.resolve_left hj).2
    · rw [hother j hji] at hj hnone ⊢
      obtain ⟨fd, hfd⟩ := Option.ne_none_iff_exists'.mp hj
      obtain ⟨hin, hout⟩ := hlog _ (hconnj j fd hji hfd)
      rw [hin, hout]
      exact h.settled j hj hnone
  · intro d hd hgone
    rcases eq_or_ne d (p.clients i).conn with rfl | hdi
    · exact hleft
    · obtain ⟨hin, hout⟩ := hlog d hdi
      simp only [Log.AllButLast, hin, hout]
      refine h.departed d hd ?_
      intro j hj
      rcases eq_or_ne j i with rfl | hji
      · exact hdi.symm
      · have := hgone j (by rwa [hother j hji])
        rwa [hother j hji] at this
  · intro d hd
    have hne : d ≠ (p.clients i).conn := by
      have := (hs.place i connfd hconn).2.1
      omega
    obtain ⟨hin, hout⟩ := hlog d hne
    rw [hin, hout]
    exact h.fresh d hd

/-- A client that is written to gets the last of its texts. -/
theorem ok_write (hs : Slots p conns) (h : Mail p conns log)
    (hfd : (p.clients i).connfd = some connfd) (hwrite : (p.clients i).writeBuf ≠ none) :
    ∃ text, p.writeClient i connfd = some (p.flushed i connfd, text) ∧
      Slots (p.flushed i connfd) conns ∧
      Mail (p.flushed i connfd) conns
        { log with written := log.written ++ [((p.clients i).conn, text)] } := by
  obtain ⟨k, hk⟩ := Option.ne_none_iff_exists'.mp hwrite
  obtain ⟨hne, -, text, hholds, hlen, hlast⟩ := h.pending i k hk
  obtain ⟨free, unnamed, header⟩ := hs.client i
  have hplace := hs.place i connfd hfd
  refine ⟨text, by simp [Pool.writeClient, hk, hholds.cstring hlen], ?_, ?_⟩
  · refine hs.update le_rfl rfl ⟨free, fun hw => ⟨(unnamed hw).1, rfl⟩, header⟩
      (fun j hj => hs.apart i j hj.symm) le_rfl hs.maxi_lt ?_ ?_ fun fd hc hi => absurd hi hc
    · intro fd hc
      cases hfd.symm.trans hc
      exact ⟨hplace.1, hplace.2.1, by simp [Pool.flushed]⟩
    · intro fd hc _
      have hne : fd ≠ connfd := fun heq => hc (heq ▸ hfd)
      simp [Pool.flushed, hne]
  · refine h.update hs hfd rfl (.inr ⟨rfl, rfl⟩) rfl (.inr ⟨rfl, ?_⟩) (.inl ?_) ?_
    · simpa [Log.AllButLast] using hlast
    · simpa [Log.AllButLast] using hlast
    · intro d hd
      simp [hd.symm]

/-- A client that leaves has been written all but what is held for it. -/
theorem ok_close (hs : Slots p conns) (h : Mail p conns log)
    (hfd : (p.clients i).connfd = some connfd) (hnot : ∀ j, (p.clients j).writeBuf ≠ some i) :
    Slots ((p.setClient i ((p.clients i).receive [])).closeClient i connfd) conns ∧
      Mail ((p.setClient i ((p.clients i).receive [])).closeClient i connfd) conns log := by
  have hclients : ((p.setClient i ((p.clients i).receive [])).closeClient i connfd).clients =
      Function.update p.clients i (initClient ((p.clients i).receive [])) := by
    simp [Pool.closeClient, Pool.setClient]
  have hok : (initClient ((p.clients i).receive [])).Ok := by
    refine ⟨fun _ => rfl, fun _ => ⟨rfl, rfl⟩, ?_⟩
    intro hnamed
    cases hnamed
  have hfree : ∀ fd, (initClient ((p.clients i).receive [])).connfd ≠ some fd := by
    intro fd hconn
    cases hconn
  refine ⟨hs.update le_rfl hclients hok (fun j _ fd _ hc => absurd hc (hfree fd)) le_rfl hs.maxi_lt
    (fun fd hc => absurd hc (hfree fd)) ?_ ?_, ?_⟩
  · intro fd _ hi
    have hne : fd ≠ connfd := fun heq => hi (heq ▸ hfd)
    simp [Pool.closeClient, Pool.setClient, hne]
  · intro fd _ hi
    cases hfd.symm.trans hi
    simp [Pool.closeClient]
  · refine h.update hs hfd hclients (.inl hnot) rfl (.inl rfl) ?_ fun d _ => ⟨rfl, rfl⟩
    cases hwrite : (p.clients i).writeBuf with
    | none => exact .inl (h.settled i (by simp [hfd]) hwrite)
    | some k =>
      obtain ⟨-, -, text, -, -, hlast⟩ := h.pending i k hwrite
      exact .inr ⟨text, hlast⟩

/-- What is left of the first text is the name. -/
theorem cutNewline_spec {c : Client} {b : Buffer} {n : ℕ} (hholds : c.buf.Holds received)
    (hne : received ≠ []) (hlen : received.length < bufsiz)
    (h : c.cutNewline received.length = some (b, n)) : b.take n = nickOf received := by
  have hpos : received.length ≠ 0 := fun h => hne (List.eq_nil_of_length_eq_zero h)
  have htake : ∀ m ≤ received.length, c.buf.take m = received.take m := fun m hm => by
    rw [← Buffer.take_take hm, hholds.take]
  have hlast : received.getLast? = some (c.buf (received.length - 1)) := by
    have hsucc := htake received.length le_rfl
    rw [← Nat.succ_pred_eq_of_ne_zero hpos, Nat.succ_eq_add_one, Buffer.take_succ,
      ← Nat.succ_eq_add_one, Nat.succ_pred_eq_of_ne_zero hpos, List.take_length] at hsucc
    rw [← hsucc, List.getLast?_concat]
    simp
  simp only [Client.cutNewline, hholds.strlen hlen, Option.bind_eq_bind, Option.bind_some, hpos,
    if_false] at h
  split at h
  · rename_i hnewline
    cases h
    rw [nickOf, if_pos (by rw [hlast, hnewline]), Buffer.take_update le_rfl, htake _ (by omega),
      List.dropLast_eq_take]
  · rename_i hother
    cases h
    rw [nickOf, if_neg (by simpa [hlast] using hother), hholds.take]

/-- `buf` starts with the name a client gives, a colon and a blank. -/
theorem setName_spec {c c' : Client} (hnul : 0 ∉ received) (hne : received ≠ [])
    (hlen : received.length < bufsiz) (hdata : c.data = 0)
    (h : (c.receive received).setName received = some c') :
    c'.connfd = c.connfd ∧ c'.conn = c.conn ∧ c'.writeBuf = c.writeBuf ∧ c'.welcome = false ∧
      c'.buf.take c'.data = c'.nick ++ [58, 32] ∧ 0 ∉ c'.nick := by
  have hholds : (c.receive received).buf.Holds received := by
    have := Buffer.holds_store (b := c.buf) (i := 0) (by simp [Buffer.take]) hnul
    simpa [Client.receive, hdata, Buffer.take] using this
  simp only [Client.setName, Option.bind_eq_bind, Option.bind_eq_some_iff] at h
  obtain ⟨⟨b, n⟩, hcut, h⟩ := h
  have hnick := cutNewline_spec hholds hne hlen hcut
  split at h
  · cases h
  · cases h
    refine ⟨rfl, rfl, rfl, rfl, ?_, fun hmem => hnul ?_⟩
    · simp [Buffer.take_succ, Buffer.take_update, hnick]
    · simp only [nickOf] at hmem
      split at hmem
      · exact List.mem_of_mem_dropLast hmem
      · exact hmem

/-- A client names itself. -/
theorem ok_name {c : Client} (hs : Slots p conns) (h : Mail p conns log)
    (hfd : (p.clients i).connfd = some connfd) (hunnamed : (p.clients i).welcome = true)
    (hnul : 0 ∉ received) (hne : received ≠ []) (hlen : received.length < bufsiz)
    (hname : ((p.clients i).receive received).setName received = some c) :
    Slots (p.setClient i c) conns ∧ Mail (p.setClient i c) conns log := by
  obtain ⟨hdata, hwrite⟩ := (hs.client i).unnamed hunnamed
  obtain ⟨hcfd, hconn, hcwrite, hwelcome, hheader⟩ := setName_spec hnul hne hlen hdata hname
  have hplace := hs.place i connfd hfd
  refine ⟨hs.update le_rfl rfl ⟨?_, ?_, fun _ => hheader⟩ ?_ le_rfl hs.maxi_lt ?_
    (fun fd _ _ => .rfl) ?_, ?_⟩
  · intro hfree
    rw [hcfd, hfd] at hfree
    cases hfree
  · intro hw
    rw [hwelcome] at hw
    cases hw
  · intro j hj
    rw [Client.Apart, hcfd, hconn]
    exact hs.apart i j hj.symm
  · intro fd hc
    rw [hcfd] at hc
    rw [hconn, hcwrite]
    exact hs.place i fd hc
  · intro fd hc hi
    exact absurd (hcfd.trans hi) hc
  · have hnot : ∀ j, (p.clients j).writeBuf ≠ some i := fun j hj => by
      have := (h.pending j i hj).2.1
      rw [hunnamed] at this
      cases this
    have hsettled := h.settled i (by simp [hfd]) hwrite
    exact h.update hs hfd rfl (.inl hnot) (hcwrite.trans hwrite) (.inr ⟨hconn, hconn ▸ hsettled⟩)
      (.inl hsettled) fun d _ => ⟨rfl, rfl⟩

/-- What a named client sends stands after its name in its `buf`. -/
theorem receive_holds {c : Client} (hc : c.Ok) (hnamed : c.welcome = false) (hnul : 0 ∉ received)
    (hlen : c.data + received.length < bufsiz) :
    (c.receive received).buf.Holds (c.nick ++ [58, 32] ++ received) ∧
      (c.nick ++ [58, 32] ++ received).length < bufsiz := by
  obtain ⟨hheader, hnick⟩ := hc.header hnamed
  have hnul' : 0 ∉ c.buf.take c.data := by
    rw [hheader]
    simpa using hnick
  refine ⟨?_, ?_⟩
  · rw [← hheader]
    exact Buffer.holds_store hnul' hnul
  · rw [← hheader, List.length_append, Buffer.length_take]
    exact hlen

/-- No client that is addressed is one that is not. -/
theorem Slots.conn_ne_of_addressed {j k fd : ℕ} (hs : Slots p conns) (hk : p.Addressed i k)
    (hj : (p.clients j).connfd = some fd) (hnot : ¬ p.Addressed i j) :
    (p.clients k).conn ≠ (p.clients j).conn := by
  obtain ⟨fd', hfd'⟩ := Option.ne_none_iff_exists'.mp hk.2.1
  have hkj : k ≠ j := fun heq => hnot (heq ▸ hk)
  exact (hs.apart k j hkj fd' fd hfd' hj).2

theorem Slots.conn_lt_of_addressed {j : ℕ} (hs : Slots p conns) (hj : p.Addressed i j) :
    (p.clients j).conn < conns := by
  obtain ⟨fd, hfd⟩ := Option.ne_none_iff_exists'.mp hj.2.1
  exact (hs.place j fd hfd).2.1

/-- The texts after a broadcast that finds no `writeBuf` of another client. -/
theorem Mail.broadcast {log' : Log} (hs : Slots p conns) (h : Mail p conns log)
    (hnamed : (p.clients i).welcome = false) (hnul : 0 ∉ received)
    (hlen : (p.clients i).data + received.length < bufsiz)
    (hquiet : ∀ j, j ≠ i → (p.clients j).writeBuf = none)
    (hsent : ∀ j, p.Addressed i j → log'.inbox (p.clients j).conn =
      log.inbox (p.clients j).conn ++ [(p.clients i).nick ++ [58, 32] ++ received])
    (hkept : ∀ d, (∀ j, p.Addressed i j → (p.clients j).conn ≠ d) → log'.inbox d = log.inbox d)
    (hout : ∀ d, log'.outbox d = log.outbox d) :
    Mail ((p.setClient i ((p.clients i).receive received)).broadcast i) conns log' := by
  obtain ⟨hclients, -, -, -⟩ := broadcast_spec hs (i := i)
    ((p.clients i).receive received)
  obtain ⟨htext, htextlen⟩ := receive_holds (hs.client i) hnamed hnul hlen
  have hsame := broadcast_conn hs (i := i) received
  have hkeep := fun k => broadcast_buf hs ((p.clients i).receive received) (i := i) (k := k)
  generalize (p.setClient i ((p.clients i).receive received)).broadcast i = p' at hclients hsame hkeep
  have hself : p'.clients i = (p.clients i).receive received := by rw [hclients, if_pos rfl]
  have haddressed : ∀ j, p.Addressed i j → p'.clients j = (p.clients j).waitFor i :=
    fun j hj => by rw [hclients, if_neg hj.1, if_pos hj]
  have hother : ∀ j, j ≠ i → ¬ p.Addressed i j → p'.clients j = p.clients j :=
    fun j hj hnot => by rw [hclients, if_neg hj, if_neg hnot]
  -- a connected client that is not addressed gets nothing
  have hnothing : ∀ j fd, (p.clients j).connfd = some fd → ¬ p.Addressed i j →
      log'.inbox (p.clients j).conn = log.inbox (p.clients j).conn :=
    fun j fd hj hnot => hkept _ fun k hk => hs.conn_ne_of_addressed hk hj hnot
  have hsettled : ∀ j, j ≠ i → (p.clients j).connfd ≠ none →
      log.inbox (p.clients j).conn = log.outbox (p.clients j).conn :=
    fun j hj hconn => h.settled j hconn (hquiet j hj)
  refine ⟨?_, ?_, ?_, ?_⟩
  · intro j k hj
    by_cases haddr : p.Addressed i j
    · -- its `writeBuf` is the sender's `buf`
      rw [haddressed j haddr] at hj ⊢
      cases hj
      refine ⟨haddr.1.symm, by rw [hself]; exact hnamed, _, hself ▸ htext, htextlen, ?_⟩
      show log'.inbox (p.clients j).conn = log'.outbox (p.clients j).conn ++ _
      rw [hsent j haddr, hout, hsettled j haddr.1 haddr.2.1]
    · -- only the sender may have had one
      have hji : j = i := by
        by_contra hne
        rw [hother j hne haddr, hquiet j hne] at hj
        cases hj
      subst hji
      rw [hself] at hj
      obtain ⟨hne, hk, text, hholds, hlast, hbut⟩ := h.pending j k hj
      have hwrite : (p.clients j).writeBuf ≠ none := by
        rw [show (p.clients j).writeBuf = _ from hj]
        nofun
      obtain ⟨fd, hfd⟩ := (hs.client j).connected hwrite
      refine ⟨hne, (hkeep k hne).1.trans hk, text, (hkeep k hne).2 ▸ hholds, hlast, ?_⟩
      rw [Log.AllButLast, (hsame j).2, hnothing j fd hfd haddr, hout]
      exact hbut
  · intro j hj hwrite
    by_cases haddr : p.Addressed i j
    · rw [haddressed j haddr] at hwrite
      cases hwrite
    · rw [(hsame j).1] at hj
      obtain ⟨fd, hfd⟩ := Option.ne_none_iff_exists'.mp hj
      rw [(hsame j).2, hnothing j fd hfd haddr, hout]
      rcases eq_or_ne j i with rfl | hji
      · rw [hself] at hwrite
        exact h.settled j hj hwrite
      · exact hsettled j hji hj
  · intro d hd hgone
    have hgone' : ∀ j, (p.clients j).connfd ≠ none → (p.clients j).conn ≠ d := fun j hj => by
      rw [← (hsame j).2]
      exact hgone j (by rwa [(hsame j).1])
    simp only [Log.AllButLast, hkept d fun j hj => hgone' j hj.2.1, hout]
    exact h.departed d hd hgone'
  · intro d hd
    have hgone : ∀ j, p.Addressed i j → (p.clients j).conn ≠ d := fun j hj =>
      ((hs.conn_lt_of_addressed hj).trans_le hd).ne
    rw [hkept d hgone, hout]
    exact h.fresh d hd

/-- What a step leaves of the other clients: their descriptors, and which of these are selected for
writing. -/
structure Spares (p p' : Pool) (i connfd : ℕ) : Prop where
  others : ∀ j, j ≠ i → (p'.clients j).connfd = (p.clients j).connfd
  selected : ∀ fd, fd ≠ connfd → fd ∈ p.writeFds → fd ∈ p'.writeFds
  ready : p'.readyWriteFds = p.readyWriteFds

/-- A step of one slot. -/
theorem spares_update {c : Client} (hclients : p'.clients = Function.update p.clients i c)
    (hfds : ∀ fd, fd ≠ connfd → fd ∈ p.writeFds → fd ∈ p'.writeFds)
    (hready : p'.readyWriteFds = p.readyWriteFds) : Spares p p' i connfd :=
  ⟨fun j hj => by rw [hclients, Function.update_of_ne hj], hfds, hready⟩

/-- A message of a named client, while no other client has a `writeBuf`, keeps the invariant. -/
theorem ok_message (hs : Slots p conns) (h : Mail p conns log)
    (hnamed : (p.clients i).welcome = false) (hnul : 0 ∉ received)
    (hlen : (p.clients i).data + received.length < bufsiz)
    (hquiet : ∀ j, j ≠ i → (p.clients j).writeBuf = none) :
    let p₁ := p.setClient i ((p.clients i).receive received)
    Slots (p₁.broadcast i) conns ∧
      Mail (p₁.broadcast i) conns { log with sent := log.sent ++
        [⟨(p.clients i).nick ++ [58, 32] ++ received,
          (p₁.others i).map fun j => (p₁.clients j).conn⟩] } ∧
      Spares p (p₁.broadcast i) i connfd := by
  intro p₁
  obtain ⟨-, hfds, hready, -⟩ := broadcast_spec hs (i := i) ((p.clients i).receive received)
  refine ⟨hs.broadcast, h.broadcast hs hnamed hnul hlen hquiet ?_ ?_ (fun d => rfl),
    ⟨fun j _ => (broadcast_conn hs received j).1, fun fd _ hm => (hfds fd).mpr (.inl hm), hready⟩⟩
  · intro j hj
    rw [inbox_sent, if_pos ((mem_dest hs).mpr ⟨j, hj, rfl⟩)]
  · intro d hd
    have hnot : ¬ ∃ j, p.Addressed i j ∧ (p.clients j).conn = d := fun ⟨j, hj, hjd⟩ => hd j hj hjd
    rw [inbox_sent, if_neg fun hm => hnot ((mem_dest hs).mp hm), List.append_nil]

/-- Text that comes in as `Pool.Allows` says keeps the invariant. -/
theorem ok_recv {m : Option Message} (hs : Slots p conns) (h : Mail p conns log)
    (hfd : (p.clients i).connfd = some connfd) (hallow : p.Allows i received)
    (hrecv : p.recvClient i connfd received = some (p', m)) :
    Slots p' conns ∧ Mail p' conns { log with sent := log.sent ++ m.toList } ∧
      Spares p p' i connfd := by
  obtain ⟨hnul, hlen, hmessage, hleave⟩ := hallow
  have hother : ∀ j, ¬ j < clientFdNumber → (p.clients j).writeBuf = none := fun j hj => by
    cases hwrite : (p.clients j).writeBuf with
    | none => rfl
    | some k =>
      obtain ⟨fd, hjfd⟩ := (hs.client j).connected (by rw [hwrite]; nofun)
      exact absurd (hs.lt hjfd) hj
  simp only [Pool.recvClient] at hrecv
  split at hrecv
  · cases hrecv
  · split at hrecv
    · -- the connection ends
      rename_i hnil
      cases hrecv
      subst hnil
      have hnot : ∀ j, (p.clients j).writeBuf ≠ some i := fun j => by
        by_cases hj : j < clientFdNumber
        · exact hleave rfl j hj
        · rw [hother j hj]
          nofun
      obtain ⟨hs', h'⟩ := ok_close hs h hfd hnot
      refine ⟨hs', by simpa using h', spares_update (c := initClient ((p.clients i).receive [])) ?_
        ?_ rfl⟩
      · simp [Pool.closeClient, Pool.setClient]
      · intro fd hne hm
        simp [Pool.closeClient, Pool.setClient, hne, hm]
    · rename_i hne
      split at hrecv
      · -- the client names itself
        rename_i hunnamed
        simp only [Option.map_eq_some_iff] at hrecv
        obtain ⟨c, hname, hrecv⟩ := hrecv
        have hclients : (p.setClient i ((p.clients i).receive received)).setClient i c =
            p.setClient i c := by simp [Pool.setClient]
        rw [hclients] at hrecv
        cases hrecv
        obtain ⟨hs', h'⟩ := ok_name hs h hfd hunnamed hnul hne (by omega) hname
        exact ⟨hs', by simpa using h', spares_update (c := c) rfl (fun _ _ hm => hm) rfl⟩
      · -- a message
        rename_i hnamed
        have hnamed' : (p.clients i).welcome = false := by simpa [Client.receive] using hnamed
        cases hrecv
        have hquiet : ∀ j, j ≠ i → (p.clients j).writeBuf = none := fun j hji => by
          by_cases hj : j < clientFdNumber
          · exact hmessage hne hnamed' j hj hji
          · exact hother j hj
        exact ok_message hs h hnamed' hnul hlen hquiet

/-- The invariant says nothing of `nready`. -/
theorem ok_passed (hs : Slots p conns) (h : Mail p conns log) :
    Slots p.passed conns ∧ Mail p.passed conns log :=
  ⟨⟨hs.client, hs.apart, hs.place, hs.maxi_lt, hs.served⟩,
    ⟨h.pending, h.settled, h.departed, h.fresh⟩⟩

/-- The invariant says nothing of what `select` returns. -/
theorem ok_select (hs : Slots p conns) (h : Mail p conns log) (read write exception : Finset ℕ)
    (nready : ℤ) :
    Slots (p.selected read write exception nready) conns ∧
      Mail (p.selected read write exception nready) conns log :=
  ⟨⟨hs.client, hs.apart, hs.place, hs.maxi_lt, hs.served⟩,
    ⟨h.pending, h.settled, h.departed, h.fresh⟩⟩

/-- A step for the client `i` leaves those after it as the round found them. -/
theorem round_next {s : State} (hs : s.Round) (hpc : s.pc = .check i)
    (hfd : (s.pool.clients i).connfd = some connfd) (hslots : Slots s.pool conns)
    (hspares : Spares s.pool.passed p i connfd) :
    ∀ j, i + 1 ≤ j → ∀ fd, (p.clients j).connfd = some fd →
      fd ∈ p.readyWriteFds → fd ∈ p.writeFds := by
  intro j hj fd hjfd hready
  have hji : j ≠ i := by omega
  rw [hspares.others j hji] at hjfd
  rw [hspares.ready] at hready
  simp only [State.Round, hpc] at hs
  exact hspares.selected fd (hslots.apart j i hji fd connfd hjfd hfd).1
    (hs j (by omega) fd hjfd hready)

/-- The pass for a client that is ready for writing writes the text held for it. -/
theorem ok_checkClient_write {s : State} (hs : s.Ok) (hpc : s.pc = .check i)
    (hfd : (s.pool.clients i).connfd = some connfd) (hready : s.pool.ready i = .write connfd)
    (hmem : connfd ∈ s.pool.readyWriteFds) (received : List UInt8) :
    ∃ s', checkClient s i received = some s' ∧ s'.Ok ∧
      s'.log.inbox (s.pool.clients i).conn = s'.log.outbox (s.pool.clients i).conn := by
  obtain ⟨hslots, hmail, hround⟩ := hs
  have hselected : connfd ∈ s.pool.writeFds := by
    have hround' := hround
    simp only [State.Round, hpc] at hround'
    exact hround' i le_rfl connfd hfd hmem
  have hwrite := ((hslots.place i connfd hfd).2.2).mp hselected
  obtain ⟨hslots', hmail'⟩ := ok_passed hslots hmail
  obtain ⟨text, hdo, hslots'', hmail''⟩ := ok_write hslots' hmail' hfd hwrite
  have hspares : Spares s.pool.passed (s.pool.passed.flushed i connfd) i connfd :=
    spares_update (c := { s.pool.clients i with writeBuf := none }) rfl
      (fun fd hne hm => Finset.mem_erase.mpr ⟨hne, hm⟩) rfl
  have hself : (s.pool.passed.flushed i connfd).clients i =
      { s.pool.clients i with writeBuf := none } := Function.update_self ..
  refine ⟨{ s with
    pool := s.pool.passed.flushed i connfd
    log := { s.log with written := s.log.written ++ [((s.pool.clients i).conn, text)] }
    pc := .check (i + 1) }, ?_, ⟨hslots'', hmail'', ?_⟩, ?_⟩
  · simp only [checkClient, hready, Option.bind_eq_bind]
    rw [hdo]
    rfl
  · exact round_next hround hpc hfd hslots hspares
  · have hsettled := hmail''.settled i (by rw [hself]; simp [hfd]) (by rw [hself])
    rwa [hself] at hsettled

/-- A pass keeps the invariant when it allows what it receives. -/
theorem ok_checkClient {s s' : State} (hs : s.Ok) (hpc : s.pc = .check i)
    (hallow : ∀ connfd, s.pool.ready i = .read connfd → s.pool.Allows i received)
    (hstep : checkClient s i received = some s') : s'.Ok := by
  rcases ready_cases s.pool i with hidle | ⟨connfd, hfd, ⟨hwrite, hmem⟩ | hread⟩
  · obtain ⟨hslots, hmail, hround⟩ := hs
    simp only [checkClient, hidle] at hstep
    cases hstep
    refine ⟨hslots, hmail, ?_⟩
    intro j hj
    simp only [State.Round, hpc] at hround
    exact hround j (by omega)
  · obtain ⟨s'', hdo, hok, -⟩ := ok_checkClient_write hs hpc hfd hwrite hmem received
    cases hdo.symm.trans hstep
    exact hok
  · obtain ⟨hslots, hmail, hround⟩ := hs
    simp only [checkClient, hread, Option.bind_eq_bind, Option.bind_eq_some_iff] at hstep
    obtain ⟨⟨p', m⟩, hrecv, hstep⟩ := hstep
    cases hstep
    obtain ⟨hslots', hmail'⟩ := ok_passed hslots hmail
    obtain ⟨hslots'', hmail'', hspares⟩ := ok_recv hslots' hmail' hfd (hallow connfd hread) hrecv
    exact ⟨hslots'', hmail'', round_next hround hpc hfd hslots hspares⟩

/-- Every undisturbed step keeps the invariant. -/
theorem ok_step {s s' : State} {l : Label} (hs : s.Ok) (h : Guarded Step Undisturbed s l s') :
    s'.Ok := by
  obtain ⟨hstep, hundisturbed⟩ := h
  obtain ⟨hslots, hmail, hround⟩ := hs
  cases step_cases hstep with
  | select read write exception hpc hselects =>
    obtain ⟨hslots', hmail'⟩ := ok_select hslots hmail read write exception
      (read.card + write.card + exception.card)
    refine ⟨hslots', hmail', ?_⟩
    have hsub : write ⊆ s.pool.writeFds := hselects.2.1
    by_cases hlisten : s.listenfd ∈ read
    · simp only [State.Round, hlisten, if_true]
      exact hsub
    · simp only [State.Round, hlisten, if_false]
      exact fun j _ fd _ hm => hsub hm
  | stop => exact ⟨hslots, hmail, trivial⟩
  | accept connfd pool hpc hunused hadd =>
    have hfree : ∀ i, (s.pool.clients i).connfd ≠ some connfd :=
      fun i hi => hunused.2 i (hslots.lt hi) hi
    obtain ⟨-, -, -, -, hfds, hready, -⟩ := addClient_some hadd
    refine ⟨hslots.add hfree hadd, hmail.add hslots hadd, ?_⟩
    intro j _ fd _ hm
    simp only [State.Round, hpc] at hround
    rw [hready] at hm
    rw [hfds]
    exact hround hm
  | check i received _ hpc hcond hdo =>
    refine ok_checkClient ⟨hslots, hmail, hround⟩ hpc ?_ hdo
    intro connfd hread
    exact hundisturbed i (by simp [State.reads, hpc, hread, hcond])
  | done => exact ⟨hslots, hmail, trivial⟩

end Steps

/-! ## Runs -/

/-- In every run whose steps are undisturbed, a connection has been written every text it was to get,
in order, each once and as it was received, but for the last one: that is held for it as long as it
is connected and not ready for writing, and its descriptor is then selected for writing; when it
is ready the pass of `check_clients` writes it. -/
theorem broadcast_once {s : State} {listenfd : ℕ} {ls : List Label}
    (h : Run (Guarded Step Undisturbed) (init listenfd) ls s) :
    (∀ i fd, (s.pool.clients i).connfd = some fd →
      if fd ∈ s.pool.writeFds then ∃ text, s.log.AllButLast (s.pool.clients i).conn text
      else s.log.inbox (s.pool.clients i).conn = s.log.outbox (s.pool.clients i).conn) ∧
    (∀ i fd received, s.pc = .check i → (i : ℤ) ≤ s.pool.maxi → 0 < s.pool.nready →
      s.pool.ready i = .write fd → ∃ s', Step s (.check received) s' ∧
        s'.log.inbox (s.pool.clients i).conn = s'.log.outbox (s.pool.clients i).conn) ∧
    ∀ c < s.conns, (∀ i, (s.pool.clients i).connfd ≠ none → (s.pool.clients i).conn ≠ c) →
      s.log.inbox c = s.log.outbox c ∨ ∃ text, s.log.AllButLast c text := by
  have hs : s.Ok := h.invariant (fun _ _ _ hs hstep => ok_step hs hstep) (init_ok listenfd)
  refine ⟨?_, ?_, hs.mail.departed⟩
  · intro i fd hfd
    have hiff := (hs.slots.place i fd hfd).2.2
    split
    · rename_i hm
      obtain ⟨k, hk⟩ := Option.ne_none_iff_exists'.mp (hiff.mp hm)
      obtain ⟨-, -, text, -, -, hlast⟩ := hs.mail.pending i k hk
      exact ⟨text, hlast⟩
    · rename_i hm
      refine hs.mail.settled i (by rw [hfd]; nofun) ?_
      by_contra hne
      exact hm (hiff.mpr hne)
  · intro i fd received hpc hle hpos hready
    rcases ready_cases s.pool i with hidle | ⟨fd', hfd, ⟨hwrite, hmem⟩ | hread⟩
    · cases hidle.symm.trans hready
    · obtain ⟨s', hdo, -, hall⟩ := ok_checkClient_write hs hpc hfd hwrite hmem received
      refine ⟨s', ?_, hall⟩
      simp only [Step, next, hpc]
      rwa [if_pos ⟨hle, hpos⟩]
    · cases hread.symm.trans hready

/-- It is written to the second one. -/
theorem broadcast_once_one : ∃ s, Run (Guarded Step Undisturbed) (init 3) oneMessage s ∧
    s.log.outbox 1 = [[97, 58, 32, 120]] ∧ s.log.inbox 1 = s.log.outbox 1 := by
  obtain ⟨s, hrun, hread⟩ : ∃ s, Run (Guarded Step Undisturbed) (init 3) oneMessage s ∧
      ((s.pool.clients 1).connfd, (s.pool.clients 1).conn, s.pool.writeFds, s.log.outbox 1) =
        (some 5, 1, ∅, [[97, 58, 32, 120]]) := Run.of_exec_guarded rfl
  simp only [Prod.mk.injEq] at hread
  obtain ⟨hfd, hconn, hfds, hout⟩ := hread
  have hall := (broadcast_once hrun).1 1 5 hfd
  rw [hfds, if_neg (Finset.notMem_empty 5), hconn] at hall
  exact ⟨s, hrun, hout, hall⟩

/-- Three clients connect and name themselves, and the first two send in one round. -/
def twoSenders : List Label :=
  [.select {3} ∅ ∅, .accept (some 4), .check [], .select {3} ∅ ∅, .accept (some 5), .check [],
    .select {3} ∅ ∅, .accept (some 6), .check [], .select {4, 5, 6} ∅ ∅, .check [97, 10],
    .check [98, 10], .check [99, 10], .check [], .select {4, 5} ∅ ∅, .check [120], .check [121],
    .check [], .select ∅ {4, 5, 6} ∅, .check [], .check [], .check [], .check []]

/-- The third client, which is connected and has nothing held for it, was to get both messages and
has been written the second one only. -/
theorem message_lost : ∃ s, Run Step (init 3) twoSenders s ∧
    (s.pool.clients 2).connfd = some 6 ∧ (s.pool.clients 2).conn = 2 ∧ 6 ∉ s.pool.writeFds ∧
    s.log.inbox 2 = [[97, 58, 32, 120], [98, 58, 32, 121]] ∧
    s.log.outbox 2 = [[98, 58, 32, 121]] := by
  obtain ⟨s, hrun, hread⟩ : ∃ s, Run Step (init 3) twoSenders s ∧
      ((s.pool.clients 2).connfd, (s.pool.clients 2).conn, s.pool.writeFds, s.log.inbox 2,
        s.log.outbox 2) =
        (some 6, 2, ∅, [[97, 58, 32, 120], [98, 58, 32, 121]], [[98, 58, 32, 121]]) :=
    Run.of_exec_map rfl
  simp only [Prod.mk.injEq] at hread
  obtain ⟨hfd, hconn, hfds, hin, hout⟩ := hread
  exact ⟨s, hrun, hfd, hconn, by rw [hfds]; exact Finset.notMem_empty 6, hin, hout⟩

end Chat

end Ulsp
