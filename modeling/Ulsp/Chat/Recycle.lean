import Ulsp.Chat.Receive

/-!
# The slots of the select chat server, used again

A slot is given to one connection after the other. `init_client` runs before the first of them and when
one of them ends, and clears `buf` twice, `name` never; what the first message stores in `name` ends
with no null character unless the message contains one. `recycled_iff`: after the same first message
two slots with different histories hold the same `name` and `buf`, and the name that was received,
exactly if the message does not start with a null character, and what the earlier occupants left in
`name` behind it is the same and starts with a null character.
-/

namespace Ulsp

open Lib

namespace Chat

/-- What happens to a slot: a connection is accepted, something is received, nothing when the connection
ends; or another client has a message for it, and it is written. -/
inductive SlotCall where
  | connect (connfd conn : ℕ)
  | recv (received : List UInt8)
  | address (i : ℕ)
  | flush

/-- The steps of a slot. -/
def Slot.next (s : Slot) : SlotCall → Option Slot
  | .connect connfd conn => if s.connfd = none then some (s.connect connfd conn) else none
  | .recv received =>
    if s.connfd = none ∨ bufsiz ≤ received.length then none else s.receive received
  | .address i =>
    if s.connfd = none ∨ s.welcome then none else some { s with writeBuf := some i }
  | .flush => if s.writeBuf = none then none else some { s with writeBuf := none }

/-- The step relation. -/
def SlotStep (s : Slot) (e : SlotCall) (t : Slot) : Prop := s.next e = some t

/-- The message gives the next occupants of both slots the name that was received, and makes the same
of the arrays. -/
def NamedAlike (s s' : Slot) (received : List UInt8) : Prop :=
  ∃ t t', s.receive received = some t ∧ s'.receive received = some t' ∧
    t.name.take namesize = t'.name.take namesize ∧ t.buf.take bufsiz = t'.buf.take bufsiz ∧
    t.name.cstring namesize = some (nickOf (textOf received)) ∧
    t'.name.cstring namesize = some (nickOf (textOf received))

/-- What was left in `name` behind the bytes of the message is the same and ends the name. -/
def NothingLeft (s s' : Slot) (received : List UInt8) : Prop :=
  received.head? ≠ some 0 ∧
    (∀ k, nameLen received ≤ k → k < namesize → s.name k = s'.name k) ∧
    (0 ∈ received ∨ s.name (nameLen received) = 0)

variable {s s' d d' : Slot} {es es' : List SlotCall} {received : List UInt8}

/-! ## The slot that a client left -/

theorem slotStep_recv (hfd : s.connfd ≠ none) (hlen : received.length < bufsiz) :
    SlotStep s (.recv received) d ↔ s.receive received = some d := by
  rw [SlotStep, Slot.next, if_neg (not_or.mpr ⟨hfd, Nat.not_le.mpr hlen⟩)]

/-- `printf` of `name` at the end of a connection, and `init_client`. -/
theorem receive_nil {name : List UInt8} (hdata : s.data ≤ bufsiz)
    (hname : s.name.cstring namesize = some name) : s.receive [] = some s.init := by
  rw [Slot.receive, if_neg (Nat.not_lt.mpr hdata)]
  change (Buffer.writeAt bufsiz _ s.data []).bind _ = _
  rw [Buffer.writeAt_of_le hdata, Option.bind_some, if_pos rfl]
  change (s.name.cstring namesize).bind _ = _
  rw [hname]
  rfl

/-- The slot is free, as `init_client` leaves it. -/
structure Slot.Left (s : Slot) : Prop where
  connfd : s.connfd = none
  welcome : s.welcome = true
  data : s.data = 0
  buf : s.buf = fun _ => 0

/-- The end of a connection. -/
theorem left_of_step (h : SlotStep s (.recv []) d) : d.Left := by
  obtain ⟨-, h⟩ := Option.ite_none_left_eq_some.mp h
  obtain ⟨-, h⟩ := Option.ite_none_left_eq_some.mp h
  obtain ⟨buf, -, h⟩ := Option.bind_eq_some_iff.mp h
  rw [if_pos rfl] at h
  obtain ⟨-, -, h⟩ := Option.bind_eq_some_iff.mp h
  rw [← Option.some.inj h]
  exact ⟨rfl, rfl, rfl, rfl⟩

/-- The end of a history. -/
theorem left_of_run (h : Run SlotStep s (es ++ [.recv []]) d) : d.Left := by
  obtain ⟨_, -, hstep⟩ := Run.tail_iff.mp h
  exact left_of_step hstep

/-! ## The name of the next client -/

/-- The bytes that name the client are more than its name if there is a null character in them. -/
theorem length_nick_lt : (nickOf (textOf received)).length < nameLen received ↔ 0 ∈ received := by
  have htext : (textOf received).length < received.length ↔ 0 ∈ received := by
    by_cases hzero : 0 ∈ received
    · obtain ⟨text, rest, rfl, hfree⟩ := List.eq_append_cons_of_mem hzero
      rw [textOf, Buffer.takeWhile_text_append hfree, List.length_append, List.length_cons]
      exact iff_of_true (by omega) hzero
    · rw [textOf, Buffer.takeWhile_eq_self.mpr hzero]
      exact iff_of_false (Nat.lt_irrefl _) hzero
  rw [← htext, nickOf, nameLen]
  split
  · rename_i hlast
    obtain ⟨front, hfront⟩ := List.getLast?_eq_some_iff.mp hlast
    rw [hfront, List.dropLast_concat, List.length_append, List.length_singleton]
    omega
  · rfl

/-- The name after the first message is the one received if it ends there. -/
theorem cstring_named (hlen : received.length < namesize) :
    (s.named received).name.cstring namesize = some (nickOf (textOf received)) ↔
      0 ∈ received ∨ s.name (nameLen received) = 0 := by
  have hfree : 0 ∉ nickOf (textOf received) := (holds_cut Buffer.holds_store_takeWhile).nul_free
  have hle := length_nick_le received
  have hname := nameLen_le received
  have hlt : (nickOf (textOf received)).length < namesize := by omega
  have hstored : (s.named received).name = s.name.store 0 (nickOf (textOf received) ++
      List.replicate (nameLen received - (nickOf (textOf received)).length) 0) := rfl
  rw [Buffer.cstring_eq_some_iff, and_iff_left hlt, hstored, ← length_nick_lt]
  rcases Nat.lt_or_ge (nickOf (textOf received)).length (nameLen received) with hzero | hend
  · obtain ⟨k, hk⟩ := Nat.exists_eq_add_of_lt (Nat.sub_pos_of_lt hzero)
    rw [hk, List.replicate_succ]
    exact iff_of_true (Buffer.holds_store_zero hfree) (.inl hzero)
  · have heq : (nickOf (textOf received)).length = nameLen received := Nat.le_antisymm hle hend
    rw [heq, Nat.sub_self, List.replicate_zero, List.append_nil, ← heq]
    have hafter : s.name.store 0 (nickOf (textOf received)) (nickOf (textOf received)).length =
        s.name (nickOf (textOf received)).length := Buffer.store_of_le (by omega)
    have htake : (s.name.store 0 (nickOf (textOf received))).take
        (0 + (nickOf (textOf received)).length) = nickOf (textOf received) := Buffer.take_store
    rw [Nat.zero_add] at htake
    refine ⟨fun h => .inr (hafter ▸ h.terminated), ?_⟩
    rintro (h | h)
    · exact absurd h (Nat.lt_irrefl _)
    · exact ⟨htake, hafter.trans h, hfree⟩

/-- The names are the same after the message if they were behind it. -/
theorem take_named (s s' : Slot) (received : List UInt8) :
    (s.named received).name.take namesize = (s'.named received).name.take namesize ↔
      ∀ k, nameLen received ≤ k → k < namesize → s.name k = s'.name k := by
  rw [Buffer.take_eq_take_iff]
  have hbehind : ∀ (r : Slot) k, nameLen received ≤ k → (r.named received).name k = r.name k :=
    fun r k hk => Buffer.store_of_le (b := r.name) (i := 0) (by rwa [length_nameBytes, Nat.zero_add])
  refine ⟨?_, ?_⟩
  · intro h k hk hlt
    rw [← hbehind s k hk, ← hbehind s' k hk]
    exact h k hlt
  · intro h k hlt
    rcases Nat.lt_or_ge k (nameLen received) with hk | hk
    · exact Buffer.store_of_lt (Nat.zero_le k) (by rwa [length_nameBytes, Nat.zero_add])
    · rw [hbehind s k hk, hbehind s' k hk]
      exact h k hk hlt

/-- The first message after a client has left. -/
theorem Slot.Left.receive (h : s.Left) (connfd conn : ℕ) (hne : received ≠ [])
    (hlen : received.length < namesize) : (s.connect connfd conn).receive received =
      if received.head? = some 0 then none else some ((s.connect connfd conn).named received) := by
  have hsize : namesize ≤ bufsiz := by decide
  have hname := nameLen_le received
  have hshort : ¬ namesize < nameLen received := by omega
  rw [receive_first (s := s.connect connfd conn) h.welcome h.data hne (by omega)]
  simp only [hshort, or_false]

/-- A first message to two slots that clients have left. -/
theorem namedAlike_iff (h : d.Left) (h' : d'.Left) (connfd conn connfd' conn' : ℕ)
    (hne : received ≠ []) (hlen : received.length < namesize) :
    NamedAlike (d.connect connfd conn) (d'.connect connfd' conn') received ↔
      NothingLeft d d' received := by
  have hreceive := h.receive connfd conn hne hlen
  have hreceive' := h'.receive connfd' conn' hne hlen
  unfold NamedAlike NothingLeft
  rw [hreceive, hreceive']
  by_cases hhead : received.head? = some 0
  · rw [if_pos hhead, if_pos hhead]
    refine iff_of_false ?_ fun h => h.1 hhead
    rintro ⟨_, _, ht, -⟩
    cases ht
  · rw [if_neg hhead, if_neg hhead]
    have hnames := take_named (d.connect connfd conn) (d'.connect connfd' conn') received
    have hstring := cstring_named (s := d.connect connfd conn) hlen
    have hstring' := cstring_named (s := d'.connect connfd' conn') hlen
    refine ⟨?_, ?_⟩
    · rintro ⟨_, _, ⟨⟩, ⟨⟩, hname, -, hcstring, -⟩
      exact ⟨hhead, hnames.mp hname, hstring.mp hcstring⟩
    · rintro ⟨-, hsame, hend⟩
      refine ⟨_, _, rfl, rfl, hnames.mpr hsame, rfl, hstring.mpr hend, hstring'.mpr ?_⟩
      have hlt : nameLen received < namesize := Nat.lt_of_le_of_lt (nameLen_le received) hlen
      exact hend.imp_right ((hsame _ (Nat.le_refl _) hlt).symm.trans ·)

/-- For every two slots that clients have left, whatever the slots held at first and whatever happened
to them before, and every first message of the next client that is shorter than `NAMESIZE`: it makes the
same of both slots, and its own text the name, exactly if it does not start with a null character and
what was left in `name` behind it is the same and ends the name. -/
theorem recycled_iff (s s' : Slot) (h : Run SlotStep s.init (es ++ [.recv []]) d)
    (h' : Run SlotStep s'.init (es' ++ [.recv []]) d') (connfd conn connfd' conn' : ℕ)
    (hne : received ≠ []) (hlen : received.length < namesize) :
    NamedAlike (d.connect connfd conn) (d'.connect connfd' conn') received ↔
      NothingLeft d d' received :=
  namedAlike_iff (left_of_run h) (left_of_run h') connfd conn connfd' conn' hne hlen

/-- A client that connects, gives its name and leaves. -/
theorem visit_run (h : s.Left) (connfd conn : ℕ) (received : List UInt8) (hne : received ≠ [])
    (hlen : received.length < namesize) (hhead : received.head? ≠ some 0)
    (hend : 0 ∈ received ∨ s.name (nameLen received) = 0) : ∃ d,
      Run SlotStep s ([.connect connfd conn, .recv received] ++ [.recv []]) d ∧
        d.name = s.name.store 0 (nameBytes received) := by
  have hsize : namesize + 2 ≤ bufsiz := by decide
  have hname := nameLen_le received
  let named := (s.connect connfd conn).named received
  have hconnect : SlotStep s (.connect connfd conn) (s.connect connfd conn) := if_pos h.connfd
  have hnamed : SlotStep (s.connect connfd conn) (.recv received) named := by
    rw [slotStep_recv (Option.some_ne_none connfd) (by omega), h.receive connfd conn hne hlen,
      if_neg hhead]
  have hprintf : named.name.cstring namesize = some (nickOf (textOf received)) :=
    (cstring_named (s := s.connect connfd conn) hlen).mpr hend
  have hdata : named.data ≤ bufsiz := show nameLen received + 2 ≤ bufsiz by omega
  have hleave : SlotStep named (.recv []) named.init :=
    (slotStep_recv (Option.some_ne_none connfd) (by decide)).mpr (receive_nil hdata hprintf)
  exact ⟨_, (Run.single hconnect).append (.single hnamed) |>.tail hleave, rfl⟩

/-- Two clients with names of the same length, and a third. -/
theorem recycled_eve : ∃ d d',
    Run SlotStep Slot.zero.init ([.connect 4 0, .recv [98, 111, 98, 10]] ++ [.recv []]) d ∧
    Run SlotStep Slot.zero.init ([.connect 4 0, .recv [97, 109, 121, 10]] ++ [.recv []]) d' ∧
    (NamedAlike (d.connect 4 1) (d'.connect 4 1) [101, 118, 101, 10] ↔
      NothingLeft d d' [101, 118, 101, 10]) := by
  obtain ⟨d, hrun, -⟩ := visit_run (s := .init .zero) ⟨rfl, rfl, rfl, rfl⟩ 4 0
    [98, 111, 98, 10] (by decide) (by decide) (by decide) (by decide)
  obtain ⟨d', hrun', -⟩ := visit_run (s := .init .zero) ⟨rfl, rfl, rfl, rfl⟩ 4 0
    [97, 109, 121, 10] (by decide) (by decide) (by decide) (by decide)
  exact ⟨d, d', hrun, hrun', recycled_iff _ _ hrun hrun' 4 1 4 1 (by decide) (by decide)⟩

/-- After the client `alexander` the client `eve` is called `evexander`, and after `bob` it is not. -/
theorem eve_after_alexander : ∃ d d',
    Run SlotStep Slot.zero.init
      ([.connect 4 0, .recv [97, 108, 101, 120, 97, 110, 100, 101, 114, 10]] ++ [.recv []]) d ∧
    Run SlotStep Slot.zero.init ([.connect 4 0, .recv [98, 111, 98, 10]] ++ [.recv []]) d' ∧
    ¬ NamedAlike (d.connect 4 1) (d'.connect 4 1) [101, 118, 101, 10] := by
  obtain ⟨d, hrun, hd⟩ := visit_run (s := .init .zero) ⟨rfl, rfl, rfl, rfl⟩ 4 0
    [97, 108, 101, 120, 97, 110, 100, 101, 114, 10] (by decide) (by decide) (by decide)
    (by decide)
  obtain ⟨d', hrun', hd'⟩ := visit_run (s := .init .zero) ⟨rfl, rfl, rfl, rfl⟩ 4 0
    [98, 111, 98, 10] (by decide) (by decide) (by decide) (by decide)
  refine ⟨d, d', hrun, hrun', ?_⟩
  rw [namedAlike_iff (left_of_run hrun) (left_of_run hrun') 4 1 4 1 (by decide) (by decide)]
  rintro ⟨-, hsame, -⟩
  have hbyte := hsame 3 (by decide) (by decide)
  rw [hd, hd'] at hbyte
  exact absurd hbyte (by decide)

end Chat

end Ulsp
