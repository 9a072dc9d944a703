import Ulsp.Chat.ServerOps

/-!
# What the select chat server receives into a slot

The branch of `check_clients` without `Write`, with every access to `name` and to `buf`: `none` is an
access outside of the array. The first message of a client is copied into `name`, in as many bytes as
were received, and those after it are received behind it and a colon and a blank, in up to `BUFSIZ - 1`
bytes. `inBounds_iff`: all accesses that a client's messages cause stay inside the arrays exactly if its
first message does not start with a null character and is at most `NAMESIZE` bytes long, without the
newline, and the others end before the end of `buf`.
-/

namespace Ulsp

open Lib

namespace Chat

/-- `client_t`, with its `name`. -/
structure Slot extends Client where
  name : Buffer

/-- `init_client`, which clears `buf` twice. -/
def Slot.init (s : Slot) : Slot := { s with toClient := initClient s.toClient }

/-- What `add_client` does to the slot it finds. -/
def Slot.connect (s : Slot) (connfd conn : ℕ) : Slot := { s with connfd := some connfd, conn }

/-- The bytes of a first message that are its text. -/
def textOf (received : List UInt8) : List UInt8 := received.takeWhile (· ≠ 0)

/-- The newline at the end of `buf` is cut off. -/
def Slot.cutNewline (s : Slot) (n : ℕ) : Option (Buffer × ℕ) := do
  let len ← s.buf.strlen bufsiz
  let last ← s.buf.readAt bufsiz (len - 1)
  if last = 10 then
    let buf ← s.buf.writeAt bufsiz (len - 1) [0]
    return (buf, n - 1)
  else return (s.buf, n)

/-- The branch `if (pc->welcome)`. -/
def Slot.setName (s : Slot) (received : List UInt8) : Option Slot := do
  let (buf, n) ← s.cutNewline received.length
  let copied ← buf.readTo bufsiz n
  let name ← s.name.writeAt namesize 0 (Buffer.strncpy copied)
  -- `printf` of `buf`
  let _ ← buf.cstring bufsiz
  let buf ← buf.writeAt bufsiz n [58]
  let buf ← buf.writeAt bufsiz (n + 1) [32]
  return { s with welcome := false, name, buf, data := n + 2, nick := nickOf received }

/-- The branch without `Write`, for the slot itself. -/
def Slot.receive (s : Slot) (received : List UInt8) : Option Slot :=
  if bufsiz < s.data then none
  else do
    let buf ← (s.buf.clearFrom s.data).writeAt bufsiz s.data received
    let s := { s with buf }
    if received = [] then
      -- `printf` of `name`
      let _ ← s.name.cstring namesize
      return s.init
    else if s.welcome then s.setName received
    else return s

/-- The number of bytes of a first message that are copied into `name`. -/
def nameLen (received : List UInt8) : ℕ :=
  if (textOf received).getLast? = some 10 then received.length - 1 else received.length

/-- What a first message stores in `name`: its text, and zeros if there is a null character. -/
def nameBytes (received : List UInt8) : List UInt8 :=
  nickOf (textOf received) ++ List.replicate (nameLen received - (nickOf (textOf received)).length) 0

/-- What a first message makes of `buf`. -/
def nameBuf (received : List UInt8) : Buffer :=
  let buf := Buffer.store 0 received fun _ => 0
  let buf := if (textOf received).getLast? = some 10 then
    buf.store ((textOf received).length - 1) [0] else buf
  (buf.store (nameLen received) [58]).store (nameLen received + 1) [32]

/-- The slot after a first message. -/
def Slot.named (s : Slot) (received : List UInt8) : Slot :=
  { s with
    welcome := false
    name := s.name.store 0 (nameBytes received)
    buf := nameBuf received
    data := nameLen received + 2
    nick := nickOf received }

/-- The first message can name the client, and those after it fit behind the name. -/
def InBounds : List (List UInt8) → Prop
  | [] => True
  | first :: later =>
    first.head? ≠ some 0 ∧ nameLen first ≤ namesize ∧
      ∀ m ∈ later, nameLen first + 2 + m.length ≤ bufsiz

variable {s t : Slot} {b : Buffer} {text received first : List UInt8} {n : ℕ}

/-! ## The first message -/

/-- A message that is not empty has an empty text if it starts with a null character. -/
theorem textOf_eq_nil (h : received ≠ []) : textOf received = [] ↔ received.head? = some 0 := by
  obtain ⟨c, cs, rfl⟩ := List.exists_cons_of_ne_nil h
  by_cases hc : c = 0 <;> simp [textOf, hc]

theorem length_textOf (received : List UInt8) : (textOf received).length ≤ received.length :=
  (List.takeWhile_prefix _).length_le

theorem nameLen_le (received : List UInt8) : nameLen received ≤ received.length := by
  unfold nameLen
  split <;> omega

/-- The name is in the bytes that are copied. -/
theorem length_nick_le (received : List UInt8) :
    (nickOf (textOf received)).length ≤ nameLen received := by
  have htext := length_textOf received
  unfold nickOf nameLen
  split
  · rw [List.length_dropLast]
    exact Nat.sub_le_sub_right htext 1
  · exact htext

@[simp]
theorem length_nameBytes : (nameBytes received).length = nameLen received := by
  rw [nameBytes, List.length_append, List.length_replicate]
  exact Nat.add_sub_cancel' (length_nick_le received)

/-- The text of a buffer without a newline at its end. -/
theorem holds_cut (h : b.Holds text) : Buffer.Holds
    (if text.getLast? = some 10 then b.store (text.length - 1) [0] else b) (nickOf text) := by
  unfold nickOf
  split
  · rename_i hlast
    obtain ⟨front, rfl⟩ := List.getLast?_eq_some_iff.mp hlast
    rw [List.dropLast_concat, List.length_append]
    exact h.truncate
  · exact h

theorem cutNewline_eq (h : s.buf.Holds text) (hlen : text.length < bufsiz) (hne : text ≠ []) :
    s.cutNewline n = some (if text.getLast? = some 10 then s.buf.store (text.length - 1) [0] else s.buf,
      if text.getLast? = some 10 then n - 1 else n) := by
  obtain ⟨front, hfront⟩ := List.getLast?_eq_some_iff.mp (List.getLast?_eq_some_getLast hne)
  generalize text.getLast hne = c at hfront
  subst hfront
  rw [List.length_append, List.length_singleton] at hlen ⊢
  have hread : s.buf.readAt bufsiz ((front.length + 1 : ℕ) - 1) = some c := by
    rw [Nat.cast_succ, add_sub_cancel_right, Buffer.readAt_of_lt (by omega), h.last]
  have hwrite : s.buf.writeAt bufsiz ((front.length + 1 : ℕ) - 1) [0] =
      some (s.buf.store front.length [0]) := by
    rw [Nat.cast_succ, add_sub_cancel_right]
    exact Buffer.writeAt_of_le (Nat.le_of_lt hlen)
  have hstrlen : s.buf.strlen bufsiz = some (front.length + 1) := by
    rw [h.strlen (by simpa using hlen), List.length_append, List.length_singleton]
  simp only [Slot.cutNewline, hstrlen, hread, hwrite, Option.bind_eq_bind, Option.bind_some,
    Option.pure_def, List.getLast?_concat, Option.some.injEq, Nat.add_sub_cancel]
  split <;> rfl

/-- An empty text has no last byte. -/
theorem cutNewline_nil (h : s.buf.Holds []) : s.cutNewline n = none := by
  have hstrlen : s.buf.strlen bufsiz = some 0 := h.strlen (by decide)
  rw [Slot.cutNewline, hstrlen]
  rfl

/-- The slot gets its name once the newline is cut off `buf`. -/
theorem setName_of_cut {cut : Buffer} {name : List UInt8} (hholds : cut.Holds name)
    (hcut : s.cutNewline received.length = some (cut, n)) (hname : name.length ≤ n) (hn : n < bufsiz) :
    s.setName received =
      if namesize < n then none
      else some { s with
        welcome := false
        name := s.name.store 0 (name ++ List.replicate (n - name.length) 0)
        buf := (cut.store n [58]).store (n + 1) [32]
        data := n + 2
        nick := nickOf received } := by
  have hto : cut.readTo bufsiz n = some (cut.take n) := if_pos (Nat.le_of_lt hn)
  have hlen : (name ++ List.replicate (n - name.length) 0).length = n := by
    rw [List.length_append, List.length_replicate, Nat.add_sub_cancel' hname]
  rw [Slot.setName, hcut]
  change (cut.readTo bufsiz n).bind _ = _
  rw [hto, Option.bind_some, hholds.strncpy hname]
  rcases Nat.lt_or_ge namesize n with hlong | hshort
  · rw [if_pos hlong, Buffer.writeAt, if_neg (by rw [hlen]; omega)]
    rfl
  · have hsize : namesize + 2 ≤ bufsiz := by decide
    have hwrite : s.name.writeAt namesize 0 (name ++ List.replicate (n - name.length) 0) =
        some (s.name.store 0 (name ++ List.replicate (n - name.length) 0)) :=
      Buffer.writeAt_of_le (i := 0) (by rwa [hlen, Nat.zero_add])
    have hcolon : cut.writeAt bufsiz n [58] = some (cut.store n [58]) := Buffer.writeAt_of_le hn
    have hblank : (cut.store n [58]).writeAt bufsiz (n + 1) [32] =
        some ((cut.store n [58]).store (n + 1) [32]) :=
      Buffer.writeAt_of_le (i := n + 1) (by rw [List.length_singleton]; omega)
    rw [if_neg (Nat.not_lt.mpr hshort)]
    change (s.name.writeAt namesize 0 _).bind _ = _
    rw [hwrite, Option.bind_some]
    change (cut.cstring bufsiz).bind _ = _
    rw [hholds.cstring (Nat.lt_of_le_of_lt hname hn), Option.bind_some]
    change (cut.writeAt bufsiz n [58]).bind _ = _
    rw [hcolon, Option.bind_some]
    change (Buffer.writeAt bufsiz _ (n + 1) [32]).bind _ = _
    rw [hblank]
    rfl

/-- What the first message does to the slot, if it starts with no null character and is not too
long. -/
theorem setName_eq (hbuf : s.buf = Buffer.store 0 received fun _ => 0) (hne : received ≠ [])
    (hlen : received.length < bufsiz) : s.setName received =
      if received.head? = some 0 ∨ namesize < nameLen received then none
      else some (s.named received) := by
  have hholds : s.buf.Holds (textOf received) := by
    rw [hbuf]
    exact Buffer.holds_store_takeWhile
  by_cases hnil : textOf received = []
  · rw [if_pos (.inl ((textOf_eq_nil hne).mp hnil)), Slot.setName, cutNewline_nil (hnil ▸ hholds)]
    rfl
  · have hhead : received.head? ≠ some 0 := fun h => hnil ((textOf_eq_nil hne).mpr h)
    have hcut := cutNewline_eq (n := received.length) hholds
      (Nat.lt_of_le_of_lt (length_textOf received) hlen) hnil
    rw [setName_of_cut (holds_cut hholds) hcut (length_nick_le received)
      (Nat.lt_of_le_of_lt (nameLen_le received) hlen)]
    rw [Slot.named, nameBuf, nameBytes, hbuf]
    simp only [hhead, false_or]
    rfl

/-- The first message of a client. -/
theorem receive_first (hw : s.welcome = true) (hdata : s.data = 0) (hne : received ≠ [])
    (hlen : received.length < bufsiz) : s.receive received =
      if received.head? = some 0 ∨ namesize < nameLen received then none
      else some (s.named received) := by
  have hwrite : (s.buf.clearFrom 0).writeAt bufsiz 0 received =
      some (Buffer.store 0 received fun _ => 0) := by
    rw [Buffer.clearFrom_zero]
    exact Buffer.writeAt_of_le (i := 0) (by omega)
  rw [Slot.receive, hdata, if_neg (Nat.not_lt_zero _)]
  change ((s.buf.clearFrom 0).writeAt bufsiz 0 received).bind _ = _
  rw [hwrite, Option.bind_some, if_neg hne, if_pos hw]
  exact setName_eq (s := { s with buf := Buffer.store 0 received fun _ => 0 }) rfl hne hlen

/-! ## All messages -/

/-- A later message fits behind the name or it does not. -/
theorem receive_later (hw : s.welcome = false) (hne : received ≠ []) : s.receive received =
    if s.data + received.length ≤ bufsiz then
      some { s with buf := (s.buf.clearFrom s.data).store s.data received }
    else none := by
  unfold Slot.receive
  rcases Nat.lt_or_ge bufsiz s.data with hpast | hin
  · rw [if_pos hpast, if_neg (by omega)]
  · rw [if_neg (Nat.not_lt.mpr hin)]
    change ((s.buf.clearFrom s.data).writeAt bufsiz s.data received).bind _ = _
    by_cases hfit : s.data + received.length ≤ bufsiz
    · rw [if_pos hfit, Buffer.writeAt_of_le hfit, Option.bind_some, if_neg hne, if_neg (by simp [hw])]
      rfl
    · rw [if_neg hfit, Buffer.writeAt, if_neg (by omega), Option.bind_none]

/-- The messages after the name. -/
theorem exec_receive_later {messages : List (List UInt8)} (hw : s.welcome = false)
    (hdata : s.data < bufsiz) (hne : ∀ m ∈ messages, m ≠ []) :
    (∃ t, exec Slot.receive s messages = some t ∧ t.data < bufsiz) ↔
      ∀ m ∈ messages, s.data + m.length ≤ bufsiz := by
  induction messages generalizing s with
  | nil => exact ⟨fun _ => nofun, fun _ => ⟨s, rfl, hdata⟩⟩
  | cons m messages ih =>
    obtain ⟨hm, hrest⟩ := List.forall_mem_cons.mp hne
    rw [List.forall_mem_cons, exec, List.foldlM_cons, receive_later hw hm]
    split
    · rename_i hfit
      rw [and_iff_right hfit]
      exact ih (s := { s with buf := (s.buf.clearFrom s.data).store s.data m }) hw hdata hrest
    · rename_i hfit
      simp [hfit]

/-- All messages of a client. -/
theorem exec_receive_iff {messages : List (List UInt8)} (hw : s.welcome = true) (hdata : s.data = 0)
    (hne : ∀ m ∈ messages, m ≠ []) (hlen : ∀ m ∈ messages, m.length < bufsiz) :
    (∃ t, exec Slot.receive s messages = some t ∧ t.data < bufsiz) ↔ InBounds messages := by
  cases messages with
  | nil => exact ⟨fun _ => trivial, fun _ => ⟨s, rfl, hdata ▸ by decide⟩⟩
  | cons first later =>
    obtain ⟨hfirst, hrest⟩ := List.forall_mem_cons.mp hne
    rw [exec, List.foldlM_cons, receive_first hw hdata hfirst (hlen _ List.mem_cons_self)]
    split
    · rename_i hbad
      refine iff_of_false ?_ ?_
      · rintro ⟨_, h, -⟩
        cases h
      · rintro ⟨hhead, hname, -⟩
        exact hbad.elim hhead (Nat.not_lt.mpr hname)
    · rename_i hok
      obtain ⟨hhead, hname⟩ := not_or.mp hok
      have hsize : namesize + 2 < bufsiz := by decide
      have hsmall : (s.named first).data < bufsiz := show nameLen first + 2 < bufsiz by omega
      refine (exec_receive_later (s := s.named first) rfl hsmall hrest).trans ?_
      exact ⟨fun h => ⟨hhead, Nat.not_lt.mp hname, h⟩, fun h => h.2.2⟩

/-- What fits for all messages fits for the first few. -/
theorem InBounds.of_prefix {before messages : List (List UInt8)} (h : InBounds messages)
    (hpre : before <+: messages) : InBounds before := by
  obtain ⟨rest, rfl⟩ := hpre
  cases before with
  | nil => trivial
  | cons first later => exact ⟨h.1, h.2.1, fun m hm => h.2.2 m (List.mem_append_left rest hm)⟩

/-- For every client that connects, whatever its slot held before, and all its messages: after each of
them every access was inside `name` and `buf`, and `data` points into `buf`, exactly if the first
message can name the client and those after it fit behind the name. -/
theorem inBounds_iff (s : Slot) (connfd conn : ℕ) (messages : List (List UInt8))
    (hne : ∀ m ∈ messages, m ≠ []) (hlen : ∀ m ∈ messages, m.length < bufsiz) :
    (∀ before, before <+: messages →
      ∃ t, exec Slot.receive (s.init.connect connfd conn) before = some t ∧ t.data < bufsiz) ↔
    InBounds messages := by
  have hall : ∀ before, before <+: messages →
      ((∃ t, exec Slot.receive (s.init.connect connfd conn) before = some t ∧ t.data < bufsiz) ↔
        InBounds before) := fun before hpre =>
    exec_receive_iff rfl rfl (fun m hm => hne m (hpre.subset hm)) fun m hm => hlen m (hpre.subset hm)
  refine ⟨fun h => (hall _ List.prefix_rfl).mp (h _ List.prefix_rfl), ?_⟩
  intro h before hpre
  exact (hall before hpre).mpr (h.of_prefix hpre)

/-- A slot whose memory was zero at first. -/
def Slot.zero : Slot := ⟨⟨true, none, fun _ => 0, 0, none, 0, []⟩, fun _ => 0⟩

/-- A name of two bytes and its newline, and a message. -/
theorem inBounds_al : (∀ before, before <+: [[97, 108, 10], [104, 105, 10]] →
    ∃ t, exec Slot.receive (Slot.zero.init.connect 4 0) before = some t ∧ t.data < bufsiz) ↔
      InBounds [[97, 108, 10], [104, 105, 10]] :=
  inBounds_iff .zero 4 0 _ (by decide) (by decide)

/-- A name of 17 bytes is copied past the end of `name`. -/
theorem long_name_outside : ¬ ∀ before, before <+: [List.replicate 17 97] →
    ∃ t, exec Slot.receive (Slot.zero.init.connect 4 0) before = some t ∧ t.data < bufsiz := by
  intro h
  have hbounds : InBounds [List.replicate 17 97] :=
    (exec_receive_iff rfl rfl (by decide) (by decide)).mp (h _ List.prefix_rfl)
  exact absurd hbounds.2.1 (by decide)

/-! ## The slot in the pool -/

/-- The server's model cuts off the newline in the same way. -/
theorem cutNewline_client {cut : Buffer} {k : ℕ} (h : s.cutNewline n = some (cut, k)) :
    s.toClient.cutNewline n = some (cut, k) := by
  obtain ⟨len, hlen, h⟩ := Option.bind_eq_some_iff.mp h
  obtain ⟨last, hlast, h⟩ := Option.bind_eq_some_iff.mp h
  obtain ⟨hpos, hbyte⟩ := Buffer.readAt_eq_some hlast
  have hindex : ((len : ℤ) - 1).toNat = len - 1 := by omega
  rw [hindex] at hbyte
  have hclient : s.toClient.cutNewline n =
      if s.buf (len - 1) = 10 then some (Function.update s.buf (len - 1) 0, n - 1)
      else some (s.buf, n) := by
    rw [Client.cutNewline, hlen]
    exact if_neg (by omega)
  rw [hclient, hbyte]
  split at h
  · rename_i hnewline
    obtain ⟨buf, hwrite, h⟩ := Option.bind_eq_some_iff.mp h
    obtain ⟨-, hbuf⟩ := Buffer.writeAt_eq_some hwrite
    rw [if_pos hnewline, ← Buffer.store_singleton, ← hindex, hbuf]
    exact h
  · rename_i hnewline
    rw [if_neg hnewline]
    exact h

/-- A client's name in the server's model. -/
theorem setName_client (h : s.setName received = some t) :
    s.toClient.setName received = some t.toClient := by
  obtain ⟨⟨cut, k⟩, hcut, h⟩ := Option.bind_eq_some_iff.mp h
  obtain ⟨copied, hcopied, h⟩ := Option.bind_eq_some_iff.mp h
  obtain ⟨name, hname, h⟩ := Option.bind_eq_some_iff.mp h
  obtain ⟨-, -, h⟩ := Option.bind_eq_some_iff.mp h
  obtain ⟨buf, hcolon, h⟩ := Option.bind_eq_some_iff.mp h
  obtain ⟨buf', hblank, h⟩ := Option.bind_eq_some_iff.mp h
  obtain ⟨hfit, -⟩ := Buffer.writeAt_eq_some hname
  obtain ⟨-, rfl⟩ := Buffer.writeAt_eq_some hcolon
  obtain ⟨-, rfl⟩ := Buffer.writeAt_eq_some hblank
  obtain ⟨-, hcopy⟩ := Option.ite_none_right_eq_some.mp hcopied
  rw [Buffer.length_strncpy, ← Option.some.inj hcopy, Buffer.length_take] at hfit
  have hclient : s.toClient.setName received =
      if namesize < k then none
      else some { s.toClient with
        welcome := false
        buf := Function.update (Function.update cut k 58) (k + 1) 32
        data := k + 2
        nick := nickOf received } := by
    rw [Client.setName, cutNewline_client hcut]
    rfl
  rw [hclient, if_neg (by omega), ← Buffer.store_singleton, ← Buffer.store_singleton]
  exact congrArg (Option.map Slot.toClient) h

/-- What is received in the server's model, for the client in the slot. -/
theorem recvClient_slot {p : Pool} {i connfd : ℕ} (hs : p.clients i = s.toClient)
    (hlen : received.length < bufsiz) (h : s.receive received = some t) :
    ∃ p' message, p.recvClient i connfd received = some (p', message) ∧
      p'.clients i = t.toClient := by
  obtain ⟨-, h⟩ := Option.ite_none_left_eq_some.mp h
  obtain ⟨buf, hwrite, h⟩ := Option.bind_eq_some_iff.mp h
  obtain ⟨hfit, rfl⟩ := Buffer.writeAt_eq_some hwrite
  have hin : ¬ (bufsiz ≤ received.length ∨ bufsiz < (p.clients i).data + received.length) := by
    rw [hs]
    omega
  set r : Slot := { s with buf := (s.buf.clearFrom s.data).store s.data received }
  have hr : (p.clients i).receive received = r.toClient := by rw [hs]; rfl
  have hself : (p.setClient i r.toClient).clients i = r.toClient := Function.update_self ..
  unfold Pool.recvClient
  rw [if_neg hin, hr]
  by_cases hnil : received = []
  · rw [if_pos hnil] at h ⊢
    obtain ⟨-, -, h⟩ := Option.bind_eq_some_iff.mp h
    refine ⟨_, _, rfl, ?_⟩
    rw [← Option.some.inj h]
    refine (Function.update_self ..).trans ?_
    rw [hself]
    rfl
  · rw [if_neg hnil] at h ⊢
    change (if r.welcome = true then r.setName received else some r) = some t at h
    by_cases hwelcome : r.welcome = true
    · rw [if_pos hwelcome] at h ⊢
      rw [setName_client h]
      exact ⟨_, _, rfl, Function.update_self ..⟩
    · rw [if_neg hwelcome] at h ⊢
      refine ⟨_, _, rfl, ?_⟩
      have hclients := (foldl_address_spec i (List.range ((p.setClient i r.toClient).maxi + 1).toNat)
        (p.setClient i r.toClient)).1 i
      rw [if_neg fun haddr => haddr.2.1 rfl, hself] at hclients
      rw [← Option.some.inj h]
      exact hclients

end Chat

end Ulsp
