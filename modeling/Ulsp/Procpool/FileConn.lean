import Mathlib.Data.Int.Notation
import Ulsp.Lib.Buffer
import Ulsp.Lib.Run

/-!
# The connections of the file server (`net/file_server_procpool.cc`)

An element of `users` in `run_child` holds a `FileConn`, which connections use one after the other:
`init` sets the descriptor of the next one and leaves `inbuf` as it is. `process` receives a request
into `inbuf` and opens the file that the string there names. Nothing ends the request with a null
character, so that what an earlier request left behind it belongs to the path, and where there is no
null character at all `open` reads past the end of `inbuf` (`none`). `path_iff`: the path is that of
the request alone, whatever the history of the slot, for the requests that contain a null character.
-/

namespace Ulsp

open Lib

namespace FileServer

/-- `FileConn::bufsize`. -/
def bufsize : ℕ := 1024

/-- `FileConn::errinfo`. -/
def errinfo : List UInt8 := "No such file\n".toList.map Char.toUInt8

/-- `FileConn`. -/
structure FileConn where
  sockfd : ℕ
  inbuf : Buffer

/-- `Conn::init`. -/
def FileConn.init (sockfd : ℕ) (c : FileConn) : FileConn := { c with sockfd }

/-- What the system calls of `process` return: the bytes of `recv`, none of them at the end of the
connection, the descriptor of `open`, and the size in the result of `fstat`; or an error. -/
structure Results where
  recv : Option (List UInt8)
  openFd : Option ℕ
  stSize : Option ℕ

/-- The system calls that `process` makes after `recv`. -/
inductive Call where
  | openFile (path : List UInt8)
  | send (sockfd : ℕ) (bytes : List UInt8)
  | sendfile (sockfd fd size : ℕ)
  | close (fd : ℤ)
  deriving DecidableEq, Repr

/-- The calls after `open`. -/
def FileConn.answer (r : Results) (c : FileConn) : List Call :=
  match r.openFd with
  | none => [.send c.sockfd errinfo, .close (-1)]
  | some fd =>
    match r.stSize with
    | none => [.close fd]
    | some size => [.sendfile c.sockfd fd size, .close fd]

/-- `recv` of `bytes` into `inbuf`. -/
def FileConn.recv (bytes : List UInt8) (c : FileConn) : FileConn :=
  { c with inbuf := c.inbuf.store 0 bytes }

/-- `FileConn::process`, with what it returns and the calls that it makes. -/
def FileConn.process (r : Results) (c : FileConn) : Option (FileConn × Bool × List Call) :=
  match r.recv with
  | none => some (c, false, [])
  | some [] => some (c, false, [])
  | some bytes =>
    if bufsize < bytes.length then none
    else do
      let c := c.recv bytes
      let path ← c.inbuf.cstring bufsize
      return (c, true, .openFile path :: c.answer r)

/-- What happens to an element of `users`: a connection is accepted, or sends something or ends. -/
inductive Event where
  | init (sockfd : ℕ)
  | process (r : Results)

/-- The steps of an element of `users`. -/
def FileConn.next (c : FileConn) : Event → Option FileConn
  | .init sockfd => some (c.init sockfd)
  | .process r => (c.process r).map Prod.fst

/-- The step relation. -/
def Step (c : FileConn) (e : Event) (d : FileConn) : Prop := c.next e = some d

/-- The request opens the path, whatever the calls after `recv` return. -/
def FileConn.Opens (c : FileConn) (request path : List UInt8) : Prop :=
  ∀ openFd stSize, ∃ d calls,
    c.process ⟨some request, openFd, stSize⟩ = some (d, true, .openFile path :: calls)

variable {c : FileConn} {request path text rest : List UInt8}

@[simp]
theorem recv_inbuf (bytes : List UInt8) : (c.recv bytes).inbuf = c.inbuf.store 0 bytes := rfl

/-- What `process` does with a request. -/
theorem process_eq (hpos : request ≠ []) (hlen : request.length ≤ bufsize) (openFd stSize : Option ℕ) :
    c.process ⟨some request, openFd, stSize⟩ = ((c.recv request).inbuf.cstring bufsize).map fun path =>
      (c.recv request, true,
        .openFile path :: (c.recv request).answer ⟨some request, openFd, stSize⟩) := by
  obtain ⟨b, bs, rfl⟩ := List.exists_cons_of_ne_nil hpos
  simp only [FileConn.process, if_neg (Nat.not_lt.mpr hlen), Option.map_eq_bind]
  rfl

/-- The path is the string in `inbuf` when the request is stored. -/
theorem opens_iff (hpos : request ≠ []) (hlen : request.length ≤ bufsize) :
    c.Opens request path ↔ (c.recv request).inbuf.cstring bufsize = some path := by
  refine ⟨?_, ?_⟩
  · intro h
    obtain ⟨d, calls, hd⟩ := h none none
    rw [process_eq hpos hlen] at hd
    obtain ⟨path', hpath', heq⟩ := Option.map_eq_some_iff.mp hd
    simp only [Prod.mk.injEq, List.cons.injEq, Call.openFile.injEq, true_and] at heq
    rw [hpath', heq.2.1]
  · intro h openFd stSize
    exact ⟨_, _, by rw [process_eq hpos hlen, h]; rfl⟩

/-- A request with a null character opens the path before the first one. -/
theorem opens_of_nul (hlen : (text ++ 0 :: rest).length ≤ bufsize) (h : 0 ∉ text) :
    c.Opens (text ++ 0 :: rest) text := by
  refine (opens_iff (by simp) hlen).mpr ((Buffer.holds_store_zero h).cstring ?_)
  rw [List.length_append, List.length_cons] at hlen
  omega

/-- A buffer without a null character behind a request without one: the string has no end. -/
theorem not_opens (hpos : request ≠ []) (hlen : request.length ≤ bufsize) (h : 0 ∉ request)
    (hrest : ∀ k, request.length ≤ k → k < bufsize → c.inbuf k ≠ 0) : ¬ c.Opens request path := by
  rw [opens_iff hpos hlen, recv_inbuf, Buffer.cstring_eq_some_iff]
  rintro ⟨hholds, hlt⟩
  have hend := hholds.terminated
  rcases Nat.lt_or_ge path.length request.length with hin | hout
  · rw [Buffer.store, if_pos (Nat.zero_le _), Nat.sub_zero, List.getD_eq_getElem _ _ hin] at hend
    exact h (hend ▸ List.getElem_mem hin)
  · rw [Buffer.store_of_le (by omega)] at hend
    exact hrest _ hout hlt hend

/-- A request of as many bytes as there may be, of which the first is a null character. -/
def filling : List UInt8 := 0 :: List.replicate (bufsize - 1) 97

/-- It leaves no other null character in `inbuf`. -/
theorem filling_step (c : FileConn) : ∃ d, Step c (.process ⟨some filling, none, none⟩) d ∧
    ∀ k, 0 < k → k < bufsize → d.inbuf k ≠ 0 := by
  have hne : filling ≠ [] := nofun
  have hlen : filling.length = bufsize := by
    rw [filling, List.length_cons, List.length_replicate]
    rfl
  have hholds : (c.recv filling).inbuf.Holds [] := Buffer.holds_store_zero List.not_mem_nil
  have hstring : (c.recv filling).inbuf.cstring bufsize = some [] := hholds.cstring (by decide)
  refine ⟨c.recv filling, ?_, ?_⟩
  · rw [Step, FileConn.next, process_eq hne (Nat.le_of_eq hlen), hstring]
    rfl
  · intro k hk hlt
    have hbyte : (c.recv filling).inbuf k = 97 := by
      obtain ⟨j, rfl⟩ := Nat.exists_eq_add_of_le' hk
      have hj : j < (List.replicate (bufsize - 1) (97 : UInt8)).length := by
        rw [List.length_replicate]
        omega
      rw [recv_inbuf, Buffer.store, if_pos (Nat.zero_le _), filling, Nat.sub_zero, List.getD_cons_succ,
        List.getD_eq_getElem _ _ hj, List.getElem_replicate]
    rw [hbyte]
    decide

/-- For every request and all that the slot may contain at first: in all histories of the slot that are
followed by the request the same path is opened, and no byte past `inbuf` is read, exactly if the
request contains a null character. -/
theorem path_iff (c c' : FileConn) (hpos : request ≠ []) (hlen : request.length ≤ bufsize) :
    (∀ es es' d d', Run Step c es d → Run Step c' es' d' →
      ∃ path, d.Opens request path ∧ d'.Opens request path) ↔ 0 ∈ request := by
  refine ⟨?_, ?_⟩
  · intro h
    by_contra hnul
    obtain ⟨d, hstep, hrest⟩ := filling_step c
    obtain ⟨path, hopens, -⟩ := h _ [] d c' (.single hstep) .refl
    have hone : 0 < request.length := List.length_pos_iff.mpr hpos
    exact not_opens hpos hlen hnul (fun k hk hlt => hrest k (by omega) hlt) hopens
  · intro hnul es es' d d' _ _
    obtain ⟨text, rest, rfl, htext⟩ := List.eq_append_cons_of_mem hnul
    exact ⟨text, opens_of_nul hlen htext, opens_of_nul hlen htext⟩

/-- A slot whose memory was zero at first. -/
def fresh : FileConn := ⟨5, fun _ => 0⟩

/-- The request for the file `ab`, with its null character. -/
theorem path_ab : (∀ es es' d d', Run Step fresh es d → Run Step fresh es' d' →
    ∃ path, d.Opens [97, 98, 0] path ∧ d'.Opens [97, 98, 0] path) ↔ (0 : UInt8) ∈ [97, 98, 0] :=
  path_iff fresh fresh (by decide) (by decide)

/-- The request `ab` alone opens the file `ab`, and after one for the file `cdef` the file `abef`. -/
theorem path_of_earlier :
    ∃ d, Run Step fresh [.process ⟨some [99, 100, 101, 102], none, none⟩, .init 6] d ∧
      fresh.Opens [97, 98] [97, 98] ∧ d.Opens [97, 98] [97, 98, 101, 102] ∧
      ¬ d.Opens [97, 98] [97, 98] := by
  refine ⟨(fresh.recv [99, 100, 101, 102]).init 6, .tail (.single ?_) rfl, ?_, ?_, ?_⟩
  · rfl
  · exact (opens_iff (by decide) (by decide)).mpr rfl
  · exact (opens_iff (by decide) (by decide)).mpr rfl
  · intro h
    have hpath := (opens_iff (by decide) (by decide)).mp h
    exact absurd hpath (by decide)

end FileServer

end Ulsp
