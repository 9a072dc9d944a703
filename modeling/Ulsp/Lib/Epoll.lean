import Mathlib.Data.List.Count
import Mathlib.Data.List.Nodup

/-!
# Edge-triggered event queues

`Epoll D` is an epoll instance over descriptors `D`, all registered edge-triggered: what arrives at a
registered descriptor queues one event, and what arrives before that event is taken merges with it.
`queued` counts the events an instance has, or will have once the descriptor is registered, for one
descriptor, so that an arrival raises it by one or merges (`queued_notify`), registering leaves it
alone (`queued_add`), and `epoll_wait` moves it into the events returned (`count_wait`).
-/

namespace Lib

variable {D : Type*} [DecidableEq D]

/-- An epoll instance: the descriptors registered with it, and those with an event. -/
@[ext]
structure Epoll (D : Type*) [DecidableEq D] where
  interest : List D
  ready : List D
  nodup : ready.Nodup
  registered : ∀ d ∈ ready, d ∈ interest

namespace Epoll

/-- `epoll_create`. -/
def create : Epoll D := ⟨[], [], .nil, nofun⟩

/-- An event for a registered descriptor, if it has none. -/
def notify (d : D) (e : Epoll D) : Epoll D :=
  if h : d ∈ e.interest ∧ d ∉ e.ready then
    { interest := e.interest
      ready := e.ready ++ [d]
      nodup := List.nodup_append'.mpr ⟨e.nodup, List.nodup_singleton d, by simpa using h.2⟩
      registered := fun x hx => (List.mem_append.mp hx).elim (e.registered x) fun hx =>
        List.mem_singleton.mp hx ▸ h.1 }
  else e

/-- `EPOLL_CTL_ADD`, which queues an event when there is input at the descriptor already. -/
def add (d : D) (input : Bool) (e : Epoll D) : Epoll D :=
  let e : Epoll D := { e with
    interest := d :: e.interest
    registered := fun x hx => List.mem_cons_of_mem d (e.registered x hx) }
  if input then e.notify d else e

/-- `epoll_wait` with room for `max` events: the events returned, and the instance without them. -/
def wait (max : ℕ) (e : Epoll D) : List D × Epoll D :=
  (e.ready.take max,
    { interest := e.interest
      ready := e.ready.drop max
      nodup := e.nodup.sublist (List.drop_sublist max e.ready)
      registered := fun x hx => e.registered x (List.mem_of_mem_drop hx) })

/-- The events for `d`: those queued or, when `d` is not registered yet, the one its input will
cause. -/
def queued (d : D) (input : Bool) (e : Epoll D) : ℕ :=
  if d ∈ e.interest then e.ready.count d else input.toNat

/-- Whether an arrival at `d` causes no further event. -/
def merges (d : D) (input : Bool) (e : Epoll D) : Bool :=
  if d ∈ e.interest then d ∈ e.ready else input

/-- The descriptor is closed, which takes it and its event out. -/
def close (d : D) (e : Epoll D) : Epoll D where
  interest := e.interest.filter fun x => x ≠ d
  ready := e.ready.filter fun x => x ≠ d
  nodup := e.nodup.filter _
  registered x hx := by
    obtain ⟨hx, hne⟩ := List.mem_filter.mp hx
    exact List.mem_filter.mpr ⟨e.registered x hx, hne⟩

variable {e : Epoll D} {d d' : D} {input : Bool} {max : ℕ}

@[simp]
theorem interest_notify : (e.notify d).interest = e.interest := by
  unfold notify
  split <;> rfl

@[simp]
theorem interest_add : (e.add d input).interest = d :: e.interest := by
  cases input <;> simp [add]

@[simp]
theorem interest_wait : (e.wait max).2.interest = e.interest := rfl

/-- An event is queued, or there is one or none wanted. -/
theorem ready_notify : (e.notify d).ready = e.ready ∨ (e.notify d).ready = e.ready ++ [d] := by
  unfold notify
  split
  · exact .inr rfl
  · exact .inl rfl

/-- Registering a descriptor queues at most its own event. -/
theorem ready_add : (e.add d input).ready = e.ready ∨ (e.add d input).ready = e.ready ++ [d] := by
  cases input with
  | false => exact .inl rfl
  | true => exact ready_notify

theorem ready_notify_of_ne (h : d ≠ d') : (e.notify d').ready.count d = e.ready.count d := by
  unfold notify
  split
  · simp [List.count_append, h.symm]
  · rfl

/-- An arrival elsewhere changes nothing. -/
theorem queued_notify_of_ne (e : Epoll D) (h : d ≠ d') :
    (e.notify d').queued d input = e.queued d input := by
  simp only [queued, interest_notify, ready_notify_of_ne h]

/-- Registering another descriptor changes nothing. -/
theorem queued_add_of_ne (e : Epoll D) {b : Bool} (h : d ≠ d') :
    (e.add d' b).queued d input = e.queued d input := by
  cases b <;> simp [queued, add, h, ready_notify_of_ne]

/-- An arrival adds an event, or merges. -/
theorem queued_notify (e : Epoll D) (d : D) (input : Bool) :
    (e.notify d).queued d true + (e.merges d input).toNat = e.queued d input + 1 := by
  by_cases hd : d ∈ e.interest
  · by_cases hr : d ∈ e.ready
    · simp [queued, merges, notify, hd, hr]
    · simp [queued, merges, notify, hd, hr]
  · cases input <;> simp [queued, merges, hd]

/-- Registering a descriptor queues the event its input was going to cause. -/
theorem queued_add (h : d ∉ e.interest) : (e.add d input).queued d input = e.queued d input := by
  have hr : d ∉ e.ready := fun hr => h (e.registered d hr)
  cases input <;> simp [queued, add, notify, h, hr, List.count_eq_zero]

/-- Input that comes or goes at a registered descriptor is no event. -/
theorem queued_input (h : d ∈ e.interest) (input b : Bool) : e.queued d b = e.queued d input := by
  simp [queued, h]

/-- What `epoll_wait` returns was queued. -/
theorem count_wait (e : Epoll D) (d : D) (input : Bool) (max : ℕ) :
    (e.wait max).2.queued d input + (e.wait max).1.count d = e.queued d input := by
  by_cases hd : d ∈ e.interest
  · have hsplit : (e.ready.take max).count d + (e.ready.drop max).count d = e.ready.count d := by
      rw [← List.count_append, List.take_append_drop]
    simp only [queued, wait, hd, if_true]
    omega
  · have hr : d ∉ e.ready := fun hr => hd (e.registered d hr)
    have ht : (e.ready.take max).count d = 0 :=
      List.count_eq_zero.mpr fun h => hr (List.mem_of_mem_take h)
    simp [queued, wait, hd, ht]

/-- No event is queued. -/
theorem queued_of_ready (h : d ∈ e.interest) (hr : e.ready = []) : e.queued d input = 0 := by
  simp [queued, h, hr]

/-! ## Which descriptors have an event -/

theorem mem_ready_notify : d ∈ (e.notify d').ready ↔ d ∈ e.ready ∨ d = d' ∧ d' ∈ e.interest := by
  unfold notify
  split
  · rename_i h
    simp [h.1]
  · rename_i h
    refine ⟨.inl, fun hd => hd.elim id ?_⟩
    rintro ⟨rfl, hreg⟩
    exact not_not.mp fun hnot => h ⟨hreg, hnot⟩

theorem mem_ready_add : d ∈ (e.add d' input).ready ↔ d ∈ e.ready ∨ d = d' ∧ input = true := by
  cases input <;> simp [add, mem_ready_notify]

/-- What is ready before `epoll_wait` is returned or still ready. -/
theorem mem_wait (h : d ∈ e.ready) : d ∈ (e.wait max).1 ∨ d ∈ (e.wait max).2.ready := by
  rw [← List.take_append_drop max e.ready] at h
  exact List.mem_append.mp h

theorem mem_ready_close : d ∈ (e.close d').ready ↔ d ∈ e.ready ∧ d ≠ d' := by simp [close]

theorem mem_interest_close : d ∈ (e.close d').interest ↔ d ∈ e.interest ∧ d ≠ d' := by simp [close]

/-- Closing another descriptor changes nothing. -/
theorem queued_close_of_ne (e : Epoll D) (h : d ≠ d') :
    (e.close d').queued d input = e.queued d input := by
  have hcount : (e.close d').ready.count d = e.ready.count d :=
    List.count_filter (by simpa using h)
  simp only [queued, mem_interest_close, h, ne_eq, not_false_eq_true, and_true, hcount]

end Epoll

end Lib
