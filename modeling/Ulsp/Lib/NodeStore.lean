import Ulsp.Lib.Chain

/-!
# Stores of linked nodes

A store maps addresses to nodes that carry a value and two links; an address that holds no live
node reads as `none`. `setNext`, `setPrev` and `setVal` write one field of a live node and fail on
any other address. The links and values of a store are read through `nextOf`, `prevOf` and `valOf`,
and each write is specified by what it does to these three, so that a sequence of writes is reasoned
about as a sequence of function updates.
-/

namespace Lib

/-- A node: a value and links in both directions. -/
structure Node (α V : Type*) where
  val : V
  prev : Option α
  next : Option α
  deriving DecidableEq, Repr

/-- The live nodes, by address. -/
abbrev NodeStore (α V : Type*) := α → Option (Node α V)

namespace NodeStore

variable {α V : Type*} {m : NodeStore α V} {x : α} {v : V} {n : Node α V}

/-- The forward link of a node. -/
def nextOf (m : NodeStore α V) (x : α) : Option α := (m x).bind Node.next

/-- The back link of a node. -/
def prevOf (m : NodeStore α V) (x : α) : Option α := (m x).bind Node.prev

/-- The value of a live node. -/
def valOf (m : NodeStore α V) (x : α) : Option V := (m x).map Node.val

theorem exists_of_valOf (h : m.valOf x = some v) : ∃ n, m x = some n ∧ n.val = v := by
  simpa [valOf] using h

theorem valOf_of_some (h : m x = some n) : m.valOf x = some n.val := by simp [valOf, h]

theorem nextOf_of_some (h : m x = some n) : m.nextOf x = n.next := by simp [nextOf, h]

theorem prevOf_of_some (h : m x = some n) : m.prevOf x = n.prev := by simp [prevOf, h]

/-- A node is what is read of it. -/
theorem eq_of_reads {m' : NodeStore α V} (hn : m'.nextOf x = m.nextOf x)
    (hp : m'.prevOf x = m.prevOf x) (hv : m'.valOf x = m.valOf x) : m' x = m x := by
  rcases h : m x with _ | ⟨v, p, n⟩ <;> rcases h' : m' x with _ | ⟨v', p', n'⟩ <;>
    simp_all [nextOf, prevOf, valOf]

variable [DecidableEq α]

/-- Write the forward link of a live node. -/
def setNext (m : NodeStore α V) (x : α) (p : Option α) : Option (NodeStore α V) :=
  (m x).map fun n => Function.update m x (some { n with next := p })

/-- Write the back link of a live node. -/
def setPrev (m : NodeStore α V) (x : α) (p : Option α) : Option (NodeStore α V) :=
  (m x).map fun n => Function.update m x (some { n with prev := p })

/-- Write the value of a live node. -/
def setVal (m : NodeStore α V) (x : α) (v : V) : Option (NodeStore α V) :=
  (m x).map fun n => Function.update m x (some { n with val := v })

/-- Writing a forward link changes that link only. -/
theorem setNext_spec (h : m.valOf x = some v) (p : Option α) : ∃ m', m.setNext x p = some m' ∧
    m'.nextOf = Function.update m.nextOf x p ∧ m'.prevOf = m.prevOf ∧ m'.valOf = m.valOf := by
  obtain ⟨n, hn, -⟩ := exists_of_valOf h
  refine ⟨_, by simp [setNext, hn]; rfl, ?_, ?_, ?_⟩ <;> funext y <;>
    rcases eq_or_ne y x with rfl | hy <;> simp [nextOf, prevOf, valOf, *]

/-- Writing a back link changes that link only. -/
theorem setPrev_spec (h : m.valOf x = some v) (p : Option α) : ∃ m', m.setPrev x p = some m' ∧
    m'.nextOf = m.nextOf ∧ m'.prevOf = Function.update m.prevOf x p ∧ m'.valOf = m.valOf := by
  obtain ⟨n, hn, -⟩ := exists_of_valOf h
  refine ⟨_, by simp [setPrev, hn]; rfl, ?_, ?_, ?_⟩ <;> funext y <;>
    rcases eq_or_ne y x with rfl | hy <;> simp [nextOf, prevOf, valOf, *]

/-- Writing a value changes that value only. -/
theorem setVal_spec (h : m.valOf x = some v) (w : V) : ∃ m', m.setVal x w = some m' ∧
    m'.nextOf = m.nextOf ∧ m'.prevOf = m.prevOf ∧ m'.valOf = Function.update m.valOf x (some w) := by
  obtain ⟨n, hn, -⟩ := exists_of_valOf h
  refine ⟨_, by simp [setVal, hn]; rfl, ?_, ?_, ?_⟩ <;> funext y <;>
    rcases eq_or_ne y x with rfl | hy <;> simp [nextOf, prevOf, valOf, *]

/-- Write the back link of the node `p` names, if it names one: `if (p) p->prev = q`. -/
def trySetPrev (m : NodeStore α V) (p q : Option α) : Option (NodeStore α V) :=
  match p with
  | none => some m
  | some x => m.setPrev x q

/-- Writing the back link of the node named changes that link only. -/
theorem trySetPrev_spec {p : Option α} (h : ∀ x, p = some x → ∃ v, m.valOf x = some v)
    (q : Option α) : ∃ m', m.trySetPrev p q = some m' ∧ m'.nextOf = m.nextOf ∧
      (∀ x, p = some x → m'.prevOf x = q) ∧ (∀ x, p ≠ some x → m'.prevOf x = m.prevOf x) ∧
      m'.valOf = m.valOf := by
  cases p with
  | none => exact ⟨m, rfl, rfl, by simp, by simp, rfl⟩
  | some y =>
    obtain ⟨v, hv⟩ := h y rfl
    obtain ⟨m', hm', hn, hp, hval⟩ := setPrev_spec hv q
    refine ⟨m', hm', hn, ?_, ?_, hval⟩
    · rintro x ⟨⟩
      rw [hp, Function.update_self]
    · intro x hx
      rw [hp, Function.update_of_ne fun he => hx (congrArg some he.symm)]

/-- Allocating or freeing a node does not touch the others. -/
theorem update_of_ne {y : α} (h : y ≠ x) (o : Option (Node α V)) :
    nextOf (Function.update m x o) y = m.nextOf y ∧ prevOf (Function.update m x o) y = m.prevOf y ∧
      valOf (Function.update m x o) y = m.valOf y := by
  simp [nextOf, prevOf, valOf, Function.update_of_ne h]

end NodeStore

end Lib
