import Ulsp.Lib.Run

/-!
# Programs that a handler interrupts

A program over a state `σ` is written as its actions, one after the other, each at a named point, so
that a handler can run between any two of them. The code between two loop heads is a `Prog`, which
ends with the head it jumps to. What an action reads from outside (a clock) is its input.

`Safe` is the precondition under which a program goes through, whatever the handler does before each
action within what `ok` allows at the action's point: before each action there is an assertion that
the handler keeps and that the action needs. One action of a program, and one run of the handler,
preserve `Safe` (`Safe.act`, `Safe.interrupt`), and it composes over sequencing (`Safe.bind`).
-/

namespace Lib

/-- A program: a result, or an action at a point, followed by what its value makes the program do
next. An action that fails has no result. -/
inductive Prog (ι σ P : Type) (α : Type) : Type 1
  | ret (a : α)
  | act {β : Type} (p : P) (f : ι → σ → Option (β × σ)) (next : β → Prog ι σ P α)

namespace Prog

variable {ι σ P E α β : Type}

/-- One program after another. -/
def bind : Prog ι σ P α → (α → Prog ι σ P β) → Prog ι σ P β
  | ret a, k => k a
  | act p f next, k => act p f fun b => (next b).bind k

instance : Monad (Prog ι σ P) where
  pure := ret
  bind := bind

theorem pure_bind (a : α) (k : α → Prog ι σ P β) : (pure a : Prog ι σ P α) >>= k = k a := rfl

theorem bind_assoc {γ : Type} (prog : Prog ι σ P α) (k : α → Prog ι σ P β) (k' : β → Prog ι σ P γ) :
    prog >>= k >>= k' = prog >>= fun a => k a >>= k' := by
  induction prog with
  | ret a => rfl
  | act p f next ih => exact congrArg (act p f) (funext ih)

/-- The program of one action. -/
def step (p : P) (f : ι → σ → Option (β × σ)) : Prog ι σ P β := act p f ret

/-- The program of one action that only reads the state. -/
def read (p : P) (f : σ → Option β) : Prog ι σ P β := step p fun _ s => (f s).map (·, s)

/-- The program of one action that only changes the state. -/
def write (p : P) (f : ι → σ → Option σ) : Prog ι σ P Unit :=
  step p fun i s => (f i s).map ((), ·)

/-- Whether a program has ended. -/
def isRet : Prog ι σ P α → Bool
  | ret _ => true
  | act .. => false

/-- The result of a program that has ended is the head of the code to go on with. -/
def enter (code : α → Prog ι σ P α) : Prog ι σ P α → Prog ι σ P α
  | ret l => code l
  | prog => prog

section Safe

variable (handler : E → σ → Option σ) (ok : P → E → σ → Prop)

/-- The program goes through, and ends with a result and a state that satisfy `Q`: before each action
an assertion `F` holds that every run of the handler allowed there completes and keeps, and under `F`
the action succeeds and what follows is safe. -/
def Safe (Q : α → σ → Prop) : Prog ι σ P α → σ → Prop
  | ret a, s => Q a s
  | act p f next, s => ∃ F : σ → Prop, F s ∧
      (∀ s e, F s → ok p e s → ∃ t, handler e s = some t ∧ F t) ∧
      ∀ s i, F s → ∃ b t, f i s = some (b, t) ∧ Safe Q (next b) t

variable {handler ok} {Q : α → σ → Prop} {p : P} {f : ι → σ → Option (β × σ)}
  {next : β → Prog ι σ P α} {s : σ}

/-- The action of a safe program succeeds, and the rest of the program is safe after it. -/
theorem Safe.act (h : Safe handler ok Q (.act p f next) s) (i : ι) :
    ∃ b t, f i s = some (b, t) ∧ Safe handler ok Q (next b) t := by
  obtain ⟨F, hF, -, hact⟩ := h
  exact hact s i hF

/-- The handler completes where it is allowed, and leaves the program safe. -/
theorem Safe.interrupt (h : Safe handler ok Q (.act p f next) s) {e : E} (he : ok p e s) :
    ∃ t, handler e s = some t ∧ Safe handler ok Q (.act p f next) t := by
  obtain ⟨F, hF, hkeep, hact⟩ := h
  obtain ⟨t, ht, hFt⟩ := hkeep s e hF he
  exact ⟨t, ht, F, hFt, hkeep, hact⟩

/-- A program is safe before another that is safe wherever the first one ends. -/
theorem Safe.bind {R : β → σ → Prop} {prog : Prog ι σ P α} {k : α → Prog ι σ P β}
    (h : Safe handler ok (fun a s => Safe handler ok R (k a) s) prog s) :
    Safe handler ok R (prog >>= k) s := by
  induction prog generalizing s with
  | ret a => exact h
  | act p f next ih =>
    obtain ⟨F, hF, hkeep, hact⟩ := h
    refine ⟨F, hF, hkeep, ?_⟩
    intro s i hs
    obtain ⟨b, t, hf, hrest⟩ := hact s i hs
    exact ⟨b, t, hf, ih b hrest⟩

/-- An action is safe before a program under an assertion that the handler keeps at its point. -/
theorem Safe.step {R : β → σ → Prop} {k : α → Prog ι σ P β} {f : ι → σ → Option (α × σ)}
    (F : σ → Prop) (hF : F s) (hkeep : ∀ s e, F s → ok p e s → ∃ t, handler e s = some t ∧ F t)
    (hact : ∀ s i, F s → ∃ a t, f i s = some (a, t) ∧ Safe handler ok R (k a) t) :
    Safe handler ok R (Prog.step p f >>= k) s :=
  ⟨F, hF, hkeep, hact⟩

/-- A program that has ended is entered at the head it jumps to. -/
theorem Safe.enter {I : α → σ → Prop} {code : α → Prog ι σ P α} {prog : Prog ι σ P α}
    (hcode : ∀ l s, I l s → Safe handler ok I (code l) s) (h : Safe handler ok I prog s) :
    Safe handler ok I (prog.enter code) s := by
  cases prog with
  | ret l => exact hcode l s h
  | act p f next => exact h

end Safe

end Prog

end Lib
