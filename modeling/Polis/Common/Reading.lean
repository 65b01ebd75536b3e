import Polis.Common.Run

/-!
# A call that reads a store while others write it

A call asks for one read after the other, and each is answered from the store as it is at that moment. What
the call knows at its end may be about a moment in the middle of it.
-/

namespace Polis.Reading

variable {ω χ η κ : Type*}

structure State (ω κ : Type*) where
  world : ω
  call : κ

inductive Event (χ η : Type*)
  /-- Others write. -/
  | change (c : χ)
  /-- The read that the call waits for is answered, in one of several ways. -/
  | reply (how : η)

/-- The state after the event, if it can happen; `ask` says what a call does with the store as it is when its
read is answered. -/
def next (change : ω → χ → Option ω) (ask : κ → Option (ω → η → κ)) (s : State ω κ) :
    Event χ η → Option (State ω κ)
  | .change c => (change s.world c).map fun w => { s with world := w }
  | .reply how => (ask s.call).map fun resume => { s with call := resume s.world how }

def Step (change : ω → χ → Option ω) (ask : κ → Option (ω → η → κ)) (s : State ω κ) (e : Event χ η)
    (s' : State ω κ) : Prop := next change ask s e = some s'

/-- The changes of the store alone. -/
def Changes (change : ω → χ → Option ω) (w : ω) (c : χ) (w' : ω) : Prop := change w c = some w'

variable {change : ω → χ → Option ω} {ask : κ → Option (ω → η → κ)} {P : ω → Prop} {s₀ s s' : State ω κ}
  {es : List (Event χ η)} {e : Event χ η}

/-- At some moment of the run it held of the store. -/
def Sometime (change : ω → χ → Option ω) (ask : κ → Option (ω → η → κ)) (P : ω → Prop) (s₀ : State ω κ)
    (es : List (Event χ η)) (s : State ω κ) : Prop :=
  ∃ es₁ es₂ s₁, es = es₁ ++ es₂ ∧ Run (Step change ask) s₀ es₁ s₁ ∧ Run (Step change ask) s₁ es₂ s ∧ P s₁.world

/-- It held before the last step. -/
theorem Sometime.now (hrun : Run (Step change ask) s₀ es s) (hstep : Step change ask s e s') (h : P s.world) :
    Sometime change ask P s₀ (es ++ [e]) s' :=
  ⟨es, [e], s, rfl, hrun, Run.nil.snoc hstep, h⟩

/-- A moment of a run is one of every longer run. -/
theorem Sometime.snoc (h : Sometime change ask P s₀ es s) (hstep : Step change ask s e s') :
    Sometime change ask P s₀ (es ++ [e]) s' := by
  obtain ⟨es₁, es₂, s₁, rfl, hrun₁, hrun₂, hP⟩ := h
  exact ⟨es₁, es₂ ++ [e], s₁, List.append_assoc _ _ _, hrun₁, hrun₂.snoc hstep, hP⟩

end Polis.Reading
