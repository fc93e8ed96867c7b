import Mathlib

/-!
# RedisLike.Lib.Timed

States with a deadline, from which on they are gone: what is `shown` of such a
state at some time is the state itself, or nothing.
-/

namespace RedisLike

/-- A state, with the time from which on it is gone. -/
structure Timed (σ τ : Type*) where
  state : σ
  deadline : Option τ

namespace Timed

variable {σ τ : Type*}

/-- No state, which has no end. -/
def gone (init : σ) : Timed σ τ := ⟨init, none⟩

/-- A change of the state that keeps the deadline, as long as something is left. -/
def Kept (init : σ) (change : σ → σ → Prop) (x x' : Timed σ τ) : Prop :=
  change x.state x'.state ∧ (x'.state = init → x'.deadline = none) ∧
    (x'.state ≠ init → x'.deadline = x.deadline)

variable [LE τ] [DecidableLE τ]

/-- What is left at a time. -/
def shown (init : σ) (now : τ) (x : Timed σ τ) : Timed σ τ :=
  if x.deadline.any (· ≤ now) then gone init else x

theorem shown_of_deadline_none {init : σ} {x : Timed σ τ} (h : x.deadline = none) (now : τ) :
    x.shown init now = x := by
  rw [shown, h]
  exact if_neg Bool.false_ne_true

@[simp] theorem shown_gone (init : σ) (now : τ) :
    (gone init : Timed σ τ).shown init now = gone init :=
  shown_of_deadline_none rfl now

end Timed

end RedisLike
