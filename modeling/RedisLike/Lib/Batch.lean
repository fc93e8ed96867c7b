import Mathlib

/-!
# RedisLike.Lib.Batch

A step for each item of a list, one after another, against a loop over the list.

`runEach` runs the steps and collects what they return.  A loop that keeps a
counter returns the sum of what the steps return, and leaves what they leave
(`loop_eq_runEach`); steps on states that represent those of other steps return
and leave the same (`runEach_sim`).
-/

namespace RedisLike.Batch

variable {ι σ τ ν μ : Type*}

/-- The steps for the items, in order: what they return, and the last state. -/
def runEach (step : ι → σ → ν × σ) : List ι → σ → List ν × σ
  | [], s => ([], s)
  | x :: xs, s =>
    let r := step x s
    let rest := runEach step xs r.2
    (r.1 :: rest.1, rest.2)

variable {step : ι → σ → ν × σ}

@[simp] theorem runEach_nil (s : σ) : runEach step [] s = ([], s) := rfl

@[simp] theorem runEach_cons (x : ι) (xs : List ι) (s : σ) :
    runEach step (x :: xs) s =
      ((step x s).1 :: (runEach step xs (step x s).2).1, (runEach step xs (step x s).2).2) := rfl

theorem runEach_snd (xs : List ι) (s : σ) :
    (runEach step xs s).2 = xs.foldl (fun s x => (step x s).2) s := by
  induction xs generalizing s with
  | nil => rfl
  | cons x xs ih => exact ih _

/-- **Simulation**: what one step preserves, with the replies it answers by, a run
preserves. -/
theorem runEach_sim {step' : ι → τ → μ × τ} {reply : ν → μ} {R : σ → τ → Prop} {xs : List ι}
    (h : ∀ x ∈ xs, ∀ s t, R s t →
      (step' x t).1 = reply (step x s).1 ∧ R (step x s).2 (step' x t).2)
    {s : σ} {t : τ} (hst : R s t) :
    (runEach step' xs t).1 = (runEach step xs s).1.map reply ∧
      R (runEach step xs s).2 (runEach step' xs t).2 := by
  induction xs generalizing s t with
  | nil => exact ⟨rfl, hst⟩
  | cons x xs ih =>
      rw [List.forall_mem_cons] at h
      obtain ⟨hreply, hnext⟩ := h.1 s t hst
      obtain ⟨hreplies, hlast⟩ := ih h.2 hnext
      simp [hreply, hreplies, hlast]

/-- Steps that return something of the state they leave: the last return is about
the last state. -/
theorem getLast?_runEach {reply : σ → ν} {xs : List ι} (hne : xs ≠ []) (s : σ)
    (h : ∀ x ∈ xs, ∀ s, (step x s).1 = reply (step x s).2) :
    (runEach step xs s).1.getLast? = some (reply (runEach step xs s).2) := by
  induction xs generalizing s with
  | nil => contradiction
  | cons x xs ih =>
      rw [List.forall_mem_cons] at h
      by_cases hxs : xs = []
      · simp [hxs, h.1]
      · rw [runEach_cons, List.getLast?_cons, ih hxs _ h.2]
        rfl

/-- Steps that do nothing. -/
theorem runEach_idle {xs : List ι} {s : σ} {a : ν} (h : ∀ x ∈ xs, step x s = (a, s)) :
    runEach step xs s = (List.replicate xs.length a, s) := by
  induction xs with
  | nil => rfl
  | cons x xs ih =>
      rw [List.forall_mem_cons] at h
      simp [h.1, ih h.2, List.replicate_succ]

/-- **A counting loop** takes its first item like the step, adds what the step
returns, and goes on. -/
theorem loop_eq_runEach {loop : List ι → σ → Nat → Nat × σ} {step : ι → σ → Nat × σ} {xs : List ι}
    (hnil : ∀ s n, loop [] s n = (n, s))
    (hcons : ∀ x ∈ xs, ∀ ys s n, loop (x :: ys) s n = loop ys (step x s).2 (n + (step x s).1))
    (s : σ) (n : Nat) :
    loop xs s n = (n + (runEach step xs s).1.sum, (runEach step xs s).2) := by
  induction xs generalizing s n with
  | nil => simp [hnil]
  | cons x xs ih =>
      rw [List.forall_mem_cons] at hcons
      rw [hcons.1, ih hcons.2]
      simp [Nat.add_assoc]

end RedisLike.Batch
