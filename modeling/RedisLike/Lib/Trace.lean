import Mathlib

/-!
# RedisLike.Lib.Trace

Specifications of objects by their histories.

A `Spec` says which replies a call may get in a state, and what state it leaves.
A history is `Allowed` when the replies in it are.  A machine that keeps a
relation to the states of a specification shows allowed histories only
(`allowed_history`).
-/

namespace RedisLike

/-- A specification: in a state, a call, its reply and the state behind it. -/
abbrev Spec (σ ι ρ : Type*) := σ → ι → ρ → σ → Prop

namespace Spec

variable {σ τ ο ι ρ : Type*}

/-- A history of calls with their replies, from one state to another. -/
inductive Allowed (spec : Spec σ ι ρ) : σ → List (ι × ρ) → σ → Prop
  | nil (s : σ) : Allowed spec s [] s
  | cons {s s' s'' : σ} {call : ι} {reply : ρ} {history : List (ι × ρ)} :
      spec s call reply s' → Allowed spec s' history s'' →
        Allowed spec s ((call, reply) :: history) s''

variable {spec : Spec σ ι ρ}

theorem allowed_append {s s'' : σ} {history history' : List (ι × ρ)} :
    spec.Allowed s (history ++ history') s'' ↔
      ∃ s', spec.Allowed s history s' ∧ spec.Allowed s' history' s'' := by
  constructor
  · intro h
    induction history generalizing s with
    | nil => exact ⟨s, .nil s, h⟩
    | cons c history ih =>
        cases h with
        | cons hc h =>
            obtain ⟨s', hs', hrest⟩ := ih h
            exact ⟨s', .cons hc hs', hrest⟩
  · rintro ⟨s', h, h'⟩
    induction h with
    | nil s => exact h'
    | cons hc _ ih => exact .cons hc (ih h')

/-- The last call of a history. -/
theorem allowed_concat {s s'' : σ} {history : List (ι × ρ)} {call : ι} {reply : ρ} :
    spec.Allowed s (history ++ [(call, reply)]) s'' ↔
      ∃ s', spec.Allowed s history s' ∧ spec s' call reply s'' := by
  rw [allowed_append]
  refine exists_congr fun s' => and_congr_right fun _ => ⟨fun h => ?_, fun h => .cons h (.nil s'')⟩
  cases h with
  | cons hc h =>
      cases h
      exact hc

/-- What is seen of a machine: the calls among its operations, with their replies. -/
def history (next : τ → ο → τ) (seen : τ → ο → Option (ι × ρ)) (t : τ) : List ο → List (ι × ρ)
  | [] => []
  | op :: ops => (seen t op).toList ++ history next seen (next t op) ops

theorem history_append (next : τ → ο → τ) (seen : τ → ο → Option (ι × ρ)) (t : τ)
    (ops ops' : List ο) :
    history next seen t (ops ++ ops') =
      history next seen t ops ++ history next seen (ops.foldl next t) ops' := by
  induction ops generalizing t with
  | nil => rfl
  | cons op ops ih =>
      rw [List.cons_append, history, history, ih, List.append_assoc, List.foldl_cons]

/-- **Simulation**: when a relation between the operations so far and the states of the
specification is kept by every operation, and the replies are what the specification
allows, the machine shows allowed histories only. -/
theorem allowed_history {next : τ → ο → τ} {seen : τ → ο → Option (ι × ρ)} {t : τ}
    {R : List ο → σ → Prop} {ops : List ο}
    (hhidden : ∀ past op s, past ++ [op] <+: ops → R past s →
      seen (past.foldl next t) op = none → R (past ++ [op]) s)
    (hseen : ∀ past op s call reply, past ++ [op] <+: ops → R past s →
      seen (past.foldl next t) op = some (call, reply) →
        ∃ s', spec s call reply s' ∧ R (past ++ [op]) s')
    {s : σ} (hstart : R [] s) :
    ∃ s', spec.Allowed s (history next seen t ops) s' ∧ R ops s' := by
  induction ops using List.reverseRecOn with
  | nil => exact ⟨s, .nil s, hstart⟩
  | append_singleton past op ih =>
      have hpast : past <+: past ++ [op] := List.prefix_append past [op]
      obtain ⟨s₁, hallowed, hlast⟩ := ih (fun p o s' hp => hhidden p o s' (hp.trans hpast))
        fun p o s' c r hp => hseen p o s' c r (hp.trans hpast)
      rw [history_append]
      cases hop : seen (past.foldl next t) op with
      | none =>
          refine ⟨s₁, ?_, hhidden past op s₁ (List.prefix_refl _) hlast hop⟩
          rw [history, hop, history, Option.toList_none, List.nil_append, List.append_nil]
          exact hallowed
      | some c =>
          obtain ⟨call, reply⟩ := c
          obtain ⟨s', hcall, hnext⟩ :=
            hseen past op s₁ call reply (List.prefix_refl _) hlast hop
          refine ⟨s', ?_, hnext⟩
          rw [history, hop, history]
          exact allowed_concat.mpr ⟨s₁, hallowed, hcall⟩

end Spec

end RedisLike
