import Mathlib

/-!
# RedisLike.Lib.Loop

Loops whose rounds can go wrong.

A round of a loop goes on with a new state or leaves with a result, unless it
reads outside of some range: then there is no round (`none`).  `runLoop` has no
result either when its rounds run out, so a result says both that the loop comes
to its end and that nothing went wrong on the way.  `runLoop_spec` is the rule:
an invariant, and a measure that every round lowers.  `foldlM_eq_some` is the one for
a loop over a list.
-/

namespace RedisLike

/-- What a round does. -/
inductive Turn (σ ρ : Type*) where
  | next (s : σ)
  | done (r : ρ)

variable {σ ρ : Type*}

/-- At most `n` rounds, until one leaves the loop. -/
def runLoop (round : σ → Option (Turn σ ρ)) : Nat → σ → Option ρ
  | 0, _ => none
  | n + 1, s =>
    match round s with
    | none => none
    | some (.next s') => runLoop round n s'
    | some (.done r) => some r

/-- A round from `s` that keeps the invariant and lowers the measure, or leaves
with a result that `Post` allows. -/
inductive RoundOk (round : σ → Option (Turn σ ρ)) (Inv : σ → Prop) (μ : σ → Nat)
    (Post : σ → ρ → Prop) (s : σ) : Prop
  | next {s' : σ} (h : round s = some (.next s')) (inv : Inv s') (lt : μ s' < μ s)
      (post : ∀ r, Post s' r → Post s r)
  | done {r : ρ} (h : round s = some (.done r)) (post : Post s r)

/-- A round leads from one state to another. -/
def Goes (round : σ → Option (Turn σ ρ)) (s s' : σ) : Prop := round s = some (.next s')

/-- From `s` on, no round goes wrong, and no sequence of rounds is endless. -/
structure Safe (round : σ → Option (Turn σ ρ)) (s : σ) : Prop where
  isSome : ∀ s', Relation.ReflTransGen (Goes round) s s' → (round s').isSome = true
  terminates : WellFounded fun s₂ s₁ => Relation.ReflTransGen (Goes round) s s₁ ∧ Goes round s₁ s₂

section rules

variable {round : σ → Option (Turn σ ρ)} {Inv : σ → Prop} {μ : σ → Nat} {Post : σ → ρ → Prop}

/-- **The rule for loops.** -/
theorem runLoop_spec (hround : ∀ s, Inv s → RoundOk round Inv μ Post s) {s : σ} (hs : Inv s)
    {n : Nat} (hn : μ s < n) : ∃ r, runLoop round n s = some r ∧ Post s r := by
  induction n generalizing s with
  | zero => exact absurd hn (Nat.not_lt_zero _)
  | succ n ih =>
      rw [runLoop]
      cases hround s hs with
      | next h inv lt post =>
          obtain ⟨r, hrun, hpost⟩ := ih inv (by omega)
          rw [h]
          exact ⟨r, hrun, post r hpost⟩
      | done h hpost =>
          rw [h]
          exact ⟨_, rfl, hpost⟩

/-- Where a good round goes, the invariant holds and the measure is lower. -/
theorem RoundOk.of_goes {s s' : σ} (h : RoundOk round Inv μ Post s) (hgoes : Goes round s s') :
    Inv s' ∧ μ s' < μ s := by
  cases h with
  | next hnext inv lt _ =>
      rw [Goes, hnext, Option.some.injEq] at hgoes
      cases hgoes
      exact ⟨inv, lt⟩
  | done hdone _ =>
      rw [Goes, hdone] at hgoes
      cases hgoes

/-- Loops whose rounds keep an invariant and lower a measure are safe. -/
theorem safe_of_roundOk (hround : ∀ s, Inv s → RoundOk round Inv μ Post s) {s : σ} (hs : Inv s) :
    Safe round s := by
  have hinv : ∀ s', Relation.ReflTransGen (Goes round) s s' → Inv s' := by
    intro s' h
    induction h with
    | refl => exact hs
    | tail _ hgoes ih => exact ((hround _ ih).of_goes hgoes).1
  constructor
  · intro s' h
    cases hround s' (hinv s' h) with
    | next hnext _ _ _ => rw [hnext]; rfl
    | done hdone _ => rw [hdone]; rfl
  · exact Subrelation.wf (fun h => ((hround _ (hinv _ h.1)).of_goes h.2).2) (measure μ).wf

end rules

/-! ## Loops over lists -/

/-- A loop whose rounds do not go wrong while an invariant holds. -/
theorem foldlM_eq_some {α β : Type*} {f : β → α → β} {g : β → α → Option β} {I : β → Prop}
    {l : List α} (hround : ∀ a ∈ l, ∀ b, I b → g b a = some (f b a) ∧ I (f b a)) {b : β}
    (hb : I b) : l.foldlM g b = some (l.foldl f b) ∧ I (l.foldl f b) := by
  induction l generalizing b with
  | nil => exact ⟨rfl, hb⟩
  | cons a l ih =>
      rw [List.forall_mem_cons] at hround
      obtain ⟨hg, hnext⟩ := hround.1 b hb
      rw [List.foldlM_cons, hg]
      exact ih hround.2 hnext

/-! ## Conditions -/

/-- `a && b`, where `b` is evaluated only if `a` holds. -/
def andAlso (a : Bool) (b : Option Bool) : Option Bool := if a then b else some false

/-- `a || b`, where `b` is evaluated only if `a` does not hold. -/
def orAlso (a : Bool) (b : Option Bool) : Option Bool := if a then some true else b

theorem andAlso_of (a : Bool) {b : Option Bool} {c : Bool} (h : a = true → b = some c) :
    andAlso a b = some (a && c) := by
  cases a with
  | true => rw [andAlso, if_pos rfl, h rfl, Bool.true_and]
  | false => rfl

@[simp] theorem andAlso_some (a b : Bool) : andAlso a (some b) = some (a && b) := by
  cases a <;> rfl

@[simp] theorem orAlso_some (a b : Bool) : orAlso a (some b) = some (a || b) := by
  cases a <;> rfl

end RedisLike
