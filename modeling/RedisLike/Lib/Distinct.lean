import Mathlib

/-!
# RedisLike.Lib.Distinct

Loops that count every item of a list once, however often it occurs.

Such a loop counts an item when it has some property in the state of the loop,
and taking the item ends the property.  So the count is that of the distinct items
that have the property at the start (`loop_fst`).
-/

namespace RedisLike.Distinct

variable {ι σ : Type*} [DecidableEq ι]

/-- An item more: it counts when it has the property, and the others without it. -/
theorem card_filter_insert (p : ι → Prop) [DecidablePred p] (x : ι) (s : Finset ι) :
    ((insert x s).filter p).card =
      (if p x then 1 else 0) + (s.filter fun y => p y ∧ y ≠ x).card := by
  have hrest : (s.filter fun y => p y ∧ y ≠ x) = (s.filter p).erase x := by
    ext y
    rw [Finset.mem_erase, Finset.mem_filter, Finset.mem_filter]
    tauto
  rw [hrest, Finset.filter_insert]
  by_cases hx : p x
  · have hcard := Finset.card_erase_add_one (Finset.mem_insert_self x (s.filter p))
    rw [Finset.erase_insert_eq_erase] at hcard
    rw [if_pos hx, if_pos hx, ← hcard, Nat.add_comm]
  · rw [if_neg hx, if_neg hx, Finset.erase_eq_of_notMem (by simp [hx]), Nat.zero_add]

/-- **The count of a loop** that takes the items one by one. -/
theorem loop_fst {loop : List ι → σ → Nat → Nat × σ} {next : ι → σ → σ} {p : σ → ι → Prop}
    [∀ s, DecidablePred (p s)] {Ok : σ → Prop} (hnil : ∀ s n, loop [] s n = (n, s))
    (hcons : ∀ x xs s n, loop (x :: xs) s n = loop xs (next x s) (if p s x then n + 1 else n))
    (hok : ∀ x s, Ok s → Ok (next x s)) (hnext : ∀ x s, Ok s → ∀ y, p (next x s) y ↔ p s y ∧ y ≠ x)
    (xs : List ι) {s : σ} (hs : Ok s) (n : Nat) :
    (loop xs s n).1 = n + (xs.toFinset.filter (p s)).card := by
  induction xs generalizing s n with
  | nil => rw [hnil, List.toFinset_nil, Finset.filter_empty, Finset.card_empty, Nat.add_zero]
  | cons x xs ih =>
      have hfilter : xs.toFinset.filter (p (next x s)) =
          xs.toFinset.filter fun y => p s y ∧ y ≠ x :=
        Finset.filter_congr fun y _ => hnext x s hs y
      rw [hcons, ih (hok x s hs), hfilter, List.toFinset_cons, card_filter_insert, ← Nat.add_assoc]
      split <;> rfl

end RedisLike.Distinct
