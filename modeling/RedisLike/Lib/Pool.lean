import Mathlib

/-!
# RedisLike.Lib.Pool

Drawing without replacement from the front of a vector.

The pool is the first `r` elements.  A draw takes the element at some place of
the pool and swaps it with the last one, which then leaves the pool: so what was
drawn and what is left are always a rearrangement of the beginning
(`Drawn.draw`), and of a vector without duplicates nothing is drawn twice
(`Drawn.nodup`).
-/

namespace RedisLike.Pool

variable {α : Type*}

/-- `std::swap(xs[i], xs[j])`; a place outside the vector is undefined. -/
def swap (xs : List α) (i j : Nat) : Option (List α) := do
  let x ← xs[i]?
  let y ← xs[j]?
  some ((xs.set i y).set j x)

/-- A swap rearranges the front that has both places. -/
theorem exists_swap {xs : List α} {i r : Nat} (hi : i ≤ r) (hr : r < xs.length) :
    ∃ x ys, xs[i]? = some x ∧ swap xs i r = some ys ∧ ys.length = xs.length ∧
      (x :: ys.take r).Perm (xs.take (r + 1)) := by
  have hlen : (xs.take (r + 1)).length = r + 1 := by simp; omega
  have hperm := @List.set_set_perm _ (xs.take (r + 1)) i r (by omega) (by omega)
  simp only [List.getElem_take, ← List.take_set] at hperm
  refine ⟨xs[i], (xs.set i xs[r]).set r xs[i], List.getElem?_eq_getElem _, ?_, by simp, ?_⟩
  · simp [swap, List.getElem?_eq_getElem hr, List.getElem?_eq_getElem (show i < xs.length by omega)]
  · rw [List.take_succ_eq_append_getElem (by simpa using hr), List.getElem_set_self] at hperm
    exact (List.perm_append_singleton _ _).symm.trans hperm

/-- `drawn` and the first `r` elements of `xs` together are `all`. -/
structure Drawn (all drawn xs : List α) (r : Nat) : Prop where
  perm : (drawn ++ xs.take r).Perm all
  le_length : r ≤ xs.length

namespace Drawn

variable {all drawn xs : List α} {r : Nat}

theorem start (xs : List α) : Drawn xs [] xs xs.length := ⟨by simp, le_rfl⟩

/-- **A draw** from a pool that is not empty. -/
theorem draw (h : Drawn all drawn xs (r + 1)) {i : Nat} (hi : i ≤ r) :
    ∃ x ys, xs[i]? = some x ∧ swap xs i r = some ys ∧ Drawn all (x :: drawn) ys r := by
  obtain ⟨x, ys, hx, hswap, hlen, hperm⟩ := exists_swap hi h.le_length
  refine ⟨x, ys, hx, hswap, ?_, ?_⟩
  · rw [List.cons_append]
    exact List.perm_middle.symm.trans ((hperm.append_left drawn).trans h.perm)
  · have := h.le_length
    omega

/-- The vector cut down to the pool. -/
theorem take (h : Drawn all drawn xs r) : Drawn all drawn (xs.take r) (xs.take r).length :=
  ⟨by rw [List.take_length]; exact h.perm, le_rfl⟩

theorem length_add (h : Drawn all drawn xs r) : drawn.length + r = all.length := by
  rw [← h.perm.length_eq, List.length_append, List.length_take, min_eq_left h.le_length]

theorem mem (h : Drawn all drawn xs r) {x : α} (hx : x ∈ drawn) : x ∈ all :=
  h.perm.mem_iff.mp (List.mem_append_left _ hx)

/-- **Without replacement**: nothing is drawn twice. -/
theorem nodup (h : Drawn all drawn xs r) (hall : all.Nodup) : drawn.Nodup :=
  (List.nodup_append.mp (h.perm.nodup_iff.mpr hall)).1

/-- When the pool is empty everything was drawn. -/
theorem mem_of_zero (h : Drawn all drawn xs 0) {x : α} (hx : x ∈ all) : x ∈ drawn := by
  simpa using h.perm.mem_iff.mpr hx

end Drawn

end RedisLike.Pool
