import Mathlib.Data.List.Basic
import Mathlib.Data.List.Nodup
import Mathlib.Tactic.Common

/-!
# RedisLike.Lib.Slice

Parts of a list, by the indices of their ends, where a negative index counts
from the end of the list.

`slice` picks the elements by their indices.  `slice_eq_between` leaves out the
bounds of the list, which never change the outcome, and `between_eq` is the part
as a run of neighbours.
-/

namespace RedisLike

variable {α : Type*}

/-- The elements with an index from `lo` to `hi`. -/
def between (xs : List α) (lo hi : Int) : List α :=
  (xs.zipIdx.filter fun p => decide (lo ≤ (p.2 : Int) ∧ (p.2 : Int) ≤ hi)).map Prod.fst

/-- The index that `i` stands for in a list of `n` elements. -/
def fromEnd (n : Nat) (i : Int) : Int := if i < 0 then n + i else i

/-- The elements from `start` to `stop`, both included. -/
def slice (xs : List α) (start stop : Int) : List α :=
  between xs (max 0 (fromEnd xs.length start))
    (min ((xs.length : Int) - 1) (fromEnd xs.length stop))

/-- An index of the list is none before its first or behind its last element. -/
theorem slice_eq_between (xs : List α) (start stop : Int) :
    slice xs start stop = between xs (fromEnd xs.length start) (fromEnd xs.length stop) := by
  unfold slice between
  congr 1
  refine List.filter_congr fun p hp => ?_
  have hlt := (List.mem_zipIdx hp).2.1
  rw [decide_eq_decide]
  omega

/-- The elements with an index of at least `lo` and below `hi`, in a list whose
first index is `k`. -/
theorem map_fst_filter_zipIdx (xs : List α) (k lo hi : Nat) :
    ((xs.zipIdx k).filter fun p => decide (lo ≤ p.2 ∧ p.2 < hi)).map Prod.fst =
      (xs.drop (lo - k)).take (hi - max lo k) := by
  induction xs generalizing k with
  | nil => simp
  | cons x xs ih =>
      rw [List.zipIdx_cons, List.filter_cons]
      by_cases hlo : lo ≤ k
      · have hdrop : lo - k = 0 := by omega
        by_cases hhi : k < hi
        · have hcount : hi - max lo k = hi - max lo (k + 1) + 1 := by omega
          rw [if_pos (by simp [hlo, hhi]), List.map_cons, ih, hdrop, hcount,
            show lo - (k + 1) = 0 by omega]
          rfl
        · have hcount : hi - max lo k = 0 := by omega
          rw [if_neg (by simp [hhi]), ih, hcount, show hi - max lo (k + 1) = 0 by omega]
          rfl
      · rw [if_neg (by simp [hlo]), ih, show lo - k = lo - (k + 1) + 1 by omega,
          show max lo k = max lo (k + 1) by omega]
        rfl

theorem between_eq (xs : List α) (lo hi : Int) :
    between xs lo hi = (xs.drop lo.toNat).take (hi + 1 - max 0 lo).toNat := by
  have hnat := map_fst_filter_zipIdx xs 0 lo.toNat (hi + 1).toNat
  rw [Nat.sub_zero, Nat.max_zero] at hnat
  have hcount : (hi + 1).toNat - lo.toNat = (hi + 1 - max 0 lo).toNat := by omega
  rw [← hcount, ← hnat, between]
  congr 1
  refine List.filter_congr fun p _ => ?_
  rw [decide_eq_decide]
  omega

theorem between_eq_nil (xs : List α) {lo hi : Int} (h : hi < 0 ∨ hi < lo) :
    between xs lo hi = [] := by
  rw [between_eq, show (hi + 1 - max 0 lo).toNat = 0 by omega, List.take_zero]

/-- One index is one element, or none. -/
theorem between_self (xs : List α) (i : Int) :
    between xs i i = if 0 ≤ i then xs[i.toNat]?.toList else [] := by
  rw [between_eq]
  by_cases hi : 0 ≤ i
  · rw [if_pos hi, show (i + 1 - max 0 i).toNat = 1 by omega, List.take_one, List.head?_drop]
  · rw [if_neg hi, show (i + 1 - max 0 i).toNat = 0 by omega, List.take_zero]

/-- The same part, seen from the other end. -/
theorem between_reverse (xs : List α) {lo hi : Int} (hlo : 0 ≤ lo) (hhi : hi < xs.length) :
    between xs.reverse lo hi =
      (between xs ((xs.length : Int) - 1 - hi) ((xs.length : Int) - 1 - lo)).reverse := by
  by_cases hle : lo ≤ hi
  · rw [between_eq, between_eq, List.drop_reverse, List.take_reverse, List.length_take,
      List.drop_take]
    congr 2
    · omega
    · congr 1
      omega
  · rw [between_eq_nil _ (.inr (by omega)), between_eq_nil _ (.inr (by omega)), List.reverse_nil]

theorem slice_sublist (xs : List α) (start stop : Int) : (slice xs start stop).Sublist xs := by
  rw [slice_eq_between, between_eq]
  exact (List.take_sublist _ _).trans (List.drop_sublist _ _)

theorem slice_map {β : Type*} (f : α → β) (xs : List α) (start stop : Int) :
    slice (xs.map f) start stop = (slice xs start stop).map f := by
  rw [slice_eq_between, slice_eq_between, between_eq, between_eq, List.length_map, List.map_take,
    List.map_drop]

theorem slice_nil (start stop : Int) : slice ([] : List α) start stop = [] :=
  List.sublist_nil.mp (slice_sublist [] start stop)

/-- In a list without repetitions, one index is one element. -/
theorem slice_self_eq_singleton {xs ys : List α} {x : α} (h : (xs ++ x :: ys).Nodup) {i : Int}
    (hi : 0 ≤ i) : slice (xs ++ x :: ys) i i = [x] ↔ i = xs.length := by
  have hend : fromEnd (xs ++ x :: ys).length i = i := if_neg (by omega)
  have hx : (xs ++ x :: ys)[xs.length]? = some x := by simp
  rw [slice_eq_between, hend, between_self, if_pos hi]
  constructor
  · intro hslice
    have hget : (xs ++ x :: ys)[i.toNat]? = some x := by
      cases hopt : (xs ++ x :: ys)[i.toNat]? with
      | none => simp [hopt] at hslice
      | some y => simpa [hopt] using hslice
    obtain ⟨hlt, hy⟩ := List.getElem?_eq_some_iff.mp hget
    obtain ⟨hlt', hx⟩ := List.getElem?_eq_some_iff.mp hx
    have hidx := h.getElem_inj_iff.mp (hy.trans hx.symm)
    omega
  · rintro rfl
    rw [Int.toNat_natCast, hx]
    rfl

end RedisLike
