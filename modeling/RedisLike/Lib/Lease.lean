import Mathlib

/-!
# RedisLike.Lib.Lease

A lease: a lock whose holder keeps it up to a deadline at the longest.

The state is the last grant, until it is given back.  Whoever asks gets the
lease when nobody holds it any more (`next`).  Without a release in between, a
second grant is not before the deadline of the first (`exclusive`).
-/

namespace RedisLike.Lease

/-- A grant of the lease to the owner of a token. -/
structure Grant (τ α : Type*) where
  token : α
  deadline : τ

/-- What is asked of a lease. -/
inductive Request (τ α : Type*) where
  | acquire (now : τ) (grant : Grant τ α)
  | release

variable {τ α : Type*} [LE τ] [DecidableLE τ]

/-- The grant that is in force at some time. -/
def held (s : Option (Grant τ α)) (now : τ) : Option (Grant τ α) :=
  s.filter fun g => !decide (g.deadline ≤ now)

/-- One request. -/
def next (s : Option (Grant τ α)) : Request τ α → Option (Grant τ α)
  | .acquire now g => if (held s now).isNone then some g else s
  | .release => none

/-- Some requests, one after another. -/
def holder (s : Option (Grant τ α)) (rs : List (Request τ α)) : Option (Grant τ α) :=
  rs.foldl next s

theorem holder_append (s : Option (Grant τ α)) (rs rs' : List (Request τ α)) :
    holder s (rs ++ rs') = holder (holder s rs) rs' := List.foldl_append

@[simp] theorem held_none (now : τ) : held (none : Option (Grant τ α)) now = none := rfl

theorem held_eq_none_iff {g : Grant τ α} {now : τ} :
    held (some g) now = none ↔ g.deadline ≤ now := by
  by_cases h : g.deadline ≤ now <;> simp [held, Option.filter, h]

/-- **Exclusion**: when nobody has given the lease back, it is free again from the
deadline of the first grant on only. -/
theorem exclusive [Std.IsPreorder τ] {rs : List (Request τ α)} {g : Grant τ α} {now : τ}
    (hkept : Request.release ∉ rs) (htime : ∀ t g', Request.acquire t g' ∈ rs → t ≤ now)
    (hfree : held (holder (some g) rs) now = none) : g.deadline ≤ now := by
  induction rs generalizing g with
  | nil => exact held_eq_none_iff.mp hfree
  | cons r rs ih =>
      rw [List.mem_cons, not_or] at hkept
      have hrest : ∀ t g', Request.acquire t g' ∈ rs → t ≤ now :=
        fun t g' hmem => htime t g' (List.mem_cons_of_mem r hmem)
      cases r with
      | release => exact absurd rfl hkept.1
      | acquire t g' =>
          by_cases hgranted : held (some g) t = none
          · exact Std.le_trans (held_eq_none_iff.mp hgranted) (htime t g' (by simp))
          · refine ih hkept.2 hrest ?_
            rwa [holder, List.foldl_cons, next, if_neg (by simpa using hgranted)] at hfree

end RedisLike.Lease
