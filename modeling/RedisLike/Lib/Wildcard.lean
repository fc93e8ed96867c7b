import Mathlib.Data.List.Basic
import Mathlib.Data.List.Forall2

/-!
# RedisLike.Lib.Wildcard

Patterns of stars and single symbols, and the search that goes back to the last
star only.

An input matches a pattern when it splits into one part for each piece
(`Matches`).  A `Cursor` is the place of a search, and remembers one star.  A
step of the search keeps what is left to decide (`Cursor.Step.goal_iff`): when a
second star is met, the first one need not be revisited, because what it could
still skip the second one can skip as well.
-/

namespace RedisLike

namespace Wildcard

variable {α : Type*}

/-! ## Patterns -/

/-- A piece of a pattern: any run of symbols, or one symbol of a set. -/
inductive Piece (α : Type*) where
  | star
  | one (p : α → Prop)

/-- The parts of an input that a piece stands for. -/
def Piece.Accepts : Piece α → List α → Prop
  | star, _ => True
  | one p, part => ∃ c, part = [c] ∧ p c

/-- The input splits into one part for each piece. -/
def Matches (ps : List (Piece α)) (s : List α) : Prop :=
  ∃ parts, List.Forall₂ Piece.Accepts ps parts ∧ s = parts.flatten

/-- No piece is a star. -/
def StarFree (ps : List (Piece α)) : Prop := ∀ p ∈ ps, p ≠ .star

variable {ps qs : List (Piece α)} {p : α → Prop} {s t : List α} {c : α}

theorem matches_nil : Matches ([] : List (Piece α)) s ↔ s = [] := by
  constructor
  · rintro ⟨parts, hparts, rfl⟩
    cases hparts
    rfl
  · rintro rfl
    exact ⟨[], .nil, rfl⟩

theorem matches_one : Matches (.one p :: ps) s ↔ ∃ c t, s = c :: t ∧ p c ∧ Matches ps t := by
  constructor
  · rintro ⟨parts, hparts, rfl⟩
    cases hparts with
    | cons hpart hparts =>
        obtain ⟨c, rfl, hc⟩ := hpart
        exact ⟨c, _, rfl, hc, _, hparts, rfl⟩
  · rintro ⟨c, t, rfl, hc, parts, hparts, rfl⟩
    exact ⟨[c] :: parts, .cons ⟨c, rfl, hc⟩ hparts, rfl⟩

theorem matches_one_cons : Matches (.one p :: ps) (c :: s) ↔ p c ∧ Matches ps s := by
  rw [matches_one]
  constructor
  · rintro ⟨_, _, ⟨⟩, h⟩
    exact h
  · exact fun h => ⟨c, s, rfl, h⟩

theorem not_matches_one_nil : ¬ Matches (.one p :: ps) [] := by
  rw [matches_one]
  rintro ⟨_, _, h, -⟩
  contradiction

/-- A star skips to some suffix of the input. -/
theorem matches_star : Matches (.star :: ps) s ↔ ∃ t, t <:+ s ∧ Matches ps t := by
  constructor
  · rintro ⟨parts, hparts, rfl⟩
    cases hparts with
    | cons _ hparts => exact ⟨_, List.suffix_append _ _, _, hparts, rfl⟩
  · rintro ⟨t, ⟨u, rfl⟩, parts, hparts, rfl⟩
    exact ⟨u :: parts, .cons trivial hparts, rfl⟩

theorem matches_star_of_suffix (h : Matches (.star :: ps) t) (hts : t <:+ s) :
    Matches (.star :: ps) s := by
  obtain ⟨u, hu, hmatch⟩ := matches_star.mp h
  exact matches_star.mpr ⟨u, hu.trans hts, hmatch⟩

/-- A star skips nothing, or one symbol and then some more. -/
theorem matches_star_iff_tail :
    Matches (.star :: ps) s ↔ Matches ps s ∨ Matches (.star :: ps) s.tail := by
  constructor
  · intro h
    obtain ⟨t, ht, hmatch⟩ := matches_star.mp h
    cases s with
    | nil =>
        obtain rfl := List.suffix_nil.mp ht
        exact .inl hmatch
    | cons c s =>
        rcases List.suffix_cons_iff.mp ht with rfl | ht
        · exact .inl hmatch
        · exact .inr (matches_star.mpr ⟨t, ht, hmatch⟩)
  · rintro (h | h)
    · exact matches_star.mpr ⟨s, List.suffix_refl s, h⟩
    · exact matches_star_of_suffix h (List.tail_suffix s)

/-- Only stars match the empty input. -/
theorem matches_nil_right : Matches ps [] ↔ ∀ p ∈ ps, p = .star := by
  induction ps with
  | nil => simp [matches_nil]
  | cons p ps ih =>
      cases p with
      | star =>
          rw [matches_star_iff_tail, List.tail_nil, List.forall_mem_cons, ← ih]
          constructor
          · rintro (h | h)
            · exact ⟨rfl, h⟩
            · obtain ⟨t, ht, hmatch⟩ := matches_star.mp h
              exact ⟨rfl, List.suffix_nil.mp ht ▸ hmatch⟩
          · exact fun h => .inl h.2
      | one p => simp [not_matches_one_nil]

/-- Pieces without a star use up one symbol each. -/
theorem exists_of_matches_append (hps : StarFree ps) (h : Matches (ps ++ qs) s) :
    ∃ u t, s = u ++ t ∧ u.length = ps.length ∧ Matches qs t := by
  induction ps generalizing s with
  | nil => exact ⟨[], s, rfl, rfl, h⟩
  | cons p ps ih =>
      cases p with
      | star => exact absurd rfl (hps .star (by simp))
      | one p =>
          obtain ⟨c, t, rfl, -, hmatch⟩ := matches_one.mp h
          obtain ⟨u, t, rfl, hlen, hmatch⟩ :=
            ih (fun p hp => hps p (List.mem_cons_of_mem _ hp)) hmatch
          exact ⟨c :: u, t, rfl, by simp [hlen], hmatch⟩

/-- A piece that takes no symbol matches nothing. -/
theorem not_matches_of_mem (h : .one p ∈ ps) (hp : ∀ c, ¬ p c) : ¬ Matches ps s := by
  rintro ⟨parts, hparts, -⟩
  induction hparts with
  | nil => exact absurd h List.not_mem_nil
  | cons hpart _ ih =>
      rcases List.mem_cons.mp h with rfl | h
      · obtain ⟨c, -, hc⟩ := hpart
        exact hp c hc
      · exact ih h

/-! ## The search -/

/-- The place of a search: the pieces and the input left, and for the last star
the pieces behind it and the input where they were tried. -/
structure Cursor (α : Type*) where
  pieces : List (Piece α)
  input : List α
  back : Option (List (Piece α) × List α)

namespace Cursor

/-- What is left to decide: the pieces match from here, or those behind the last
star from some later place. -/
def Goal (x : Cursor α) : Prop :=
  Matches x.pieces x.input ∨ ∃ b ∈ x.back, Matches (.star :: b.1) b.2.tail

/-- Since the last star, one symbol has been used up for each piece. -/
def Aligned (x : Cursor α) : Prop :=
  ∀ b ∈ x.back, ∃ ps u, StarFree ps ∧ b.1 = ps ++ x.pieces ∧ b.2 = u ++ x.input ∧
    u.length = ps.length

/-- The next piece does not take the symbol. -/
def Stuck (ps : List (Piece α)) (c : α) : Prop := ps = [] ∨ ∃ p qs, ps = .one p :: qs ∧ ¬ p c

theorem Stuck.not_matches (h : Stuck ps c) : ¬ Matches ps (c :: s) := by
  rcases h with rfl | ⟨p, qs, rfl, hp⟩
  · rw [matches_nil]
    exact List.cons_ne_nil c s
  · rw [matches_one_cons]
    exact fun h => hp h.1

/-- One step of the search. -/
inductive Step : Cursor α → Cursor α → Prop
  /-- The piece takes the symbol. -/
  | advance {p ps c s b} (h : p c) : Step ⟨.one p :: ps, c :: s, b⟩ ⟨ps, s, b⟩
  /-- A star is met, and remembered. -/
  | star {ps s b} : Step ⟨.star :: ps, s, b⟩ ⟨ps, s, some (ps, s)⟩
  /-- The last star skips one more symbol. -/
  | retreat {ps c s b} (h : Stuck ps c) :
    Step ⟨ps, c :: s, some b⟩ ⟨b.1, b.2.tail, some (b.1, b.2.tail)⟩

/-- What an earlier star could still skip, the pieces here can be tried behind. -/
theorem Aligned.exists_suffix {x : Cursor α} (h : x.Aligned) {b : List (Piece α) × List α}
    (hb : b ∈ x.back) (hmatch : Matches (.star :: b.1) b.2.tail) :
    ∃ t, t <:+ x.input ∧ Matches x.pieces t := by
  obtain ⟨ps, u, hps, hpieces, hinput, hlen⟩ := h b hb
  obtain ⟨r, hr, hmatch⟩ := matches_star.mp hmatch
  rw [hpieces] at hmatch
  obtain ⟨v, t, rfl, hv, hmatch⟩ := exists_of_matches_append hps hmatch
  refine ⟨t, ?_, hmatch⟩
  have ht : t <:+ u ++ x.input :=
    hinput ▸ ((List.suffix_append v t).trans hr).trans (List.tail_suffix b.2)
  refine List.suffix_of_suffix_length_le ht (List.suffix_append u x.input) ?_
  have hle := hr.length_le
  rw [hinput, List.length_tail, List.length_append, List.length_append] at hle
  omega

theorem Step.aligned {x y : Cursor α} (h : Step x y) (hx : x.Aligned) : y.Aligned := by
  cases h with
  | @advance p rest c s back h =>
      intro b hb
      obtain ⟨ps, u, hps, hpieces, hinput, hlen⟩ := hx b hb
      refine ⟨ps ++ [.one p], u ++ [c], ?_, by simp [hpieces], by simp [hinput], by simp [hlen]⟩
      intro q hq
      rcases List.mem_append.mp hq with hq | hq
      · exact hps q hq
      · rw [List.mem_singleton.mp hq]
        exact nofun
  | star =>
      rintro _ ⟨⟩
      exact ⟨[], [], nofun, rfl, rfl, rfl⟩
  | retreat h =>
      rintro _ ⟨⟩
      exact ⟨[], [], nofun, rfl, rfl, rfl⟩

/-- A step of the search changes nothing about what is left to decide, with the
last star only to go back to. -/
theorem Step.goal_iff {x y : Cursor α} (h : Step x y) (hx : x.Aligned) : x.Goal ↔ y.Goal := by
  cases h with
  | advance h =>
      show _ ∨ _ ↔ _ ∨ _
      rw [matches_one_cons, and_iff_right h]
  | @star ps s b =>
      have hlater : (∃ r ∈ b, Matches (.star :: r.1) r.2.tail) → Matches (.star :: ps) s := by
        rintro ⟨r, hr, hmatch⟩
        obtain ⟨t, ht, hmatch⟩ := hx.exists_suffix hr hmatch
        exact matches_star_of_suffix hmatch ht
      show Matches (.star :: ps) s ∨ _ ↔ Matches ps s ∨ ∃ r ∈ some (ps, s), _
      rw [or_iff_left_of_imp hlater, matches_star_iff_tail]
      simp
  | @retreat ps c s b h =>
      show Matches ps (c :: s) ∨ _ ↔ Matches b.1 b.2.tail ∨ ∃ r ∈ some (b.1, b.2.tail), _
      rw [or_iff_right h.not_matches]
      simp only [Option.mem_some_iff, exists_eq_left']
      exact matches_star_iff_tail

/-- At the end of the input the last star has nothing more to skip. -/
theorem Aligned.goal_nil {x : Cursor α} (h : x.Aligned) (hinput : x.input = []) :
    x.Goal ↔ ∀ p ∈ x.pieces, p = .star := by
  rw [← matches_nil_right, ← hinput]
  refine or_iff_left_of_imp ?_
  rintro ⟨b, hb, hmatch⟩
  obtain ⟨t, ht, hmatch⟩ := h.exists_suffix hb hmatch
  rw [hinput, List.suffix_nil] at ht
  rwa [hinput, ← ht]

/-- Without a star, a piece that does not take its symbol ends the search. -/
theorem not_goal_of_stuck (h : Stuck ps c) : ¬ (⟨ps, c :: s, none⟩ : Cursor α).Goal := by
  rintro (hmatch | ⟨b, hb, -⟩)
  · exact h.not_matches hmatch
  · contradiction

end Cursor

end Wildcard

end RedisLike
