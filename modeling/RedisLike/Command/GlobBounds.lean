import RedisLike.Lib.Loop
import RedisLike.Command.Glob

/-!
# RedisLike.Command.GlobBounds

`MatchGlob` with every access to the key and the pattern checked.

An index out of range leaves no result here, and so does a loop that does not
come to its end within its bound.  `checkedGlob_eq` finds the result of
`matchGlob` for every key and every pattern.  Positions are at most a size plus
two and do not wrap.
-/

namespace RedisLike

/-! ## The loops -/

/-- A round of the loop over a class, at `ci`; it leaves with `matched`. -/
def classRound (str pattern : Bytes) (si close ci : Nat) : Option (Turn Nat Bool) :=
  if ci < close then do
    let range ← andAlso (ci + 2 < close) (pattern[ci + 1]?.map (· = 45))
    if range then
      let c ← str[si]?
      let lo ← pattern[ci]?
      let inRange ← andAlso (charLe lo c) (pattern[ci + 2]?.map (charLe c ·))
      if inRange then some (.done true) else some (.next (ci + 3))
    else
      let p ← pattern[ci]?
      let c ← str[si]?
      if p = c then some (.done true) else some (.next (ci + 1))
  else some (.done false)

/-- `pi < pattern.size() && pattern[pi] == c`. -/
def patternAt (pattern : Bytes) (pi : Nat) (c : UInt8) : Option Bool :=
  andAlso (pi < pattern.length) (pattern[pi]?.map (· = c))

/-- `pi < pattern.size() && (pattern[pi] == '?' || pattern[pi] == str[si])`. -/
def patternTakes (str pattern : Bytes) (si pi : Nat) : Option Bool :=
  andAlso (pi < pattern.length) do
    let p ← pattern[pi]?
    orAlso (p = 63) (str[si]?.map (p = ·))

/-- A round of the main loop.  It leaves with `none` for `return false`, or with
`pi`. -/
def globRound (str pattern : Bytes) (x : GlobPlace) :
    Option (Turn GlobPlace (Option Nat)) :=
  if x.si < str.length then do
    if ← patternTakes str pattern x.si x.pi then
      some (.next { x with si := x.si + 1, pi := x.pi + 1 })
    else if ← patternAt pattern x.pi 42 then
      some (.next { x with pi := x.pi + 1, starIdx := some x.pi, matchIdx := x.si })
    else
      match x.starIdx with
      | some star =>
        some (.next { x with si := x.matchIdx + 1, pi := star + 1, matchIdx := x.matchIdx + 1 })
      | none => do
        if ← patternAt pattern x.pi 91 then
          match findByte pattern 93 x.pi with
          | none =>
            let p ← pattern[x.pi]?
            let c ← str[x.si]?
            if p ≠ c then some (.done none)
            else some (.next { x with si := x.si + 1, pi := x.pi + 1 })
          | some close =>
            let negate ← patternAt pattern (x.pi + 1) 94
            let cs := if negate then x.pi + 2 else x.pi + 1
            let matched ← runLoop (classRound str pattern x.si close) (close + 1) cs
            if matched = negate then
              match x.starIdx with
              | some star =>
                some (.next { x with
                  si := x.matchIdx + 1, pi := star + 1, matchIdx := x.matchIdx + 1 })
              | none => some (.done none)
            else some (.next { x with si := x.si + 1, pi := close + 1 })
        else some (.done none)
  else some (.done (some x.pi))

/-- A round of the loop behind the main one. -/
def starRound (pattern : Bytes) (pi : Nat) : Option (Turn Nat Nat) := do
  if ← patternAt pattern pi 42 then some (.next (pi + 1)) else some (.done pi)

/-- `MatchGlob`, with at most `n` rounds of the main loop. -/
def checkedGlob (n : Nat) (str pattern : Bytes) : Option Bool := do
  match ← runLoop (globRound str pattern) n ⟨0, 0, none, 0⟩ with
  | none => some false
  | some pi =>
    let pi ← runLoop (starRound pattern) (pattern.length + 1) pi
    some (pi = pattern.length)

/-! ## Accesses -/

theorem getElem?_eq_getD {s : Bytes} {i : Nat} (h : i < s.length) : s[i]? = some (s.getD i 0) := by
  rw [List.getD_eq_getElem _ _ h, List.getElem?_eq_getElem h]

theorem patternAt_eq (pattern : Bytes) (pi : Nat) (c : UInt8) :
    patternAt pattern pi c = some (decide (pi < pattern.length ∧ pattern.getD pi 0 = c)) := by
  rw [Bool.decide_and, patternAt]
  refine andAlso_of _ fun h => ?_
  rw [getElem?_eq_getD (of_decide_eq_true h), Option.map_some]

theorem patternTakes_eq {str : Bytes} {si : Nat} (hsi : si < str.length) (pattern : Bytes)
    (pi : Nat) : patternTakes str pattern si pi = some (decide (pi < pattern.length ∧
      (pattern.getD pi 0 = 63 ∨ pattern.getD pi 0 = str.getD si 0))) := by
  rw [Bool.decide_and, Bool.decide_or, patternTakes]
  refine andAlso_of _ fun h => ?_
  rw [getElem?_eq_getD (of_decide_eq_true h), getElem?_eq_getD hsi]
  exact orAlso_some _ _

theorem findByte_bounds {pattern : Bytes} {c : UInt8} {start i : Nat}
    (h : findByte pattern c start = some i) : start ≤ i ∧ i < pattern.length := by
  obtain ⟨j, hj, rfl⟩ := Option.map_eq_some_iff.mp h
  obtain ⟨hlt, -⟩ := List.findIdx?_eq_some_iff_getElem.mp hj
  rw [List.length_drop] at hlt
  omega

/-! ## Classes -/

/-- What a round over a class does, with all of its accesses in range. -/
theorem classRound_eq {str pattern : Bytes} {si close : Nat} (hsi : si < str.length)
    (hclose : close < pattern.length) (ci : Nat) :
    classRound str pattern si close ci =
      if ci < close then
        if ci + 2 < close ∧ pattern.getD (ci + 1) 0 = 45 then
          if charLe (pattern.getD ci 0) (str.getD si 0) &&
              charLe (str.getD si 0) (pattern.getD (ci + 2) 0) then some (.done true)
          else some (.next (ci + 3))
        else if pattern.getD ci 0 = str.getD si 0 then some (.done true)
        else some (.next (ci + 1))
      else some (.done false) := by
  unfold classRound
  by_cases hci : ci < close
  · have hrange : andAlso (ci + 2 < close) (pattern[ci + 1]?.map (· = 45)) =
        some (decide (ci + 2 < close ∧ pattern.getD (ci + 1) 0 = 45)) := by
      rw [Bool.decide_and]
      refine andAlso_of _ fun h => ?_
      rw [getElem?_eq_getD (by have := of_decide_eq_true h; omega), Option.map_some]
    rw [if_pos hci, if_pos hci, hrange, getElem?_eq_getD hsi, getElem?_eq_getD (by omega)]
    simp only [Option.bind_eq_bind, Option.bind_some, decide_eq_true_eq]
    by_cases hdash : ci + 2 < close ∧ pattern.getD (ci + 1) 0 = 45
    · rw [if_pos hdash, if_pos hdash, getElem?_eq_getD (show ci + 2 < pattern.length by omega)]
      simp only [Option.map_some, andAlso_some, Option.bind_some]
    · rw [if_neg hdash, if_neg hdash]
  · rw [if_neg hci, if_neg hci]

/-- The loop over a class comes to its end, and reads between the brackets only. -/
theorem runLoop_classRound {str pattern : Bytes} {si close : Nat} (hsi : si < str.length)
    (hclose : close < pattern.length) {fuel ci : Nat} (hfuel : close - ci ≤ fuel) :
    runLoop (classRound str pattern si close) (fuel + 1) ci =
      some (classMatches pattern (str.getD si 0) close fuel ci) := by
  induction fuel generalizing ci with
  | zero =>
      rw [runLoop, classRound_eq hsi hclose, if_neg (by omega)]
      rfl
  | succ fuel ih =>
      rw [runLoop, classRound_eq hsi hclose, classMatches]
      by_cases hci : ci < close
      · rw [if_pos hci, if_pos hci]
        by_cases hdash : ci + 2 < close ∧ pattern.getD (ci + 1) 0 = 45
        · rw [if_pos hdash, if_pos hdash]
          split_ifs
          · rfl
          · exact ih (by omega)
        · rw [if_neg hdash, if_neg hdash]
          split_ifs
          · rfl
          · exact ih (by omega)
      · rw [if_neg hci, if_neg hci]

/-! ## The main loop -/

section rounds

variable {str pattern : Bytes} {x y : GlobPlace}

/-- The result that the loop has in the model, with `pi` in the pattern. -/
def GlobPlace.Leaves (str pattern : Bytes) (x : GlobPlace) (r : Option Nat) : Prop :=
  ∀ n, x.rounds str pattern < n → x.loop str pattern n = r ∧ ∀ pi ∈ r, pi ≤ pattern.length

/-- A good round. -/
abbrev GlobRoundOk (str pattern : Bytes) (x : GlobPlace) : Prop :=
  RoundOk (globRound str pattern) (GlobPlace.Bounded str pattern) (GlobPlace.rounds str pattern)
    (GlobPlace.Leaves str pattern) x

/-- A round that goes on as the loop does. -/
theorem globRoundOk_next (h : globRound str pattern x = some (.next y))
    (hloop : ∀ n, x.loop str pattern (n + 1) = y.loop str pattern n)
    (hy : y.Bounded str pattern) (hlt : y.rounds str pattern < x.rounds str pattern) :
    GlobRoundOk str pattern x := by
  refine .next h hy hlt fun r hr n hn => ?_
  obtain ⟨m, rfl⟩ : ∃ m, n = m + 1 := ⟨n - 1, by omega⟩
  rw [hloop]
  exact hr m (by omega)

/-- A round that leaves as the loop does. -/
theorem globRoundOk_done {r : Option Nat} (h : globRound str pattern x = some (.done r))
    (hloop : ∀ n, x.loop str pattern (n + 1) = r) (hr : ∀ pi ∈ r, pi ≤ pattern.length) :
    GlobRoundOk str pattern x := by
  refine .done h fun n hn => ⟨?_, hr⟩
  obtain ⟨m, rfl⟩ : ∃ m, n = m + 1 := ⟨n - 1, by omega⟩
  exact hloop m

/-- **Every round** stays within the key and the pattern, and lowers the measure
of the loop or leaves it. -/
theorem globRoundOk (hx : x.Bounded str pattern) : GlobRoundOk str pattern x := by
  obtain ⟨si, pi, starIdx, matchIdx⟩ := x
  by_cases hsi : si < str.length
  case neg =>
    have hpi := hx.pi_le
    refine @globRoundOk_done _ _ _ (some pi) ?_ (fun n => ?_) (by simpa using hpi)
    · rw [globRound, if_neg hsi]
    · rw [GlobPlace.loop, globLoop, if_neg hsi]
  -- the conditions of the branches, as the loop of the model has them
  have hround := globRound.eq_def str pattern ⟨si, pi, starIdx, matchIdx⟩
  simp only [if_pos hsi, patternTakes_eq hsi, patternAt_eq, Option.bind_eq_bind, Option.bind_some,
    decide_eq_true_eq] at hround
  have hloop : ∀ n, GlobPlace.loop str pattern (n + 1) ⟨si, pi, starIdx, matchIdx⟩ =
      globLoop str pattern (n + 1) si pi starIdx matchIdx := fun _ => rfl
  simp only [globLoop, if_pos hsi] at hloop
  by_cases htakes : pi < pattern.length ∧
      (pattern.getD pi 0 = 63 ∨ pattern.getD pi 0 = str.getD si 0)
  · obtain ⟨hbounded, hlt⟩ := hx.advance hsi (Nat.lt_succ_self pi) htakes.1
    simp only [if_pos htakes] at hround hloop
    exact globRoundOk_next hround hloop hbounded hlt
  simp only [if_neg htakes] at hround hloop
  by_cases hstar : pi < pattern.length ∧ pattern.getD pi 0 = 42
  · obtain ⟨hbounded, hlt⟩ := hx.star hstar.1
    simp only [if_pos hstar] at hround hloop
    exact globRoundOk_next hround hloop hbounded hlt
  simp only [if_neg hstar] at hround hloop
  cases starIdx with
  | some star =>
      obtain ⟨hbounded, hlt⟩ := hx.retreat hsi rfl
      exact globRoundOk_next hround hloop hbounded hlt
  | none =>
      by_cases hopen : pi < pattern.length ∧ pattern.getD pi 0 = 91
      · simp only [if_pos hopen] at hround hloop
        cases hclose : findByte pattern 93 pi with
        | none =>
            -- the bracket stands for itself, and the first branch has compared it
            have hne : pattern.getD pi 0 ≠ str.getD si 0 := fun h => htakes ⟨hopen.1, .inr h⟩
            simp only [hclose, getElem?_eq_getD hsi, getElem?_eq_getD hopen.1, Option.bind_some,
              if_pos hne] at hround hloop
            exact globRoundOk_done hround hloop nofun
        | some close =>
            obtain ⟨hle, hlt⟩ := findByte_bounds hclose
            simp only [hclose, runLoop_classRound hsi hlt (Nat.sub_le close _), Option.bind_some]
              at hround hloop
            simp only [← Bool.decide_and, decide_eq_true_eq] at hloop
            by_cases hset : classMatches pattern (str.getD si 0) close close
                (if pi + 1 < pattern.length ∧ pattern.getD (pi + 1) 0 = 94 then pi + 2
                  else pi + 1) =
                  decide (pi + 1 < pattern.length ∧ pattern.getD (pi + 1) 0 = 94)
            · simp only [if_pos hset] at hround hloop
              exact globRoundOk_done hround hloop nofun
            · obtain ⟨hbounded, hrounds⟩ := hx.advance hsi (Nat.lt_succ_of_le hle) hlt
              simp only [if_neg hset] at hround hloop
              exact globRoundOk_next hround hloop hbounded hrounds
      · simp only [if_neg hopen] at hround hloop
        exact globRoundOk_done hround hloop nofun

end rounds

/-! ## The whole match -/

theorem starRound_eq (pattern : Bytes) (pi : Nat) : starRound pattern pi =
    if pi < pattern.length ∧ pattern.getD pi 0 = 42 then some (.next (pi + 1))
    else some (.done pi) := by
  simp only [starRound, patternAt_eq, Option.bind_eq_bind, Option.bind_some, decide_eq_true_eq]

/-- The loop behind the main one leaves at the end of the pattern exactly if it
met only stars. -/
theorem runLoop_starRound {pattern : Bytes} {fuel pi : Nat} (hpi : pi ≤ pattern.length)
    (hfuel : pattern.length - pi ≤ fuel) :
    ∃ pi', runLoop (starRound pattern) (fuel + 1) pi = some pi' ∧
      (pi' = pattern.length ↔ (pattern.drop pi).all (· = 42) = true) := by
  induction fuel generalizing pi with
  | zero =>
      obtain rfl : pi = pattern.length := by omega
      exact ⟨pattern.length, by simp [runLoop, starRound_eq], by simp⟩
  | succ fuel ih =>
      rw [runLoop, starRound_eq]
      by_cases hend : pi = pattern.length
      · exact ⟨pi, by simp [hend], by simp [hend]⟩
      rw [drop_eq_getD_cons (by omega), List.all_cons, Bool.and_eq_true, decide_eq_true_eq]
      by_cases hstar : pattern.getD pi 0 = 42
      · obtain ⟨pi', hrun, hiff⟩ := @ih (pi + 1) (by omega) (by omega)
        rw [if_pos ⟨by omega, hstar⟩]
        exact ⟨pi', hrun, by rw [hiff]; exact (and_iff_right hstar).symm⟩
      · rw [if_neg fun h => hstar h.2]
        exact ⟨pi, rfl, iff_of_false hend fun h => hstar h.1⟩

/-- **`MatchGlob` comes to its end, with every access in range**: no round goes
wrong, no sequence of rounds is endless, and with enough rounds the match has its
result. -/
theorem checkedGlob_eq (str pattern : Bytes) :
    Safe (globRound str pattern) ⟨0, 0, none, 0⟩ ∧
    ∀ n, checkedGlob ((str.length + 1) * (pattern.length + 1) + n) str pattern =
      some (matchGlob str pattern) := by
  have hstart : GlobPlace.Bounded str pattern ⟨0, 0, none, 0⟩ :=
    ⟨Nat.zero_le _, le_refl 0, Nat.zero_le _, nofun⟩
  refine ⟨safe_of_roundOk (fun _ => globRoundOk) hstart, fun n => ?_⟩
  have hrounds : GlobPlace.rounds str pattern ⟨0, 0, none, 0⟩ <
      (str.length + 1) * (pattern.length + 1) := by
    simp only [GlobPlace.rounds, Nat.sub_zero, Nat.succ_mul]
    omega
  obtain ⟨r, hrun, hleaves⟩ := runLoop_spec (fun _ => globRoundOk) hstart
    (Nat.lt_add_right n hrounds)
  obtain ⟨hloop, hle⟩ := hleaves _ hrounds
  rw [GlobPlace.loop] at hloop
  rw [checkedGlob, hrun, matchGlob, hloop]
  cases r with
  | none => rfl
  | some pi =>
      obtain ⟨pi', hstars, hiff⟩ := runLoop_starRound (hle pi rfl) (Nat.sub_le _ _)
      simp only [Option.bind_eq_bind, Option.bind_some, hstars, Option.some.injEq]
      rw [Bool.eq_iff_iff, ← hiff, decide_eq_true_eq]

end RedisLike
