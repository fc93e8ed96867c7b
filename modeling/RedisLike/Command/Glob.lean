import RedisLike.Lib.Wildcard
import RedisLike.Command.StringCmd

/-!
# RedisLike.Command.Glob

What `MatchGlob` makes of a pattern.

`globTokens` reads a pattern as the comment in front of `MatchGlob` has it, and
`Globs` says which keys it stands for.  The loop of `MatchGlob` is a search of
`Wildcard`, but it looks at classes only until it meets a star
(`seenPieces`): `matchGlob_iff_seen`.
-/

namespace RedisLike

open Wildcard

/-! ## Patterns -/

/-- A piece of the text of a pattern. -/
inductive GlobToken where
  | star
  | any
  | byte (b : UInt8)
  | cls (negate : Bool) (set : Bytes)
  deriving DecidableEq

/-- The bytes that a class lists, one by one or as `a-z`. -/
def inClass : Bytes → UInt8 → Bool
  | lo :: 45 :: hi :: set, c => charLe lo c && charLe c hi || inClass set c
  | b :: set, c => b = c || inClass set c
  | [], _ => false

/-- The bytes that a token stands for. -/
def GlobToken.piece : GlobToken → Piece UInt8
  | star => .star
  | any => .one fun _ => True
  | byte b => .one fun c => c = b
  | cls negate set => .one fun c => inClass set c ≠ negate

/-- The text between the brackets of a class. -/
def classToken : Bytes → GlobToken
  | 94 :: set => .cls true set
  | set => .cls false set

/-- The tokens of a pattern.  A class ends at the first `]`; without one, the
bracket stands for itself. -/
def globTokens : Bytes → List GlobToken
  | [] => []
  | b :: rest =>
    if b = 42 then .star :: globTokens rest
    else if b = 63 then .any :: globTokens rest
    else if b = 91 then
      match rest.findIdx? (· = 93) with
      | none => .byte b :: globTokens rest
      | some i => classToken (rest.take i) :: globTokens (rest.drop (i + 1))
    else .byte b :: globTokens rest
termination_by pattern => pattern.length

/-- The whole key splits into one part for each token of the pattern. -/
def Globs (pattern key : Bytes) : Prop := Matches ((globTokens pattern).map GlobToken.piece) key

/-! ## What the loop sees -/

/-- What the loop sees of a token: behind a star, no byte is in a class. -/
def GlobToken.seen (starred : Bool) : GlobToken → Piece UInt8
  | cls negate set => if starred then .one fun _ => False else (cls negate set).piece
  | t => t.piece

/-- What the loop sees of the tokens, when it has met a star or not. -/
def seenPieces : Bool → List GlobToken → List (Piece UInt8)
  | _, [] => []
  | starred, t :: ts => t.seen starred :: seenPieces (starred || t = .star) ts

/-- The variables of the loop. -/
structure GlobPlace where
  si : Nat
  pi : Nat
  starIdx : Option Nat
  matchIdx : Nat

namespace GlobPlace

variable (str pattern : Bytes)

/-- The loop, from a place. -/
def loop (fuel : Nat) (x : GlobPlace) : Option Nat :=
  globLoop str pattern fuel x.si x.pi x.starIdx x.matchIdx

/-- The place of the search that the variables stand for. -/
def cursor (x : GlobPlace) : Cursor UInt8 where
  pieces := seenPieces x.starIdx.isSome (globTokens (pattern.drop x.pi))
  input := str.drop x.si
  back := x.starIdx.map fun star =>
    (seenPieces true (globTokens (pattern.drop (star + 1))), str.drop x.matchIdx)

/-- The bounds of the variables. -/
structure Bounded (x : GlobPlace) : Prop where
  si_le : x.si ≤ str.length
  matchIdx_le : x.matchIdx ≤ x.si
  pi_le : x.pi ≤ pattern.length
  star_lt : ∀ star ∈ x.starIdx, star < pattern.length

/-- The rounds that are left, at most. -/
def rounds (x : GlobPlace) : Nat :=
  (str.length - x.matchIdx) * (pattern.length + 1) + (pattern.length - x.pi)

/-- What a round does that does not return. -/
structure Moves (x y : GlobPlace) : Prop where
  step : (x.cursor str pattern).Step (y.cursor str pattern)
  bounded : y.Bounded str pattern
  rounds_lt : y.rounds str pattern < x.rounds str pattern

end GlobPlace

/-! ## Measure -/

section measure

variable {str pattern : Bytes} {x : GlobPlace}

/-- The key and the pattern are read on. -/
theorem GlobPlace.Bounded.advance (hx : x.Bounded str pattern) (hsi : x.si < str.length) {k : Nat}
    (hlt : x.pi < k) (hle : k ≤ pattern.length) :
    GlobPlace.Bounded str pattern ⟨x.si + 1, k, x.starIdx, x.matchIdx⟩ ∧
      GlobPlace.rounds str pattern ⟨x.si + 1, k, x.starIdx, x.matchIdx⟩ < x.rounds str pattern := by
  have hmatch := hx.matchIdx_le
  refine ⟨⟨hsi, by dsimp only; omega, hle, hx.star_lt⟩, ?_⟩
  simp only [rounds]
  omega

/-- A star is met. -/
theorem GlobPlace.Bounded.star (hx : x.Bounded str pattern) (hpi : x.pi < pattern.length) :
    GlobPlace.Bounded str pattern ⟨x.si, x.pi + 1, some x.pi, x.si⟩ ∧
      GlobPlace.rounds str pattern ⟨x.si, x.pi + 1, some x.pi, x.si⟩ < x.rounds str pattern := by
  have hmatch := hx.matchIdx_le
  have hmul : (str.length - x.si) * (pattern.length + 1) ≤
      (str.length - x.matchIdx) * (pattern.length + 1) := Nat.mul_le_mul_right _ (by omega)
  refine ⟨⟨hx.si_le, le_refl x.si, hpi, by rintro _ ⟨⟩; exact hpi⟩, ?_⟩
  simp only [rounds]
  omega

/-- The last star takes one more byte. -/
theorem GlobPlace.Bounded.retreat (hx : x.Bounded str pattern) (hsi : x.si < str.length)
    {star : Nat} (hstar : x.starIdx = some star) :
    GlobPlace.Bounded str pattern ⟨x.matchIdx + 1, star + 1, some star, x.matchIdx + 1⟩ ∧
      GlobPlace.rounds str pattern ⟨x.matchIdx + 1, star + 1, some star, x.matchIdx + 1⟩ <
        x.rounds str pattern := by
  have hmatch := hx.matchIdx_le
  have hlt := hx.star_lt star hstar
  have hmul : (str.length - x.matchIdx) * (pattern.length + 1) =
      (str.length - (x.matchIdx + 1)) * (pattern.length + 1) + (pattern.length + 1) := by
    rw [← Nat.succ_mul]
    congr 1
    omega
  refine ⟨⟨by dsimp only; omega, le_refl _, hlt, hstar ▸ hx.star_lt⟩, ?_⟩
  simp only [rounds]
  omega

end measure

/-! ## Tokens and bytes -/

theorem globTokens_nil : globTokens [] = [] := by rw [globTokens]

theorem globTokens_star (rest : Bytes) : globTokens (42 :: rest) = .star :: globTokens rest := by
  rw [globTokens, if_pos rfl]

theorem globTokens_any (rest : Bytes) : globTokens (63 :: rest) = .any :: globTokens rest := by
  rw [globTokens, if_neg (by decide), if_pos rfl]

theorem globTokens_byte {b : UInt8} (h42 : b ≠ 42) (h63 : b ≠ 63) (h91 : b ≠ 91) (rest : Bytes) :
    globTokens (b :: rest) = .byte b :: globTokens rest := by
  rw [globTokens, if_neg h42, if_neg h63, if_neg h91]

theorem globTokens_open {rest : Bytes} (h : rest.findIdx? (· = 93) = none) :
    globTokens (91 :: rest) = .byte 91 :: globTokens rest := by
  rw [globTokens, if_neg (by decide), if_neg (by decide), if_pos rfl, h]

theorem globTokens_class {rest : Bytes} {i : Nat} (h : rest.findIdx? (· = 93) = some i) :
    globTokens (91 :: rest) = classToken (rest.take i) :: globTokens (rest.drop (i + 1)) := by
  rw [globTokens, if_neg (by decide), if_neg (by decide), if_pos rfl, h]

theorem classToken_of_ne {body : Bytes} (h : body.head? ≠ some 94) :
    classToken body = .cls false body := by
  unfold classToken
  split
  · exact absurd rfl h
  · rfl

theorem exists_classToken (body : Bytes) : ∃ negate set, classToken body = .cls negate set := by
  unfold classToken
  split
  · exact ⟨true, _, rfl⟩
  · exact ⟨false, _, rfl⟩

/-- The first token is a star exactly if the first byte is one. -/
theorem exists_globTokens_cons (b : UInt8) (rest : Bytes) :
    ∃ t ts, globTokens (b :: rest) = t :: ts ∧ (t = .star ↔ b = 42) := by
  by_cases h42 : b = 42
  · subst h42
    exact ⟨_, _, globTokens_star rest, by simp⟩
  by_cases h63 : b = 63
  · subst h63
    exact ⟨_, _, globTokens_any rest, by simp⟩
  by_cases h91 : b = 91
  · subst h91
    cases hfind : rest.findIdx? (· = 93) with
    | none => exact ⟨_, _, globTokens_open hfind, by simp⟩
    | some i =>
        obtain ⟨negate, set, hcls⟩ := exists_classToken (rest.take i)
        exact ⟨_, _, globTokens_class hfind, by simp [hcls]⟩
  · exact ⟨_, _, globTokens_byte h42 h63 h91 rest, by simp [h42]⟩

/-! ## Classes -/

theorem drop_take_eq_cons {pattern : Bytes} {ci close : Nat} (hci : ci < close)
    (hclose : close ≤ pattern.length) :
    (pattern.take close).drop ci =
      pattern.getD ci 0 :: (pattern.take close).drop (ci + 1) := by
  have hlen : ci < (pattern.take close).length := by
    rw [List.length_take]
    omega
  rw [List.drop_eq_getElem_cons hlen, List.getElem_take, List.getD_eq_getElem _ _ (by omega)]

/-- The loop over a class decides whether the class has the byte. -/
theorem classMatches_eq {pattern : Bytes} {close : Nat} (hclose : close ≤ pattern.length)
    (c : UInt8) (fuel ci : Nat) (hfuel : close - ci ≤ fuel) :
    classMatches pattern c close fuel ci = inClass ((pattern.take close).drop ci) c := by
  have hend : ∀ ci, ¬ ci < close → (pattern.take close).drop ci = [] := fun ci hci =>
    List.drop_eq_nil_of_le (by rw [List.length_take]; omega)
  induction fuel generalizing ci with
  | zero =>
      rw [hend ci (by omega)]
      rfl
  | succ fuel ih =>
      rw [classMatches]
      by_cases hci : ci < close
      · rw [if_pos hci, drop_take_eq_cons hci hclose]
        by_cases hrange : ci + 2 < close ∧ pattern.getD (ci + 1) 0 = 45
        · obtain ⟨hlt, hdash⟩ := hrange
          rw [if_pos ⟨hlt, hdash⟩, drop_take_eq_cons (by omega) hclose, hdash,
            drop_take_eq_cons (by omega) hclose, inClass, ih (ci + 3) (by omega)]
          cases charLe (pattern.getD ci 0) c && charLe c (pattern.getD (ci + 2) 0) <;> rfl
        · rw [if_neg hrange, inClass, ih (ci + 1) (by omega)]
          · simp
          · -- no range starts here
            intro hi set hset
            by_cases hlt : ci + 2 < close
            · rw [drop_take_eq_cons (by omega) hclose] at hset
              exact hrange ⟨hlt, (List.cons.inj hset).1⟩
            · have hlen := congrArg List.length hset
              rw [List.length_drop, List.length_take] at hlen
              simp only [List.length_cons] at hlen
              omega
      · rw [if_neg hci, hend ci hci]
        rfl

/-! ## The loop -/

theorem seen_eq_star {starred : Bool} {t : GlobToken} : t.seen starred = .star ↔ t = .star := by
  cases t <;> cases starred <;> simp [GlobToken.seen, GlobToken.piece]

/-- The loop behind the main one looks for anything but stars. -/
theorem forall_seenPieces_eq_star (starred : Bool) (q : Bytes) :
    (∀ p ∈ seenPieces starred (globTokens q), p = .star) ↔ q.all (· = 42) = true := by
  induction q generalizing starred with
  | nil => simp [globTokens_nil, seenPieces]
  | cons b rest ih =>
      obtain ⟨t, ts, hts, hstar⟩ := exists_globTokens_cons b rest
      rw [hts, seenPieces, List.forall_mem_cons, seen_eq_star]
      by_cases hb : b = 42
      · subst hb
        rw [globTokens_star] at hts
        obtain ⟨rfl, rfl⟩ := List.cons.inj hts
        rw [ih]
        simp
      · have ht : t ≠ .star := fun h => hb (hstar.mp h)
        simp [ht, hb]

section loop

variable {str pattern : Bytes} {si pi matchIdx : Nat} {starIdx : Option Nat}

/-- A byte of the key that is no star, and no bracket where the pattern has one. -/
structure PlainKey (str pattern : Bytes) : Prop where
  star_notMem : 42 ∉ str
  open_notMem : 91 ∉ str ∨ 91 ∉ pattern

theorem drop_eq_getD_cons {s : Bytes} {i : Nat} (h : i < s.length) :
    s.drop i = s.getD i 0 :: s.drop (i + 1) := by
  rw [List.drop_eq_getElem_cons h, List.getD_eq_getElem _ _ h]

/-- The first branch: `?`, or the byte itself. -/
theorem tokens_of_equal (hkey : PlainKey str pattern) (hsi : si < str.length)
    (hpi : pi < pattern.length)
    (h : pattern.getD pi 0 = 63 ∨ pattern.getD pi 0 = str.getD si 0) :
    ∃ t, globTokens (pattern.drop pi) = t :: globTokens (pattern.drop (pi + 1)) ∧ t ≠ .star ∧
      ∀ starred, ∃ p, t.seen starred = .one p ∧ p (str.getD si 0) := by
  rw [drop_eq_getD_cons hpi]
  rcases h with h | h
  · rw [h, globTokens_any]
    exact ⟨.any, rfl, nofun, fun _ => ⟨_, rfl, trivial⟩⟩
  by_cases h63 : pattern.getD pi 0 = 63
  · rw [h63, globTokens_any]
    exact ⟨.any, rfl, nofun, fun _ => ⟨_, rfl, trivial⟩⟩
  have hmem : str.getD si 0 ∈ str := by
    rw [List.getD_eq_getElem _ _ hsi]
    exact List.getElem_mem hsi
  have hmem' : pattern.getD pi 0 ∈ pattern := by
    rw [List.getD_eq_getElem _ _ hpi]
    exact List.getElem_mem hpi
  have h42 : pattern.getD pi 0 ≠ 42 := fun hb => hkey.star_notMem (hb ▸ h ▸ hmem)
  have h91 : pattern.getD pi 0 ≠ 91 := fun hb =>
    hkey.open_notMem.elim (fun hn => hn (hb ▸ h ▸ hmem)) fun hn => hn (hb ▸ hmem')
  rw [globTokens_byte h42 h63 h91]
  exact ⟨_, rfl, nofun, fun _ => ⟨_, rfl, h.symm⟩⟩

/-- A closed bracket is one token. -/
theorem tokens_of_class {close : Nat} (hpi : pi < pattern.length)
    (hopen : pattern.getD pi 0 = 91) (hclose : findByte pattern 93 pi = some close) (c : UInt8) :
    pi < close ∧ close < pattern.length ∧ ∃ negate set,
      globTokens (pattern.drop pi) = .cls negate set :: globTokens (pattern.drop (close + 1)) ∧
      negate = (decide (pi + 1 < pattern.length) && decide (pattern.getD (pi + 1) 0 = 94)) ∧
      classMatches pattern c close close (if negate then pi + 2 else pi + 1) = inClass set c := by
  rw [findByte, drop_eq_getD_cons hpi, hopen, List.findIdx?_cons, if_neg (by decide)] at hclose
  cases hfind : (pattern.drop (pi + 1)).findIdx? (· = 93) with
  | none => simp [hfind] at hclose
  | some i =>
      rw [hfind] at hclose
      have hclose : pi + (i + 1) = close := by simpa using hclose
      obtain ⟨hi, hbracket, -⟩ := List.findIdx?_eq_some_iff_getElem.mp hfind
      rw [List.length_drop] at hi
      have hlt : close < pattern.length := by omega
      have hend : pattern.getD close 0 = 93 := by
        rw [List.getElem_drop, decide_eq_true_eq] at hbracket
        rw [List.getD_eq_getElem _ _ hlt, ← hbracket]
        congr 1
        omega
      have hbody : (pattern.drop (pi + 1)).take i = (pattern.take close).drop (pi + 1) := by
        rw [List.drop_take]
        congr 1
        omega
      have hrest : (pattern.drop (pi + 1)).drop (i + 1) = pattern.drop (close + 1) := by
        rw [List.drop_drop]
        congr 1
        omega
      rw [drop_eq_getD_cons hpi, hopen, globTokens_class hfind, hbody, hrest, ← Bool.decide_and]
      refine ⟨by omega, hlt, ?_⟩
      by_cases hnegate : pi + 1 < pattern.length ∧ pattern.getD (pi + 1) 0 = 94
      · have hlt' : pi + 1 < close := by
          refine lt_of_le_of_ne (by omega) fun heq => ?_
          rw [heq, hend] at hnegate
          exact absurd hnegate.2 (by decide)
        rw [decide_eq_true hnegate, drop_take_eq_cons hlt' hlt.le, hnegate.2]
        exact ⟨true, _, rfl, rfl, classMatches_eq hlt.le c close (pi + 2) (by omega)⟩
      · have hhead : ((pattern.take close).drop (pi + 1)).head? ≠ some 94 := by
          by_cases hlt' : pi + 1 < close
          · rw [drop_take_eq_cons hlt' hlt.le]
            exact fun h => hnegate ⟨by omega, Option.some.inj h⟩
          · rw [List.drop_eq_nil_of_le (by rw [List.length_take]; omega)]
            exact nofun
        rw [classToken_of_ne hhead, decide_eq_false hnegate]
        exact ⟨false, _, rfl, rfl, classMatches_eq hlt.le c close (pi + 1) (by omega)⟩

/-- Nothing but a class, before any star, can still take the byte. -/
theorem stuck_of_ne {starred : Bool} {c : UInt8}
    (hequal : ¬ (pi < pattern.length ∧ (pattern.getD pi 0 = 63 ∨ pattern.getD pi 0 = c)))
    (hstar : ¬ (pi < pattern.length ∧ pattern.getD pi 0 = 42))
    (hopen : starred = true ∨ ¬ (pi < pattern.length ∧ pattern.getD pi 0 = 91) ∨
      findByte pattern 93 pi = none) :
    Cursor.Stuck (seenPieces starred (globTokens (pattern.drop pi))) c := by
  by_cases hpi : pi < pattern.length
  · simp only [hpi, true_and, not_or] at hequal hstar hopen
    rw [drop_eq_getD_cons hpi]
    refine .inr ?_
    by_cases h91 : pattern.getD pi 0 = 91
    · rw [h91] at hequal ⊢
      cases hfind : (pattern.drop (pi + 1)).findIdx? (· = 93) with
      | none =>
          rw [globTokens_open hfind]
          exact ⟨_, _, rfl, fun hc => hequal.2 hc.symm⟩
      | some i =>
          have hclose : findByte pattern 93 pi ≠ none := by
            rw [findByte, drop_eq_getD_cons hpi, h91, List.findIdx?_cons, if_neg (by decide), hfind]
            exact nofun
          have hstarred : starred = true := 
            hopen.resolve_right (not_or.mpr ⟨not_not.mpr h91, hclose⟩)
          obtain ⟨negate, set, hcls⟩ := exists_classToken ((pattern.drop (pi + 1)).take i)
          rw [globTokens_class hfind, hcls, hstarred]
          exact ⟨_, _, rfl, id⟩
    · rw [globTokens_byte hstar hequal.1 h91]
      exact ⟨_, _, rfl, fun hc => hequal.2 hc.symm⟩
  · rw [List.drop_eq_nil_of_le (by omega), globTokens_nil]
    exact .inl rfl

/-- **A round of the loop**: it returns where nothing is left to decide, or makes a
step of the search. -/
theorem GlobPlace.round (hkey : PlainKey str pattern) {x : GlobPlace}
    (hx : x.Bounded str pattern) (hsi : x.si < str.length) (fuel : Nat) :
    x.loop str pattern (fuel + 1) = none ∧ ¬ (x.cursor str pattern).Goal ∨
      ∃ y, x.loop str pattern (fuel + 1) = y.loop str pattern fuel ∧ x.Moves str pattern y := by
  obtain ⟨si, pi, starIdx, matchIdx⟩ := x
  dsimp only at hsi
  have hinput : str.drop si = str.getD si 0 :: str.drop (si + 1) := drop_eq_getD_cons hsi
  simp only [loop, globLoop, if_pos hsi]
  by_cases hequal : pi < pattern.length ∧
      (pattern.getD pi 0 = 63 ∨ pattern.getD pi 0 = str.getD si 0)
  · -- the byte of the pattern takes the byte of the key
    rw [if_pos hequal]
    obtain ⟨t, hts, hne, hseen⟩ := tokens_of_equal hkey hsi hequal.1 hequal.2
    obtain ⟨p, hp, hpc⟩ := hseen starIdx.isSome
    obtain ⟨hbounded, hlt⟩ := hx.advance hsi (Nat.lt_succ_self pi) hequal.1
    refine .inr ⟨⟨si + 1, pi + 1, starIdx, matchIdx⟩, rfl, ?_, hbounded, hlt⟩
    simp only [cursor, hts, hinput, seenPieces, hp, hne, decide_false, Bool.or_false]
    exact .advance hpc
  rw [if_neg hequal]
  by_cases hstar : pi < pattern.length ∧ pattern.getD pi 0 = 42
  · -- a star
    rw [if_pos hstar]
    obtain ⟨hbounded, hlt⟩ := hx.star hstar.1
    refine .inr ⟨⟨si, pi + 1, some pi, si⟩, rfl, ?_, hbounded, hlt⟩
    simp only [cursor, drop_eq_getD_cons hstar.1, hstar.2, globTokens_star, seenPieces]
    simp only [GlobToken.seen, GlobToken.piece, decide_true, Bool.or_true]
    exact .star
  rw [if_neg hstar]
  have hstuck := @stuck_of_ne pattern pi starIdx.isSome (str.getD si 0) hequal hstar
  cases starIdx with
  | some star =>
      obtain ⟨hbounded, hlt⟩ := hx.retreat hsi rfl
      refine .inr ⟨⟨matchIdx + 1, star + 1, some star, matchIdx + 1⟩, rfl, ?_, hbounded, hlt⟩
      have htail : str.drop (matchIdx + 1) = (str.drop matchIdx).tail := List.tail_drop.symm
      simp only [cursor, hinput, htail, Option.map_some, Option.isSome_some]
      exact .retreat (hstuck (.inl rfl))
  | none =>
      have hnone : Cursor.Stuck (seenPieces false (globTokens (pattern.drop pi)))
          (str.getD si 0) → ¬ (cursor str pattern ⟨si, pi, none, matchIdx⟩).Goal := by
        intro h
        simp only [cursor, hinput]
        exact Cursor.not_goal_of_stuck h
      by_cases hopen : pi < pattern.length ∧ pattern.getD pi 0 = 91
      · -- a class, and no star in front of it
        simp only [if_pos hopen]
        cases hclose : findByte pattern 93 pi with
        | none =>
            have hne : pattern.getD pi 0 ≠ str.getD si 0 := fun h => hequal ⟨hopen.1, .inr h⟩
            simp only [if_pos hne]
            exact .inl ⟨trivial, hnone (hstuck (.inr (.inr hclose)))⟩
        | some close =>
            obtain ⟨hlt, hlt', negate, set, hts, hnegate, hmatches⟩ :=
              tokens_of_class hopen.1 hopen.2 hclose (str.getD si 0)
            simp only [← hnegate, hmatches]
            by_cases hset : inClass set (str.getD si 0) = negate
            · rw [if_pos hset]
              refine .inl ⟨rfl, hnone ?_⟩
              rw [hts]
              exact .inr ⟨_, _, rfl, fun h => h hset⟩
            · rw [if_neg hset]
              obtain ⟨hbounded, hrounds⟩ := hx.advance hsi (Nat.lt_succ_of_lt hlt) hlt'
              refine .inr ⟨⟨si + 1, close + 1, none, matchIdx⟩, rfl, ?_, hbounded, hrounds⟩
              simp only [cursor, hts, hinput, Option.isSome_none, Option.map_none, seenPieces]
              exact .advance hset
      · simp only [if_neg hopen]
        exact .inl ⟨trivial, hnone (hstuck (.inr (.inl hopen)))⟩

/-- The loop decides what is left to decide. -/
theorem GlobPlace.loop_iff (hkey : PlainKey str pattern) {x : GlobPlace}
    (hx : x.Bounded str pattern) (haligned : (x.cursor str pattern).Aligned) {fuel : Nat}
    (hfuel : x.rounds str pattern < fuel) :
    (x.loop str pattern fuel).any (fun pi => (pattern.drop pi).all (· = 42)) = true ↔
      (x.cursor str pattern).Goal := by
  induction fuel generalizing x with
  | zero => exact absurd hfuel (Nat.not_lt_zero _)
  | succ fuel ih =>
      by_cases hsi : x.si < str.length
      · obtain ⟨hreturn, hgoal⟩ | ⟨y, hloop, hmoves⟩ := round hkey hx hsi fuel
        · rw [hreturn]
          simpa using hgoal
        · have hlt := hmoves.rounds_lt
          rw [hloop, hmoves.step.goal_iff haligned]
          exact ih hmoves.bounded (hmoves.step.aligned haligned) (by omega)
      · have hinput : str.drop x.si = [] := List.drop_eq_nil_of_le (by omega)
        rw [haligned.goal_nil hinput]
        simp only [loop, globLoop, if_neg hsi, Option.any_some]
        exact (forall_seenPieces_eq_star _ _).symm

/-- **What `MatchGlob` decides**: the key matches the pattern as the loop sees it. -/
theorem matchGlob_iff_seen (hkey : PlainKey str pattern) :
    matchGlob str pattern = true ↔ Matches (seenPieces false (globTokens pattern)) str := by
  let x : GlobPlace := ⟨0, 0, none, 0⟩
  have hloop : matchGlob str pattern =
      (x.loop str pattern ((str.length + 1) * (pattern.length + 1))).any
        fun pi => (pattern.drop pi).all (· = 42) := by
    show matchGlob str pattern = (globLoop str pattern _ 0 0 none 0).any _
    unfold matchGlob
    cases globLoop str pattern ((str.length + 1) * (pattern.length + 1)) 0 0 none 0 <;> rfl
  have hbounded : x.Bounded str pattern :=
    ⟨Nat.zero_le _, le_refl 0, Nat.zero_le _, nofun⟩
  have hrounds : x.rounds str pattern < (str.length + 1) * (pattern.length + 1) := by
    rw [Nat.succ_mul]
    show (str.length - 0) * (pattern.length + 1) + (pattern.length - 0) < _
    rw [Nat.sub_zero, Nat.sub_zero]
    omega
  rw [hloop, GlobPlace.loop_iff hkey hbounded nofun hrounds]
  show Matches _ _ ∨ _ ↔ _
  refine or_iff_left ?_
  rintro ⟨b, hb, -⟩
  exact absurd hb nofun

end loop

/-! ## Patterns without classes -/

/-- The parts of a key that a byte of a pattern stands for, outside a class. -/
def Stands (b : UInt8) (part : Bytes) : Prop :=
  if b = 42 then True else if b = 63 then ∃ c, part = [c] else part = [b]

/-- The token of a byte outside a class. -/
def byteToken (b : UInt8) : GlobToken :=
  if b = 42 then .star else if b = 63 then .any else .byte b

theorem globTokens_of_notMem {pattern : Bytes} (h : 91 ∉ pattern) :
    globTokens pattern = pattern.map byteToken := by
  induction pattern with
  | nil => exact globTokens_nil
  | cons b rest ih =>
      rw [List.mem_cons, not_or] at h
      rw [List.map_cons, ← ih h.2, byteToken]
      by_cases h42 : b = 42
      · rw [if_pos h42, h42, globTokens_star]
      by_cases h63 : b = 63
      · rw [if_neg h42, if_pos h63, h63, globTokens_any]
      · rw [if_neg h42, if_neg h63, globTokens_byte h42 h63 fun hb => h.1 hb.symm]

theorem accepts_byteToken (b : UInt8) (part : Bytes) :
    (byteToken b).piece.Accepts part ↔ Stands b part := by
  unfold byteToken Stands
  by_cases h42 : b = 42
  · simp [h42, GlobToken.piece, Piece.Accepts]
  by_cases h63 : b = 63
  · simp [h63, GlobToken.piece, Piece.Accepts]
  · simp [h42, h63, GlobToken.piece, Piece.Accepts]

/-- The split of a key, byte by byte of the pattern. -/
theorem globs_iff_of_notMem {pattern : Bytes} (h : 91 ∉ pattern) (key : Bytes) :
    Globs pattern key ↔ ∃ parts, List.Forall₂ Stands pattern parts ∧ key = parts.flatten := by
  unfold Globs Matches
  rw [globTokens_of_notMem h, List.map_map]
  simp only [List.forall₂_map_left_iff, Function.comp_apply, accepts_byteToken]

/-! ## Classes and stars -/

/-- The token is a class. -/
def GlobToken.isClass : GlobToken → Bool
  | cls _ _ => true
  | _ => false

/-- A closed class stands somewhere in the pattern. -/
def hasClass (pattern : Bytes) : Bool := (globTokens pattern).any GlobToken.isClass

/-- A closed class stands somewhere behind a star. -/
def lateClass (pattern : Bytes) : Bool :=
  ((globTokens pattern).dropWhile (· ≠ .star)).any GlobToken.isClass

theorem seen_of_not_isClass {t : GlobToken} (h : t.isClass = false) (starred : Bool) :
    t.seen starred = t.piece := by
  cases t with
  | cls negate set => contradiction
  | _ => rfl

theorem seenPieces_true (ts : List GlobToken) : seenPieces true ts = ts.map (GlobToken.seen true) := by
  induction ts with
  | nil => rfl
  | cons t ts ih => rw [seenPieces, Bool.true_or, ih, List.map_cons]

/-- In front of the first star, everything is seen as it is. -/
theorem seenPieces_false (ts : List GlobToken) :
    seenPieces false ts = (ts.takeWhile (· ≠ .star)).map GlobToken.piece ++
      (ts.dropWhile (· ≠ .star)).map (GlobToken.seen true) := by
  induction ts with
  | nil => rfl
  | cons t ts ih =>
      by_cases ht : t = .star
      · subst ht
        simp [seenPieces, seenPieces_true, GlobToken.seen, GlobToken.piece]
      · have hseen : t.seen false = t.piece := by cases t <;> rfl
        simp [seenPieces, ht, ih, hseen]

/-- Without a late class the loop sees the pattern as it is. -/
theorem seenPieces_of_not_lateClass {pattern : Bytes} (h : lateClass pattern = false) :
    seenPieces false (globTokens pattern) = (globTokens pattern).map GlobToken.piece := by
  have hseen : ((globTokens pattern).dropWhile (· ≠ .star)).map (GlobToken.seen true) =
      ((globTokens pattern).dropWhile (· ≠ .star)).map GlobToken.piece := by
    refine List.map_congr_left fun t ht => seen_of_not_isClass ?_ true
    rw [lateClass, List.any_eq_false] at h
    simpa using h t ht
  rw [seenPieces_false, hseen, ← List.map_append, List.takeWhile_append_dropWhile]

/-- With a late class the loop sees nothing that matches. -/
theorem not_matches_of_lateClass {pattern : Bytes} (h : lateClass pattern = true) (key : Bytes) :
    ¬ Matches (seenPieces false (globTokens pattern)) key := by
  obtain ⟨t, ht, hclass⟩ := List.any_eq_true.mp h
  cases t with
  | cls negate set =>
      refine not_matches_of_mem (p := fun _ => False) ?_ fun _ => id
      rw [seenPieces_false]
      exact List.mem_append_right _ (List.mem_map_of_mem ht)
  | _ => contradiction

/-- **Going back to the last star is enough**: without classes, `MatchGlob` finds
a split of the key whenever there is one. -/
theorem matchGlob_iff_split {pattern key : Bytes} (hpattern : 91 ∉ pattern) (hkey : 42 ∉ key) :
    matchGlob key pattern = true ↔
      ∃ parts, List.Forall₂ Stands pattern parts ∧ key = parts.flatten := by
  have hlate : lateClass pattern = false := by
    rw [lateClass, globTokens_of_notMem hpattern, List.any_eq_false]
    intro t ht
    obtain ⟨b, -, rfl⟩ := List.mem_map.mp ((List.dropWhile_sublist _).subset ht)
    unfold byteToken
    split
    · exact nofun
    · split <;> exact nofun
  rw [matchGlob_iff_seen ⟨hkey, .inr hpattern⟩, seenPieces_of_not_lateClass hlate,
    ← globs_iff_of_notMem hpattern]
  rfl

theorem matchGlob_iff_split_two_stars :
    matchGlob (ascii "abcab") (ascii "*a?*b") = true ↔
      ∃ parts, List.Forall₂ Stands (ascii "*a?*b") parts ∧ ascii "abcab" = parts.flatten :=
  matchGlob_iff_split (by decide) (by decide)

/-- **Where a class is lost**: on a key without `*` and `[`, `MatchGlob` is right
unless a closed class stands behind a star and the key matches. -/
theorem matchGlob_correct_iff {pattern key : Bytes} (hstar : 42 ∉ key) (hopen : 91 ∉ key) :
    (matchGlob key pattern = true ↔ Globs pattern key) ↔
      ¬ (lateClass pattern = true ∧ Globs pattern key) := by
  rw [matchGlob_iff_seen ⟨hstar, .inl hopen⟩]
  by_cases hlate : lateClass pattern = true
  · simp only [not_matches_of_lateClass hlate, hlate, true_and, false_iff]
  · rw [Bool.not_eq_true] at hlate
    rw [seenPieces_of_not_lateClass hlate, hlate]
    simp [Globs]

theorem matchGlob_correct_iff_front :
    (matchGlob (ascii "bx") (ascii "[a-c]*") = true ↔ Globs (ascii "[a-c]*") (ascii "bx")) ↔
      ¬ (lateClass (ascii "[a-c]*") = true ∧ Globs (ascii "[a-c]*") (ascii "bx")) :=
  matchGlob_correct_iff (by decide) (by decide)

/-- `*[a]` misses the key `a`. -/
theorem not_matchGlob_star_class : ¬ ∀ pattern key : Bytes, hasClass pattern = true →
    42 ∉ key → 91 ∉ key → (matchGlob key pattern = true ↔ Globs pattern key) := by
  intro h
  have htokens : globTokens (ascii "*[a]") = [.star, .cls false (ascii "a")] := by
    show globTokens [42, 91, 97, 93] = _
    rw [globTokens_star, globTokens_class rfl]
    show _ :: classToken [97] :: globTokens [] = _
    rw [globTokens_nil]
    rfl
  have hclass : hasClass (ascii "*[a]") = true := by
    rw [hasClass, htokens]
    rfl
  have hglobs : Globs (ascii "*[a]") (ascii "a") := by
    rw [Globs, htokens]
    exact ⟨[[], ascii "a"], .cons trivial (.cons ⟨97, rfl, by decide⟩ .nil), rfl⟩
  exact absurd ((h _ _ hclass (by decide) (by decide)).mpr hglobs) (by decide)

end RedisLike
