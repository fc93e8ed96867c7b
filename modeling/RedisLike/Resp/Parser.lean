import RedisLike.Lib.Scanner
import RedisLike.Resp.Codec

/-!
# RedisLike.Resp.Parser

`Feed` as a scanner of the bytes still to be read.

`scanStep` is one round of the main loop on the rest of the buffer, without
positions.  It neither looks past the bytes it consumes nor waits for bytes it
does not need, so it is a `Scanner` (`respScanner`), and on buffers below
`2 ^ 62` bytes, where no position wraps, `Feed` runs it (`feed_eq_run`).
`feed_chunks` is the independence of the way the stream is cut.
-/

namespace RedisLike

/-! ## Lines -/

theorem splitLine_eq_some {s line rest : Bytes} (h : splitLine s = some (line, rest)) :
    s = line ++ crlf ++ rest := by
  induction s using splitLine.induct generalizing line with
  | case1 => simp [splitLine] at h
  | case2 a => simp [splitLine] at h
  | case3 a b rest' hab =>
      rw [splitLine, if_pos hab, Option.some.injEq, Prod.mk.injEq] at h
      obtain ⟨rfl, rfl⟩ := h
      obtain ⟨rfl, rfl⟩ := hab
      rfl
  | case4 a b rest' hab ih =>
      rw [splitLine, if_neg hab] at h
      obtain ⟨⟨line', rest''⟩, hs, he⟩ := Option.map_eq_some_iff.mp h
      simp only [Prod.mk.injEq] at he
      obtain ⟨rfl, rfl⟩ := he
      rw [ih hs]
      rfl

/-- A line is found in every extension of the buffer. -/
theorem splitLine_append {s line rest : Bytes} (t : Bytes)
    (h : splitLine s = some (line, rest)) : splitLine (s ++ t) = some (line, rest ++ t) := by
  induction s using splitLine.induct generalizing line with
  | case1 => simp [splitLine] at h
  | case2 a => simp [splitLine] at h
  | case3 a b rest' hab =>
      rw [splitLine, if_pos hab, Option.some.injEq, Prod.mk.injEq] at h
      obtain ⟨rfl, rfl⟩ := h
      rw [List.cons_append, List.cons_append, splitLine, if_pos hab]
  | case4 a b rest' hab ih =>
      rw [splitLine, if_neg hab] at h
      obtain ⟨⟨line', rest''⟩, hs, he⟩ := Option.map_eq_some_iff.mp h
      simp only [Prod.mk.injEq] at he
      obtain ⟨rfl, rfl⟩ := he
      rw [List.cons_append, List.cons_append, splitLine, if_neg hab, ← List.cons_append, ih hs]
      rfl

/-! ## One round on the rest of the buffer -/

/-- A bulk string at the front of `s`, and the number of bytes it takes. -/
def takeToken : Bytes → Option (Bytes × Nat)
  | [] => none
  | b :: s =>
    if b ≠ dollar then none
    else
      match splitLine s with
      | none => none
      | some (line, rest) =>
        let bulkLen := (max 0 (strtoll line).1).toNat
        if bulkLen + 2 > rest.length then none
        else
          let n := 1 + line.length + 2 + bulkLen
          if rest.getD bulkLen 0 = cr ∧ rest.getD (bulkLen + 1) 0 = lf then
            some (rest.take bulkLen, n + 2)
          else some (rest.take bulkLen, n)

/-- `n` bulk strings at the front of `s`, and the number of bytes they take. -/
def takeTokens : Nat → Bytes → Option (List Bytes × Nat)
  | 0, _ => some ([], 0)
  | n + 1, s =>
    match takeToken s with
    | none => none
    | some (token, k) =>
      (takeTokens n (s.drop k)).map fun (tokens, m) => (token :: tokens, k + m)

/-- One round of the main loop of `Feed`: the command it appends, if any, and
the number of bytes it moves on; `none` when it stops. -/
def scanStep : Bytes → Option (Option RespCommand × Nat)
  | [] => none
  | b :: s =>
    if b ≠ star then some (none, 1)
    else
      match splitLine s with
      | none => none
      | some (line, rest) =>
        let arrayLen := (strtoll line).1
        if arrayLen ≤ 0 ∨ arrayLen > 256 then some (none, 1 + line.length + 2)
        else
          match takeTokens arrayLen.toNat rest with
          | none => none
          | some (tokens, n) => some (some (toCommand tokens), 1 + line.length + 2 + n)

/-- The length of a payload that a line declares; a negative one counts as 0. -/
def bulkLen (line : Bytes) : Nat := (max 0 (strtoll line).1).toNat

theorem bulkLen_lt (line : Bytes) : bulkLen line < 2 ^ 63 := by
  have h := strtoll_lt line
  unfold bulkLen
  omega

/-- The bytes behind the line end, if there is one here. -/
def skipCrlf (s : Bytes) : Bytes := if s.getD 0 0 = cr ∧ s.getD 1 0 = lf then s.drop 2 else s

/-- An element that is all there. -/
theorem takeToken_eq_some {s line rest : Bytes} (hl : splitLine s = some (line, rest))
    (hlen : bulkLen line + 2 ≤ rest.length) :
    ∃ m, takeToken (dollar :: s) = some (rest.take (bulkLen line), m) ∧
      (dollar :: s).drop m = skipCrlf (rest.drop (bulkLen line)) := by
  have hs := splitLine_eq_some hl
  have hfit : ¬ bulkLen line + 2 > rest.length := by omega
  have hcr : (rest.drop (bulkLen line)).getD 0 0 = rest.getD (bulkLen line) 0 := by
    simp [List.getD_eq_getElem?_getD]
  have hlf : (rest.drop (bulkLen line)).getD 1 0 = rest.getD (bulkLen line + 1) 0 := by
    simp [List.getD_eq_getElem?_getD]
  have hdrop : ∀ i, (dollar :: s).drop (1 + line.length + 2 + i) = rest.drop i := by
    intro i
    have hcrlf : (line ++ crlf).length = line.length + 2 := by simp [crlf]
    have hsum : 1 + line.length + 2 + i = (line ++ crlf).length + i + 1 := by omega
    rw [hsum, List.drop_succ_cons, hs, ← List.drop_drop, List.drop_left]
  simp only [takeToken, hl, ne_eq, not_true_eq_false, if_false]
  change ∃ m, (if bulkLen line + 2 > rest.length then none else _) = some (_, m) ∧ _
  rw [if_neg hfit]
  by_cases hend : rest.getD (bulkLen line) 0 = cr ∧ rest.getD (bulkLen line + 1) 0 = lf
  · refine ⟨1 + line.length + 2 + bulkLen line + 2, if_pos hend, ?_⟩
    rw [skipCrlf, hcr, hlf, if_pos hend, Nat.add_assoc _ _ 2, hdrop,
      List.drop_drop]
  · refine ⟨1 + line.length + 2 + bulkLen line, if_neg hend, ?_⟩
    rw [skipCrlf, hcr, hlf, if_neg hend, hdrop]

/-- An element that is not all there. -/
theorem takeToken_eq_none {s line rest : Bytes} (hl : splitLine s = some (line, rest))
    (hlen : rest.length < bulkLen line + 2) : takeToken (dollar :: s) = none := by
  simp only [takeToken, hl, ne_eq, not_true_eq_false, if_false]
  exact if_pos hlen

/-- What an element is made of. -/
theorem takeToken_cases {s token : Bytes} {m : Nat} (h : takeToken s = some (token, m)) :
    ∃ u line rest, s = dollar :: u ∧ splitLine u = some (line, rest) ∧
      bulkLen line + 2 ≤ rest.length ∧ token = rest.take (bulkLen line) ∧
      s.drop m = skipCrlf (rest.drop (bulkLen line)) := by
  cases s with
  | nil => simp [takeToken] at h
  | cons b u =>
      by_cases hb : b = dollar
      · subst hb
        cases hl : splitLine u with
        | none => simp [takeToken, hl] at h
        | some r =>
            obtain ⟨line, rest⟩ := r
            by_cases hlen : bulkLen line + 2 ≤ rest.length
            · obtain ⟨m', hm, hdrop⟩ := takeToken_eq_some hl hlen
              rw [hm] at h
              obtain ⟨rfl, rfl⟩ := Prod.mk.inj (Option.some.inj h)
              exact ⟨u, line, rest, rfl, hl, hlen, rfl, hdrop⟩
            · rw [takeToken_eq_none hl (by omega)] at h
              contradiction
      · simp [takeToken, hb] at h

/-- An element goes on to the end of its payload. -/
theorem le_of_takeToken {s line rest token : Bytes} {m : Nat}
    (hl : splitLine s = some (line, rest)) (h : takeToken (dollar :: s) = some (token, m)) :
    1 + line.length + 2 + bulkLen line ≤ m := by
  simp only [takeToken, hl, ne_eq, not_true_eq_false, if_false] at h
  change (if bulkLen line + 2 > rest.length then none else _) = some (token, m) at h
  split at h
  · contradiction
  · split at h
    · obtain ⟨-, rfl⟩ := Prod.mk.inj (Option.some.inj h)
      unfold bulkLen
      omega
    · obtain ⟨-, rfl⟩ := Prod.mk.inj (Option.some.inj h)
      unfold bulkLen
      omega

theorem takeToken_length {s token : Bytes} {n : Nat} (h : takeToken s = some (token, n)) :
    0 < n ∧ n ≤ s.length := by
  cases s with
  | nil => simp [takeToken] at h
  | cons b s =>
      rw [takeToken] at h
      split at h
      · simp at h
      · cases hl : splitLine s with
        | none => simp [hl] at h
        | some r =>
            obtain ⟨line, rest⟩ := r
            have hs := congrArg List.length (splitLine_eq_some hl)
            simp only [List.length_append, crlf, List.length_cons, List.length_nil] at hs
            simp only [hl] at h
            grind

theorem takeToken_append {s token : Bytes} {n : Nat} (t : Bytes)
    (h : takeToken s = some (token, n)) : takeToken (s ++ t) = some (token, n) := by
  cases s with
  | nil => simp [takeToken] at h
  | cons b s =>
      rw [takeToken] at h
      rw [List.cons_append, takeToken]
      split at h
      · simp at h
      · next hb =>
        rw [if_neg hb]
        cases hl : splitLine s with
        | none => simp [hl] at h
        | some r =>
            obtain ⟨line, rest⟩ := r
            rw [splitLine_append t hl]
            simp only [hl] at h ⊢
            set k := (max 0 (strtoll line).1).toNat
            split at h
            · simp at h
            · next hk =>
              have hlen : k + 2 ≤ rest.length := by omega
              have hk' : ¬ k + 2 > (rest ++ t).length := by
                rw [List.length_append]; omega
              have h0 : (rest ++ t).getD k 0 = rest.getD k 0 :=
                List.getD_append rest t 0 k (by omega)
              have h1 : (rest ++ t).getD (k + 1) 0 = rest.getD (k + 1) 0 :=
                List.getD_append rest t 0 (k + 1) (by omega)
              rw [if_neg hk', h0, h1, List.take_append_of_le_length (by omega)]
              exact h

theorem takeTokens_length {s : Bytes} {tokens : List Bytes} {k n : Nat}
    (h : takeTokens k s = some (tokens, n)) : n ≤ s.length := by
  induction k generalizing s tokens n with
  | zero => simp [takeTokens] at h; omega
  | succ k ih =>
      rw [takeTokens] at h
      cases ht : takeToken s with
      | none => simp [ht] at h
      | some r =>
          obtain ⟨token, m⟩ := r
          rw [ht] at h
          obtain ⟨⟨tokens', n'⟩, hs, he⟩ := Option.map_eq_some_iff.mp h
          simp only [Prod.mk.injEq] at he
          have h1 := (takeToken_length ht).2
          have h2 := ih hs
          rw [List.length_drop] at h2
          omega

theorem takeTokens_append {s : Bytes} {tokens : List Bytes} {k n : Nat} (t : Bytes)
    (h : takeTokens k s = some (tokens, n)) : takeTokens k (s ++ t) = some (tokens, n) := by
  induction k generalizing s tokens n with
  | zero => simpa [takeTokens] using h
  | succ k ih =>
      rw [takeTokens] at h ⊢
      cases ht : takeToken s with
      | none => simp [ht] at h
      | some r =>
          obtain ⟨token, m⟩ := r
          rw [ht] at h
          obtain ⟨⟨tokens', n'⟩, hs, he⟩ := Option.map_eq_some_iff.mp h
          rw [takeToken_append t ht]
          simp only
          rw [List.drop_append_of_le_length (takeToken_length ht).2, ih hs]
          exact congrArg some he

/-- **The parser is a scanner**: a round consumes some bytes, and does the same
on every extension of the buffer. -/
def respScanner : Scanner UInt8 RespCommand where
  step := scanStep
  consumes := by
    intro s o n h
    cases s with
    | nil => simp [scanStep] at h
    | cons b s =>
        rw [scanStep] at h
        split at h
        · simp only [Option.some.injEq, Prod.mk.injEq] at h
          obtain ⟨-, rfl⟩ := h
          simp
        · cases hl : splitLine s with
          | none => simp [hl] at h
          | some r =>
              obtain ⟨line, rest⟩ := r
              have hs := congrArg List.length (splitLine_eq_some hl)
              simp only [List.length_append, crlf, List.length_cons, List.length_nil] at hs
              simp only [hl] at h
              split at h
              · simp only [Option.some.injEq, Prod.mk.injEq] at h
                obtain ⟨-, rfl⟩ := h
                rw [List.length_cons]
                omega
              · split at h
                · simp at h
                · next tokens m ht =>
                  have hm := takeTokens_length ht
                  simp only [Option.some.injEq, Prod.mk.injEq] at h
                  obtain ⟨-, rfl⟩ := h
                  rw [List.length_cons]
                  omega
  stable := by
    intro s o n t h
    cases s with
    | nil => simp [scanStep] at h
    | cons b s =>
        rw [scanStep] at h
        rw [List.cons_append, scanStep]
        split at h
        · next hb => rw [if_pos hb, h]
        · next hb =>
          rw [if_neg hb]
          cases hl : splitLine s with
          | none => simp [hl] at h
          | some r =>
              obtain ⟨line, rest⟩ := r
              rw [splitLine_append t hl]
              simp only [hl] at h ⊢
              split at h
              · next hn => rw [if_pos hn, h]
              · next hn =>
                rw [if_neg hn]
                split at h
                · simp at h
                · next tokens m ht => rw [takeTokens_append t ht]; exact h

/-! ## `Feed` runs the scanner -/

/-- A position in the buffer, and the bytes from there on. -/
theorem drop_eq_cons {buf s : Bytes} {pos : Nat} {b : UInt8}
    (h : buf.drop pos = b :: s) :
    pos < buf.length ∧ buf.getD pos 0 = b ∧ buf.drop (pos + 1) = s := by
  have hlen := congrArg List.length h
  rw [List.length_drop, List.length_cons] at hlen
  refine ⟨by omega, ?_, ?_⟩
  · rw [List.getD_eq_getElem?_getD, ← Nat.add_zero pos, ← List.getElem?_drop, h]
    rfl
  · rw [← List.drop_drop, h, List.drop_one, List.tail_cons]

/-- Behind a line the buffer goes on with the rest of `splitLine`. -/
theorem drop_line {buf s line rest : Bytes} {pos : Nat} (h : buf.drop pos = s)
    (hl : splitLine s = some (line, rest)) :
    pos + line.length + 2 ≤ buf.length ∧ buf.drop (pos + line.length + 2) = rest := by
  have hs := splitLine_eq_some hl
  have hlen := congrArg List.length h
  rw [List.length_drop, hs] at hlen
  simp only [List.length_append, crlf, List.length_cons, List.length_nil] at hlen
  refine ⟨by omega, ?_⟩
  rw [Nat.add_assoc, ← List.drop_drop, h, hs, ← List.drop_drop, List.append_assoc,
    List.drop_left]
  rfl

/-- Where the end of the payload does not wrap. -/
theorem readToken_eq_of_lt {buf : Bytes} {pos : Nat}
    (hwrap : ∀ line rest, splitLine (buf.drop (pos + 1)) = some (line, rest) →
      pos + 1 + line.length + 2 + bulkLen line + 2 < 2 ^ 64) :
    readToken buf pos = (takeToken (buf.drop pos)).map fun (token, n) => (token, pos + n) := by
  cases hd : buf.drop pos with
  | nil =>
      have hpos : pos ≥ buf.length := List.drop_eq_nil_iff.mp hd
      simp [readToken, hpos, takeToken]
  | cons b s =>
      obtain ⟨hpos, hb, htail⟩ := drop_eq_cons hd
      rw [readToken, takeToken, hb]
      by_cases hdollar : b = dollar
      · have hcond : ¬ (pos ≥ buf.length ∨ b ≠ dollar) := by simp [hdollar]; omega
        rw [if_neg hcond, if_neg (by simpa using hdollar), readLine, htail]
        rw [htail] at hwrap
        cases hl : splitLine s with
        | none => rfl
        | some r =>
            obtain ⟨line, rest⟩ := r
            obtain ⟨hle, hrest⟩ := drop_line htail hl
            have hlen : rest.length = buf.length - (pos + 1 + line.length + 2) := by
              rw [← hrest, List.length_drop]
            have hmod := Nat.mod_eq_of_lt (hwrap line rest hl)
            rw [bulkLen] at hmod
            simp only [Option.map_some]
            set k := (max 0 (strtoll line).1).toNat with hk
            rw [hmod]
            by_cases hfit : k + 2 > rest.length
            · rw [if_pos (by omega), if_pos hfit]; rfl
            · have hget : ∀ j, buf.getD (pos + 1 + line.length + 2 + j) 0 = rest.getD j 0 := by
                intro j
                rw [← hrest, List.getD_eq_getElem?_getD, List.getD_eq_getElem?_getD,
                  List.getElem?_drop]
              have hlt : pos + 1 + line.length + 2 + k + 1 < buf.length := by omega
              rw [if_neg (by omega), if_neg hfit, hget k, Nat.add_assoc _ k 1, hget (k + 1),
                hrest]
              have hsum : pos + 1 + line.length + 2 + k = pos + (1 + line.length + 2 + k) := by
                omega
              by_cases hcrlf : rest.getD k 0 = cr ∧ rest.getD (k + 1) 0 = lf
              · rw [if_pos ⟨hlt, hcrlf⟩, if_pos hcrlf, hsum]; rfl
              · rw [if_neg fun h => hcrlf h.2, if_neg hcrlf, hsum]; rfl
      · rw [if_pos (Or.inr hdollar), if_pos hdollar]
        rfl

/-- No position wraps in a buffer below `2 ^ 62` bytes. -/
theorem readToken_eq {buf : Bytes} (hbuf : buf.length < 2 ^ 62) (pos : Nat) :
    readToken buf pos = (takeToken (buf.drop pos)).map fun (token, n) => (token, pos + n) := by
  refine readToken_eq_of_lt fun line rest hl => ?_
  obtain ⟨hle, -⟩ := drop_line rfl hl
  have hbulk := bulkLen_lt line
  omega

theorem readTokens_eq {buf : Bytes} (hbuf : buf.length < 2 ^ 62) (n pos : Nat) :
    readTokens buf n pos =
      (takeTokens n (buf.drop pos)).map fun (tokens, k) => (tokens, pos + k) := by
  induction n generalizing pos with
  | zero => rfl
  | succ n ih =>
      rw [readTokens, takeTokens, readToken_eq hbuf]
      cases ht : takeToken (buf.drop pos) with
      | none => rfl
      | some r =>
          obtain ⟨token, k⟩ := r
          simp only [Option.map_some, ih, List.drop_drop]
          cases takeTokens n (buf.drop (pos + k)) with
          | none => rfl
          | some r => simp [Nat.add_assoc]

/-- Where no position wraps, the elements are read. -/
theorem readTokens_of_takeTokens {buf : Bytes} {n m pos : Nat} {tokens : List Bytes}
    (h : takeTokens n (buf.drop pos) = some (tokens, m)) (hm : pos + m + 2 < 2 ^ 64) :
    readTokens buf n pos = some (tokens, pos + m) := by
  induction n generalizing pos tokens m with
  | zero =>
      cases h
      rfl
  | succ n ih =>
      rw [takeTokens] at h
      cases ht : takeToken (buf.drop pos) with
      | none => simp [ht] at h
      | some r =>
          obtain ⟨token, k⟩ := r
          rw [ht] at h
          obtain ⟨⟨tokens', m'⟩, hs, he⟩ := Option.map_eq_some_iff.mp h
          obtain ⟨rfl, rfl⟩ := Prod.mk.inj he
          have hread : readToken buf pos = some (token, pos + k) := by
            rw [readToken_eq_of_lt, ht]
            · rfl
            · intro line rest hl
              cases hd : buf.drop pos with
              | nil => simp [hd, takeToken] at ht
              | cons b s =>
                  obtain ⟨-, -, htail⟩ := drop_eq_cons hd
                  have hb : b = dollar := by
                    by_contra hb
                    simp [hd, takeToken, hb] at ht
                  rw [hd, hb] at ht
                  rw [htail] at hl
                  have hle := le_of_takeToken hl ht
                  omega
          rw [List.drop_drop] at hs
          rw [readTokens, hread]
          simp only [ih hs (by omega), Option.map_some, Nat.add_assoc]

/-- A round of the main loop, in a buffer of any length. -/
theorem feedLoop_of_scanStep {buf : Bytes} {fuel n pos : Nat} {o : Option RespCommand}
    (h : scanStep (buf.drop pos) = some (o, n)) (hn : pos + n + 2 < 2 ^ 64) :
    feedLoop buf (fuel + 1) pos =
      (o.toList ++ (feedLoop buf fuel (pos + n)).1, (feedLoop buf fuel (pos + n)).2) := by
  cases hd : buf.drop pos with
  | nil => simp [hd, scanStep] at h
  | cons b s =>
      obtain ⟨hpos, hb, htail⟩ := drop_eq_cons hd
      rw [hd, scanStep] at h
      rw [feedLoop, if_neg (by omega), hb]
      split at h
      · next hstar =>
        obtain ⟨rfl, rfl⟩ := Prod.mk.inj (Option.some.inj h)
        rw [if_pos hstar]
        rfl
      · next hstar =>
        rw [if_neg hstar, readLine, htail]
        cases hl : splitLine s with
        | none => simp [hl] at h
        | some r =>
            obtain ⟨line, rest⟩ := r
            obtain ⟨-, hrest⟩ := drop_line htail hl
            have hnext : ∀ k, pos + (1 + line.length + 2 + k) = pos + 1 + line.length + 2 + k := by
              omega
            simp only [hl] at h
            simp only [Option.map_some]
            split at h
            · next hlen =>
              obtain ⟨rfl, rfl⟩ := Prod.mk.inj (Option.some.inj h)
              rw [if_pos hlen, ← Nat.add_zero (1 + line.length + 2), hnext]
              rfl
            · next hlen =>
              rw [if_neg hlen]
              cases ht : takeTokens (strtoll line).1.toNat rest with
              | none => simp [ht] at h
              | some r =>
                  obtain ⟨tokens, k⟩ := r
                  rw [ht] at h
                  obtain ⟨rfl, rfl⟩ := Prod.mk.inj (Option.some.inj h)
                  rw [← hrest] at ht
                  rw [readTokens_of_takeTokens ht (by omega), hnext]
                  rfl

/-- The main loop stops where the scanner does. -/
theorem feedLoop_of_scanStep_eq_none {buf : Bytes} (hbuf : buf.length < 2 ^ 62) {fuel pos : Nat}
    (h : scanStep (buf.drop pos) = none) : feedLoop buf fuel pos = ([], pos) := by
  cases fuel with
  | zero => rfl
  | succ fuel =>
      cases hd : buf.drop pos with
      | nil =>
          have hpos : pos ≥ buf.length := List.drop_eq_nil_iff.mp hd
          rw [feedLoop, if_pos hpos]
      | cons b s =>
          obtain ⟨hpos, hb, htail⟩ := drop_eq_cons hd
          rw [hd, scanStep] at h
          rw [feedLoop, if_neg (by omega), hb]
          split at h
          · contradiction
          · next hstar =>
            rw [if_neg hstar, readLine, htail]
            cases hl : splitLine s with
            | none => rfl
            | some r =>
                obtain ⟨line, rest⟩ := r
                obtain ⟨-, hrest⟩ := drop_line htail hl
                simp only [hl] at h
                simp only [Option.map_some]
                split at h
                · contradiction
                · next hlen =>
                  rw [if_neg hlen, readTokens_eq hbuf, hrest]
                  cases ht : takeTokens (strtoll line).1.toNat rest with
                  | none => rfl
                  | some r => simp [ht] at h

/-- **The main loop runs the scanner** on the bytes from `pos` on. -/
theorem feedLoop_eq {buf : Bytes} (hbuf : buf.length < 2 ^ 62) {fuel pos : Nat}
    (hfuel : buf.length - pos ≤ fuel) :
    (feedLoop buf fuel pos).1 = (respScanner.run (buf.drop pos)).1 ∧
      buf.drop (feedLoop buf fuel pos).2 = (respScanner.run (buf.drop pos)).2 := by
  induction fuel generalizing pos with
  | zero =>
      have hd : buf.drop pos = [] := List.drop_eq_nil_iff.mpr (by omega)
      rw [hd, respScanner.run_of_none (s := []) rfl, feedLoop, hd]
      exact ⟨rfl, rfl⟩
  | succ fuel ih =>
      cases hs : scanStep (buf.drop pos) with
      | none =>
          rw [feedLoop_of_scanStep_eq_none hbuf hs, respScanner.run_of_none hs]
          exact ⟨rfl, rfl⟩
      | some r =>
          obtain ⟨o, n⟩ := r
          obtain ⟨hn, hle⟩ := respScanner.consumes hs
          rw [List.length_drop] at hle
          obtain ⟨ih₁, ih₂⟩ := @ih (pos + n) (by omega)
          rw [feedLoop_of_scanStep hs (by omega), respScanner.run_of_some hs, List.drop_drop, ← ih₁,
            ← ih₂]
          exact ⟨rfl, rfl⟩

/-- **`Feed` runs the scanner** on the buffered and the new bytes. -/
theorem feed_eq_run {codec : RespCodec} {data : Bytes}
    (h : (codec.readBuf ++ data).length < 2 ^ 62) :
    codec.feed data = ((respScanner.run (codec.readBuf ++ data)).1,
      ⟨(respScanner.run (codec.readBuf ++ data)).2⟩) := by
  obtain ⟨h₁, h₂⟩ := feedLoop_eq h (Nat.sub_le (codec.readBuf ++ data).length 0)
  rw [List.drop_zero] at h₁ h₂
  rw [RespCodec.feed, h₁, h₂]

/-- The first `Feed` of a codec. -/
theorem feed_new_eq_run {s : Bytes} (h : s.length < 2 ^ 62) :
    RespCodec.feed {} s = ((respScanner.run s).1, ⟨(respScanner.run s).2⟩) :=
  @feed_eq_run {} s h

/-! ## What `Feed` returns -/

/-- The command is one that some `Feed` has returned. -/
def RespCommand.Decoded (cmd : RespCommand) : Prop :=
  ∃ (codec : RespCodec) (data : Bytes), cmd ∈ (codec.feed data).1

theorem length_of_readTokens {buf : Bytes} {n pos next : Nat} {tokens : List Bytes}
    (h : readTokens buf n pos = some (tokens, next)) : tokens.length = n := by
  induction n generalizing pos tokens next with
  | zero =>
      cases h
      rfl
  | succ n ih =>
      rw [readTokens] at h
      cases ht : readToken buf pos with
      | none => simp [ht] at h
      | some r =>
          obtain ⟨token, pos'⟩ := r
          rw [ht] at h
          obtain ⟨⟨tokens', next'⟩, hr, he⟩ := Option.map_eq_some_iff.mp h
          cases he
          rw [List.length_cons, ih hr]

theorem length_args_of_mem_feedLoop {buf : Bytes} {fuel pos : Nat} {cmd : RespCommand}
    (h : cmd ∈ (feedLoop buf fuel pos).1) : cmd.args.length ≤ 255 := by
  fun_induction feedLoop buf fuel pos with
  | case1 => exact absurd h List.not_mem_nil
  | case2 => exact absurd h List.not_mem_nil
  | case3 _ _ _ _ ih => exact ih h
  | case4 => exact absurd h List.not_mem_nil
  | case5 _ _ _ _ _ _ _ _ _ ih => exact ih h
  | case6 => exact absurd h List.not_mem_nil
  | case7 fuel pos _ _ line next _ arrayLen hlen tokens next' htokens r ih =>
      rcases List.mem_cons.mp h with rfl | h
      · have := length_of_readTokens htokens
        rw [toCommand, List.length_tail]
        omega
      · exact ih h

/-- `Feed` takes no header above 256. -/
theorem RespCommand.Decoded.length_args {cmd : RespCommand} (h : cmd.Decoded) :
    cmd.args.length ≤ 255 := by
  obtain ⟨codec, data, h⟩ := h
  exact length_args_of_mem_feedLoop h

/-- What is left of a buffer is no longer than it. -/
theorem length_run_snd_le (s : Bytes) : (respScanner.run s).2.length ≤ s.length :=
  (respScanner.trace_append 0 s []).2

/-- Feeding chunks is feeding them to the scanner. -/
theorem feedChunks_eq_feedAll {codec : RespCodec} {chunks : List Bytes}
    (h : (codec.readBuf ++ chunks.flatten).length < 2 ^ 62) :
    codec.feedChunks chunks = ((respScanner.feedAll codec.readBuf chunks).1,
      ⟨(respScanner.feedAll codec.readBuf chunks).2⟩) := by
  induction chunks generalizing codec with
  | nil => rfl
  | cons chunk chunks ih =>
      rw [List.flatten_cons, ← List.append_assoc, List.length_append] at h
      have hrest := length_run_snd_le (codec.readBuf ++ chunk)
      rw [RespCodec.feedChunks, feed_eq_run (by omega), ih (by
        rw [List.length_append]; simp only; omega)]
      rfl

/-- **`Feed` does not depend on how the stream is cut**: feeding the chunks one
after another returns the commands of one `Feed` of the whole, and leaves the
same bytes. -/
theorem feed_chunks {chunks : List Bytes} (h : chunks.flatten.length < 2 ^ 62) :
    RespCodec.feedChunks {} chunks = RespCodec.feed {} chunks.flatten := by
  rw [feedChunks_eq_feedAll (by simpa using h), feed_new_eq_run h, respScanner.feedAll_eq (by rfl)]
  rfl

/-- A `PING` cut inside its length line, and some junk in front of it. -/
theorem feed_chunks_ping :
    RespCodec.feedChunks {} [ascii "x*1\r\n$", ascii "4\r", ascii "\nPING\r\n"] =
      RespCodec.feed {} (ascii "x*1\r\n$4\r\nPING\r\n") :=
  @feed_chunks [ascii "x*1\r\n$", ascii "4\r", ascii "\nPING\r\n"] (by decide)

end RedisLike
