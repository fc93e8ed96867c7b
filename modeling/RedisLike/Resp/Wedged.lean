import RedisLike.Numeral
import RedisLike.Resp.RoundTrip

/-!
# RedisLike.Resp.Wedged

When the parser can still return a command.

`Feed` rolls back to the `'*'` of a frame when an element of it is not there yet,
and also when another byte stands where the `'$'` of the element belongs.
`frameLacks` tells the two apart: the fewest bytes that complete the frame, or
none.  So many are enough (`exists_completes`), and fewer are not
(`Completes.lacks`).  What is kept in front of a rollback is never dropped, so a
stream wedges the parser exactly if it has a frame that no bytes complete, or none
that there is room for: `feedChunks_resumes_iff`.
-/

namespace RedisLike

/-! ## A line that goes on -/

theorem digitsValue_mono {ds es : Bytes} (h : ds <+: es) :
    digitsValue ds ≤ digitsValue es := by
  have hgrows : ∀ (l : Bytes) (v : Nat), v ≤ l.foldl (fun n d => 10 * n + (d.toNat - 48)) v := by
    intro l
    induction l with
    | nil => exact fun _ => le_rfl
    | cons d l ih =>
        intro v
        have hv := ih (10 * v + (d.toNat - 48))
        rw [List.foldl_cons]
        omega
  obtain ⟨l, rfl⟩ := h
  rw [digitsValue, digitsValue, List.foldl_append]
  exact hgrows l _

theorem splitSign_append {s : Bytes} (hs : s ≠ []) (t : Bytes) :
    splitSign (s ++ t) = ((splitSign s).1, (splitSign s).2.1, (splitSign s).2.2 ++ t) := by
  fun_cases splitSign s with
  | case1 rest => rfl
  | case2 rest => rfl
  | case3 _ hminus hplus =>
      obtain ⟨c, rest, rfl⟩ := List.exists_cons_of_ne_nil hs
      have hm : c ≠ 45 := fun hc => hminus rest (by rw [hc])
      have hp : c ≠ 43 := fun hc => hplus rest (by rw [hc])
      exact splitSign_of_ne hm hp (rest ++ t)

theorem takeWhile_prefix_append {α : Type*} (p : α → Bool) (l l' : List α) :
    l.takeWhile p <+: (l ++ l').takeWhile p := by
  rw [List.takeWhile_append]
  split
  · exact (List.takeWhile_prefix p).trans (List.prefix_append _ _)
  · exact List.prefix_refl _

theorem toNat_saturate (v : Nat) :
    (max 0 (saturate v)).toNat = min (2 ^ 63 - 1) v ∧ (max 0 (saturate (-v))).toNat = 0 := by
  simp only [saturate, int64Max, int64Min]
  omega

/-- The digits that `strtoll` reads, and their sign. -/
theorem bulkLen_eq (s : Bytes) : bulkLen s =
    if (splitSign ((cStr s).dropWhile isSpace)).1 then 0
    else min (2 ^ 63 - 1)
      (digitsValue ((splitSign ((cStr s).dropWhile isSpace)).2.2.takeWhile isDigit)) := by
  simp only [bulkLen, strtoll]
  by_cases hnone : (splitSign ((cStr s).dropWhile isSpace)).2.2.takeWhile isDigit = []
  · rw [if_pos hnone, hnone]
    simp [digitsValue]
  rw [if_neg hnone]
  dsimp only
  split
  · exact (toNat_saturate _).2
  · exact (toNat_saturate _).1

/-- **More bytes make a declared length no smaller.** -/
theorem bulkLen_le_append (s t : Bytes) : bulkLen s ≤ bulkLen (s ++ t) := by
  obtain ⟨u, hu⟩ : cStr s <+: cStr (s ++ t) := takeWhile_prefix_append _ s t
  rw [bulkLen_eq, bulkLen_eq, ← hu, List.dropWhile_append]
  by_cases hspaces : (cStr s).dropWhile isSpace = []
  · -- nothing but spaces so far
    rw [hspaces]
    exact Nat.zero_le _
  have hempty : ¬ ((cStr s).dropWhile isSpace).isEmpty = true := by rwa [List.isEmpty_iff]
  rw [if_neg hempty, splitSign_append hspaces]
  split
  · exact le_rfl
  · exact min_le_min_left _ (digitsValue_mono (takeWhile_prefix_append _ _ u))

/-! ## What a frame lacks -/

/-- The bytes that an open length line lacks, and the payload behind it.  Behind a
`'\r'` the line ends with one byte. -/
def lineLacks (s : Bytes) : Nat :=
  if s.getLast? = some cr then 1 + bulkLen s.dropLast else 2 + bulkLen s

/-- The fewest bytes that make `n` elements out of the buffer; `none` when another byte
stands where a `'$'` must.  An element takes three bytes at least, a `'$'` and the end of
its line, and behind the last one `Feed` wants room for two. -/
def tokensLack : Nat → Bytes → Option Nat
  | 0, _ => some 0
  | n + 1, [] => some (3 * (n + 1) + 2)
  | n + 1, b :: s =>
    if b ≠ dollar then none
    else
      match splitLine s with
      | none => some (lineLacks s + (3 * n + 2))
      | some (line, rest) =>
        if rest.length ≤ bulkLen line then some (bulkLen line - rest.length + (3 * n + 2))
        else if rest.drop (bulkLen line) = [cr] then (tokensLack n []).map (1 + ·)
        else (tokensLack n (skipCrlf (rest.drop (bulkLen line)))).map
          (max (bulkLen line + 2 - rest.length))

/-- The fewest bytes that complete the frame at the front of the buffer, if there is one. -/
def frameLacks : Bytes → Option Nat
  | [] => some 0
  | b :: s =>
    if b ≠ star then some 0
    else
      match splitLine s with
      | none => some 0
      | some (line, rest) =>
        if (strtoll line).1 ≤ 0 ∨ (strtoll line).1 > 256 then some 0
        else tokensLack (strtoll line).1.toNat rest

/-- The bytes complete the next `n` elements of the buffer. -/
def Completes (n : Nat) (s t : Bytes) : Prop :=
  ∃ tokens m, takeTokens n (s ++ t) = some (tokens, m)

theorem skipCrlf_append {s : Bytes} (hs : s ≠ []) (hcr : s ≠ [cr]) (t : Bytes) :
    skipCrlf (s ++ t) = skipCrlf s ++ t := by
  cases s with
  | nil => contradiction
  | cons a s =>
      cases s with
      | nil =>
          have ha : a ≠ cr := fun he => hcr (by rw [he])
          simp [skipCrlf, ha]
      | cons b s =>
          by_cases h : a = cr ∧ b = lf
          · simp [skipCrlf, h]
          · simp [skipCrlf, h]

theorem length_skipCrlf_le (s : Bytes) : (skipCrlf s).length ≤ s.length := by
  rw [skipCrlf]
  split
  · rw [List.length_drop]
    omega
  · exact le_rfl

/-! ### Enough bytes -/

/-- A line that has no end gets one. -/
theorem splitLine_append_crlf {s : Bytes} (h : splitLine s = none) (t : Bytes) :
    splitLine (s ++ (crlf ++ t)) = some (s, t) := by
  rw [← List.append_assoc]
  refine splitLine_of_not_infix ?_ t
  rintro ⟨a, b, rfl⟩
  obtain ⟨⟨line, rest⟩, hfirst⟩ := Option.isSome_iff_exists.mp (isSome_splitLine_append_crlf a)
  rw [splitLine_append b hfirst] at h
  contradiction

/-- What is in front of an open line is open. -/
theorem splitLine_eq_none_of_append {s t : Bytes} (h : splitLine (s ++ t) = none) :
    splitLine s = none := by
  cases hs : splitLine s with
  | none => rfl
  | some r =>
      rw [splitLine_append t hs] at h
      contradiction

theorem takeTokens_succ {n k m : Nat} {s token : Bytes} {tokens : List Bytes}
    (h : takeToken s = some (token, k)) (hs : takeTokens n (s.drop k) = some (tokens, m)) :
    takeTokens (n + 1) s = some (token :: tokens, k + m) := by
  simp [takeTokens, h, hs]

theorem takeTokens_of_line {n : Nat} {s line rest : Bytes}
    (hl : splitLine s = some (line, rest)) (hlen : bulkLen line + 2 ≤ rest.length)
    (h : ∃ tokens m, takeTokens n (skipCrlf (rest.drop (bulkLen line))) = some (tokens, m)) :
    ∃ tokens m, takeTokens (n + 1) (dollar :: s) = some (tokens, m) := by
  obtain ⟨k, hk, hdrop⟩ := takeToken_eq_some hl hlen
  obtain ⟨tokens, m, h⟩ := h
  rw [← hdrop] at h
  exact ⟨_, _, takeTokens_succ hk h⟩

/-- `n` elements of three bytes, and the room behind them. -/
def shortTokens : Nat → Bytes
  | 0 => [0, 0]
  | n + 1 => dollar :: (crlf ++ shortTokens n)

theorem length_shortTokens (n : Nat) : (shortTokens n).length = 3 * n + 2 := by
  induction n with
  | zero => rfl
  | succ n ih =>
      rw [shortTokens, List.length_cons, List.length_append, ih]
      have hcrlf : crlf.length = 2 := rfl
      omega

theorem skipCrlf_shortTokens (n : Nat) : skipCrlf (shortTokens n) = shortTokens n := by
  cases n <;> rfl

theorem takeTokens_shortTokens (n : Nat) :
    ∃ tokens m, takeTokens n (shortTokens n) = some (tokens, m) := by
  induction n with
  | zero => exact ⟨[], 0, rfl⟩
  | succ n ih =>
      have hl : splitLine (crlf ++ shortTokens n) = some ([], shortTokens n) := by
        simp [crlf, splitLine]
      have hlen := length_shortTokens n
      refine takeTokens_of_line hl ?_ ?_
      · rw [show bulkLen [] = 0 by decide]
        omega
      · rw [show bulkLen [] = 0 by decide, List.drop_zero, skipCrlf_shortTokens]
        exact ih

section completes

variable {n : Nat} {s line rest t : Bytes}

/-- The payload of the element is filled up, and short elements follow. -/
theorem takeTokens_of_filled (hlen : rest.length ≤ bulkLen line)
    (hl : splitLine s = some (line, rest ++
      (List.replicate (bulkLen line - rest.length) 0 ++ shortTokens n))) :
    ∃ tokens m, takeTokens (n + 1) (dollar :: s) = some (tokens, m) := by
  have hshort := length_shortTokens n
  have hdrop : (rest ++ (List.replicate (bulkLen line - rest.length) 0 ++ shortTokens n)).drop
      (bulkLen line) = shortTokens n := by
    rw [← List.append_assoc]
    refine List.drop_left' ?_
    rw [List.length_append, List.length_replicate]
    omega
  refine takeTokens_of_line hl ?_ ?_
  · rw [List.length_append, List.length_append, List.length_replicate]
    omega
  · rw [hdrop, skipCrlf_shortTokens]
    exact takeTokens_shortTokens n

/-- The length line is finished, and then its payload. -/
theorem exists_completes_line (hl : splitLine s = none) :
    ∃ t, t.length = lineLacks s + (3 * n + 2) ∧ Completes (n + 1) (dollar :: s) t := by
  have hshort := length_shortTokens n
  by_cases hcr : s.getLast? = some cr
  · obtain ⟨line, rfl⟩ := List.getLast?_eq_some_iff.mp hcr
    have hsplit := splitLine_append_crlf (splitLine_eq_none_of_append hl)
      (List.replicate (bulkLen line) 0 ++ shortTokens n)
    refine ⟨lf :: (List.replicate (bulkLen line) 0 ++ shortTokens n), ?_,
      @takeTokens_of_filled n _ line [] (Nat.zero_le _) ?_⟩
    · rw [lineLacks, if_pos hcr, List.dropLast_concat, List.length_cons, List.length_append,
        List.length_replicate]
      omega
    · exact (congrArg splitLine (List.append_assoc line [cr] _)).trans hsplit
  · refine ⟨crlf ++ (List.replicate (bulkLen s) 0 ++ shortTokens n), ?_,
      @takeTokens_of_filled n _ s [] (Nat.zero_le _) (splitLine_append_crlf hl _)⟩
    rw [lineLacks, if_neg hcr, List.length_append, List.length_append, List.length_replicate]
    have hcrlf : crlf.length = 2 := rfl
    omega

/-- What stands behind a payload that is all there. -/
theorem takeTokens_of_behind (hl : splitLine s = some (line, rest))
    (hbehind : bulkLen line < rest.length) (hlen : bulkLen line + 2 ≤ rest.length + t.length)
    (h : ∃ tokens m, takeTokens n (skipCrlf (rest.drop (bulkLen line) ++ t)) = some (tokens, m)) :
    Completes (n + 1) (dollar :: s) t := by
  refine takeTokens_of_line (splitLine_append t hl) ?_ ?_
  · rwa [List.length_append]
  · rwa [List.drop_append_of_le_length hbehind.le]

/-- Half of the line end behind a payload, and then the other half. -/
theorem Completes.behind_half (hl : splitLine s = some (line, rest))
    (hcr : rest.drop (bulkLen line) = [cr]) (h : Completes n [] t) :
    Completes (n + 1) (dollar :: s) (lf :: t) := by
  have hhalf := congrArg List.length hcr
  rw [List.length_drop, List.length_singleton] at hhalf
  refine takeTokens_of_behind hl (by omega) (by rw [List.length_cons]; omega) ?_
  rw [hcr]
  exact h

/-- The elements behind a payload, and room for its line end when they need none. -/
theorem Completes.behind (hl : splitLine s = some (line, rest))
    (hbehind : bulkLen line < rest.length) (hcr : rest.drop (bulkLen line) ≠ [cr])
    (h : Completes n (skipCrlf (rest.drop (bulkLen line))) t) :
    Completes (n + 1) (dollar :: s)
      (t ++ List.replicate (bulkLen line + 2 - rest.length - t.length) 0) := by
  obtain ⟨tokens, m, h⟩ := h
  have hne : rest.drop (bulkLen line) ≠ [] := by simpa using hbehind
  refine takeTokens_of_behind hl hbehind ?_ ?_
  · rw [List.length_append, List.length_replicate]
    omega
  · rw [skipCrlf_append hne hcr, ← List.append_assoc]
    exact ⟨tokens, m, takeTokens_append _ h⟩

end completes

/-- **So many bytes are enough.** -/
theorem exists_completes {n m : Nat} {s : Bytes} (h : tokensLack n s = some m) :
    ∃ t, t.length = m ∧ Completes n s t := by
  induction n generalizing s m with
  | zero =>
      cases h
      exact ⟨[], rfl, [], 0, rfl⟩
  | succ n ih =>
      cases s with
      | nil =>
          cases h
          exact ⟨shortTokens (n + 1), length_shortTokens _, takeTokens_shortTokens _⟩
      | cons b s =>
          rw [tokensLack] at h
          split at h
          · contradiction
          · next hb =>
            obtain rfl : b = dollar := by simpa using hb
            cases hl : splitLine s with
            | none =>
                rw [hl] at h
                cases h
                exact exists_completes_line hl
            | some r =>
                obtain ⟨line, rest⟩ := r
                simp only [hl] at h
                split at h
                · next hpay =>
                  cases h
                  have hshort := length_shortTokens n
                  refine ⟨List.replicate (bulkLen line - rest.length) 0 ++ shortTokens n, ?_,
                    takeTokens_of_filled hpay (splitLine_append _ hl)⟩
                  rw [List.length_append, List.length_replicate]
                  omega
                · next hpay =>
                  have hbehind : bulkLen line < rest.length := by omega
                  split at h
                  · next hcr =>
                    obtain ⟨k, hk, rfl⟩ := Option.map_eq_some_iff.mp h
                    obtain ⟨t, rfl, ht⟩ := ih hk
                    exact ⟨lf :: t, by rw [List.length_cons]; omega, ht.behind_half hl hcr⟩
                  · next hcr =>
                    obtain ⟨k, hk, rfl⟩ := Option.map_eq_some_iff.mp h
                    obtain ⟨t, rfl, ht⟩ := ih hk
                    refine ⟨_, ?_, ht.behind hl hbehind hcr⟩
                    rw [List.length_append, List.length_replicate]
                    omega

/-! ### Not fewer -/

/-- How an open line can end. -/
theorem splitLine_of_open {s t line rest : Bytes} (hs : splitLine s = none)
    (h : splitLine (s ++ t) = some (line, rest)) :
    (∃ e, line = s ++ e ∧ t = e ++ (crlf ++ rest)) ∨ (s = line ++ [cr] ∧ t = lf :: rest) := by
  have hst := splitLine_eq_some h
  rw [List.append_assoc, List.append_eq_append_iff] at hst
  obtain ⟨e, hline, ht⟩ | ⟨e, hse, he⟩ := hst
  · exact .inl ⟨e, hline, ht⟩
  cases e with
  | nil => exact .inl ⟨[], by rw [hse, List.append_nil, List.append_nil], he.symm⟩
  | cons a e =>
      obtain rfl : cr = a := (List.cons.inj he).1
      have htail := (List.cons.inj he).2
      cases e with
      | nil => exact .inr ⟨hse, htail.symm⟩
      | cons b e =>
          -- then the line was not open
          obtain rfl : lf = b := (List.cons.inj htail).1
          have hopen := isSome_splitLine_append_crlf line
          have hends : s = line ++ crlf ++ e := by rw [hse, crlf]; simp
          rw [hends] at hs
          rw [splitLine_eq_none_of_append hs] at hopen
          contradiction

/-- Elements and the room behind them take three bytes each, and two. -/
theorem le_length_of_behind {n : Nat} {w : Bytes} (hw : 2 ≤ w.length)
    (h : ∃ tokens m, takeTokens n (skipCrlf w) = some (tokens, m)) : 3 * n + 2 ≤ w.length := by
  induction n generalizing w with
  | zero => omega
  | succ n ih =>
      obtain ⟨tokens, m, h⟩ := h
      rw [takeTokens] at h
      cases ht : takeToken (skipCrlf w) with
      | none => simp [ht] at h
      | some r =>
          obtain ⟨token, k⟩ := r
          rw [ht] at h
          obtain ⟨⟨tokens', m'⟩, hs, -⟩ := Option.map_eq_some_iff.mp h
          obtain ⟨u, line, rest, hu, hl, hlen, -, hdrop⟩ := takeToken_cases ht
          rw [hdrop] at hs
          have hrest := ih (by rw [List.length_drop]; omega) ⟨_, _, hs⟩
          have hsplit := congrArg List.length (splitLine_eq_some hl)
          have hskip := length_skipCrlf_le w
          have hcrlf : crlf.length = 2 := rfl
          rw [hu, List.length_cons] at hskip
          rw [List.length_append, List.length_append] at hsplit
          rw [List.length_drop] at hrest
          omega

theorem lineLacks_le (s : Bytes) : lineLacks s ≤ 2 + bulkLen s := by
  rw [lineLacks]
  split
  · next hcr =>
    obtain ⟨line, rfl⟩ := List.getLast?_eq_some_iff.mp hcr
    have hle := bulkLen_le_append line [cr]
    rw [List.dropLast_concat]
    omega
  · exact le_rfl

/-- What an open length line lacks comes before what stands behind the payload. -/
theorem lineLacks_add_le {s t line rest : Bytes} (hs : splitLine s = none)
    (h : splitLine (s ++ t) = some (line, rest)) (hlen : bulkLen line ≤ rest.length) :
    lineLacks s + (rest.length - bulkLen line) ≤ t.length := by
  have hcrlf : crlf.length = 2 := rfl
  obtain ⟨e, rfl, rfl⟩ | ⟨rfl, rfl⟩ := splitLine_of_open hs h
  · have hle := lineLacks_le s
    have hgrows := bulkLen_le_append s e
    rw [List.length_append, List.length_append]
    omega
  · rw [lineLacks, if_pos (by simp), List.dropLast_concat, List.length_cons]
    omega

/-- Behind half a line end comes the other half, or nothing is wanted any more. -/
theorem Completes.lacks_of_half {n : Nat} {t : Bytes}
    (hnext : ∀ t, Completes n [] t → ∃ m, tokensLack n [] = some m ∧ m ≤ t.length) (ht : t ≠ [])
    (h : ∃ tokens m, takeTokens n (skipCrlf (cr :: t)) = some (tokens, m)) :
    ∃ m, (tokensLack n []).map (1 + ·) = some m ∧ m ≤ t.length := by
  obtain ⟨b, t, rfl⟩ := List.exists_cons_of_ne_nil ht
  by_cases hb : b = lf
  · subst hb
    obtain ⟨m, hm, hle⟩ := hnext t h
    refine ⟨1 + m, by rw [hm]; rfl, ?_⟩
    rw [List.length_cons]
    omega
  · cases n with
    | zero => exact ⟨1, rfl, by simp⟩
    | succ n =>
        obtain ⟨tokens, m, h⟩ := h
        have hskip : skipCrlf (cr :: b :: t) = cr :: b :: t := by simp [skipCrlf, hb]
        have hnone : takeToken (cr :: b :: t) = none := by
          rw [takeToken, if_pos (by decide)]
        rw [hskip, takeTokens, hnone] at h
        contradiction

/-- **Fewer bytes are not enough.** -/
theorem Completes.lacks {n : Nat} {s t : Bytes} (h : Completes n s t) :
    ∃ m, tokensLack n s = some m ∧ m ≤ t.length := by
  induction n generalizing s t with
  | zero => exact ⟨0, rfl, Nat.zero_le _⟩
  | succ n ih =>
      obtain ⟨tokens, m, h⟩ := h
      rw [takeTokens] at h
      cases ht : takeToken (s ++ t) with
      | none => simp [ht] at h
      | some r =>
          obtain ⟨token, k⟩ := r
          rw [ht] at h
          obtain ⟨⟨tokens', m'⟩, hs, -⟩ := Option.map_eq_some_iff.mp h
          obtain ⟨u, line, rest, hu, hl, hlen, -, hdrop⟩ := takeToken_cases ht
          rw [hdrop] at hs
          have hbehind := le_length_of_behind (by rw [List.length_drop]; omega) ⟨_, _, hs⟩
          rw [List.length_drop] at hbehind
          cases s with
          | nil =>
              have hsplit := congrArg List.length (splitLine_eq_some hl)
              have hcrlf : crlf.length = 2 := rfl
              refine ⟨_, rfl, ?_⟩
              rw [List.nil_append] at hu
              rw [List.length_append, List.length_append] at hsplit
              rw [hu, List.length_cons]
              omega
          | cons b s =>
              obtain ⟨rfl, rfl⟩ := List.cons.inj hu
              rw [tokensLack, if_neg (by simp)]
              cases hs' : splitLine s with
              | none =>
                  have hline := lineLacks_add_le hs' hl (by omega)
                  exact ⟨_, rfl, by omega⟩
              | some r =>
                  obtain ⟨line', rest'⟩ := r
                  have hl' := splitLine_append t hs'
                  obtain ⟨rfl, rfl⟩ := Prod.mk.inj (Option.some.inj (hl'.symm.trans hl))
                  rw [List.length_append] at hlen hbehind
                  dsimp only
                  split
                  · exact ⟨_, rfl, by omega⟩
                  · next hpay =>
                    rw [List.drop_append_of_le_length (by omega)] at hs
                    split
                    · next hcr =>
                      have hhalf := congrArg List.length hcr
                      rw [List.length_drop, List.length_singleton] at hhalf
                      rw [hcr] at hs
                      exact lacks_of_half (fun _ => ih) (List.ne_nil_of_length_pos (by omega))
                        ⟨_, _, hs⟩
                    · next hcr =>
                      have hne : rest'.drop (bulkLen line') ≠ [] := by simp; omega
                      rw [skipCrlf_append hne hcr] at hs
                      obtain ⟨m, hm, hle⟩ := ih ⟨_, _, hs⟩
                      exact ⟨_, by rw [hm]; rfl, max_le (by omega) hle⟩

/-! ## Resuming -/

/-- A round on a whole header within the limits. -/
theorem scanStep_of_header {s line rest : Bytes} (hl : splitLine s = some (line, rest))
    (hn : ¬ ((strtoll line).1 ≤ 0 ∨ (strtoll line).1 > 256)) :
    scanStep (star :: s) = (takeTokens (strtoll line).1.toNat rest).map fun r =>
      (some (toCommand r.1), 1 + line.length + 2 + r.2) := by
  simp only [scanStep, ne_eq, not_true_eq_false, if_false, hl, if_neg hn]
  cases takeTokens (strtoll line).1.toNat rest <;> rfl

/-- A round that emits its command. -/
theorem run_ne_nil {s : Bytes} {cmd : RespCommand} {n : Nat}
    (h : scanStep s = some (some cmd, n)) : (respScanner.run s).1 ≠ [] := by
  rw [respScanner.run_of_some h]
  simp

/-- The shortest frame. -/
theorem run_shortFrame : (respScanner.run (ascii "*1\r\n$\r\n" ++ [0, 0])).1 ≠ [] :=
  @run_ne_nil _ ⟨[], []⟩ 7 (by decide)

/-- In front of an open frame a command is a few bytes away. -/
theorem exists_run_ne_nil_of_open {s : Bytes} (h : splitLine s = none) :
    ∃ t, t.length < 1024 ∧ (respScanner.run (star :: s ++ t)).1 ≠ [] := by
  have hcrlf : crlf.length = 2 := rfl
  by_cases hn : (strtoll s).1 ≤ 0 ∨ (strtoll s).1 > 256
  · -- the header is refused, and another frame follows
    have hl := splitLine_append_crlf h (ascii "*1\r\n$\r\n" ++ [0, 0])
    have hround : respScanner.step (star :: s ++ (crlf ++ (ascii "*1\r\n$\r\n" ++ [0, 0]))) =
        some (none, 1 + s.length + 2) := by
      change scanStep (star :: (s ++ (crlf ++ (ascii "*1\r\n$\r\n" ++ [0, 0])))) = _
      simp only [scanStep, ne_eq, not_true_eq_false, if_false, hl, if_pos hn]
    have hdrop : (star :: s ++ (crlf ++ (ascii "*1\r\n$\r\n" ++ [0, 0]))).drop (1 + s.length + 2) =
        ascii "*1\r\n$\r\n" ++ [0, 0] := by
      rw [← List.append_assoc]
      exact List.drop_left' (by simp [crlf]; omega)
    refine ⟨crlf ++ (ascii "*1\r\n$\r\n" ++ [0, 0]), by decide, ?_⟩
    rw [respScanner.run_of_some hround, hdrop]
    exact run_shortFrame
  · have hshort := length_shortTokens (strtoll s).1.toNat
    obtain ⟨tokens, m, htokens⟩ := takeTokens_shortTokens (strtoll s).1.toNat
    refine ⟨crlf ++ shortTokens (strtoll s).1.toNat, ?_, ?_⟩
    · rw [List.length_append]
      omega
    · have hround := scanStep_of_header (splitLine_append_crlf h
        (shortTokens (strtoll s).1.toNat)) hn
      rw [htokens] at hround
      exact run_ne_nil hround

/-- **A command can follow where the scanner has stopped** exactly if what the frame in
front lacks fits. -/
theorem exists_run_ne_nil_iff {r : Bytes} (hstop : scanStep r = none) {limit : Nat}
    (hlimit : 1024 ≤ limit) :
    (∃ t, t.length < limit ∧ (respScanner.run (r ++ t)).1 ≠ []) ↔
      ∃ m, frameLacks r = some m ∧ m < limit := by
  cases r with
  | nil =>
      exact iff_of_true ⟨ascii "*1\r\n$\r\n" ++ [0, 0], by
        have hlen : (ascii "*1\r\n$\r\n" ++ [0, 0]).length = 9 := by decide
        omega, run_shortFrame⟩ ⟨0, rfl, by omega⟩
  | cons b s =>
      have hb : b = star := by
        by_contra hb
        simp [scanStep, hb] at hstop
      subst hb
      rw [frameLacks, if_neg (by simp)]
      cases hl : splitLine s with
      | none =>
          obtain ⟨t, hlen, ht⟩ := exists_run_ne_nil_of_open hl
          exact iff_of_true ⟨t, by omega, ht⟩ ⟨0, rfl, by omega⟩
      | some x =>
          obtain ⟨line, rest⟩ := x
          by_cases hn : (strtoll line).1 ≤ 0 ∨ (strtoll line).1 > 256
          · simp [scanStep, hl, hn] at hstop
          dsimp only
          rw [if_neg hn]
          have hround := fun t => scanStep_of_header (splitLine_append t hl) hn
          constructor
          · rintro ⟨t, hlen, ht⟩
            -- otherwise the scanner stops where it did
            have hcompletes : Completes (strtoll line).1.toNat rest t := by
              by_contra hnone
              have htokens : takeTokens (strtoll line).1.toNat (rest ++ t) = none :=
                Option.eq_none_iff_forall_ne_some.mpr fun x hx => hnone ⟨x.1, x.2, hx⟩
              have hwaits := hround t
              rw [htokens] at hwaits
              rw [respScanner.run_of_none (s := star :: s ++ t) hwaits] at ht
              exact ht rfl
            obtain ⟨m, hm, hle⟩ := hcompletes.lacks
            exact ⟨m, hm, by omega⟩
          · rintro ⟨m, hm, hlt⟩
            obtain ⟨t, rfl, tokens, m, ht⟩ := exists_completes hm
            have hread := hround t
            rw [ht] at hread
            exact ⟨t, hlt, run_ne_nil hread⟩

/-- The parser comes to a frame that bytes up to a length of `2 ^ 62` in all do not
complete: another byte stands where one of its elements must begin, or it lacks too much. -/
def Wedges (s : Bytes) : Prop :=
  ∃ r, respScanner.Reaches s r ∧ ¬ ∃ m, frameLacks r = some m ∧ s.length + m < 2 ^ 62

/-- Where the scanner goes on, nothing is lacking. -/
theorem frameLacks_of_scanStep {r : Bytes} {o : Option RespCommand} {n : Nat}
    (h : scanStep r = some (o, n)) : frameLacks r = some 0 := by
  cases r with
  | nil => rfl
  | cons b s =>
      rw [frameLacks]
      by_cases hb : b = star
      · subst hb
        rw [if_neg (by simp)]
        cases hl : splitLine s with
        | none => rfl
        | some x =>
            obtain ⟨line, rest⟩ := x
            dsimp only
            split
            · rfl
            · next hn =>
              rw [scanStep_of_header hl hn] at h
              obtain ⟨⟨tokens, m⟩, ht, -⟩ := Option.map_eq_some_iff.mp h
              have hnow : Completes (strtoll line).1.toNat rest [] :=
                ⟨tokens, m, by rwa [List.append_nil]⟩
              obtain ⟨m, hm, hle⟩ := hnow.lacks
              rwa [Nat.le_zero.mp hle] at hm
      · rw [if_pos hb]

/-- Only where the scanner stops can anything be lacking. -/
theorem wedges_iff {s : Bytes} (h : s.length < 2 ^ 62) :
    Wedges s ↔ ¬ ∃ m, frameLacks (respScanner.run s).2 = some m ∧ s.length + m < 2 ^ 62 := by
  constructor
  · rintro ⟨r, hr, hw⟩
    have hstop : scanStep r = none := by
      cases hstep : scanStep r with
      | none => rfl
      | some x => exact absurd ⟨0, frameLacks_of_scanStep hstep, h⟩ hw
    rwa [hr.eq_run hstop]
  · exact fun hw => ⟨_, respScanner.reaches_run s, hw⟩

theorem feedChunks_of_stopped {r : Bytes} (hstop : scanStep r = none) {more : List Bytes}
    (h : (r ++ more.flatten).length < 2 ^ 62) :
    ((RespCodec.mk r).feedChunks more).1 = (respScanner.run (r ++ more.flatten)).1 := by
  rw [feedChunks_eq_feedAll h, respScanner.feedAll_eq hstop]

/-- **When the parser can still return a command**: exactly if it has come to no
frame with a byte in the wrong place, and to none that lacks more than there is
room for. -/
theorem feedChunks_resumes_iff {chunks : List Bytes}
    (h : chunks.flatten.length + 1024 ≤ 2 ^ 62) :
    (∃ more, (chunks ++ more).flatten.length < 2 ^ 62 ∧
        ((RespCodec.feedChunks {} chunks).2.feedChunks more).1 ≠ []) ↔
      ¬ Wedges chunks.flatten := by
  have hlen : chunks.flatten.length < 2 ^ 62 := by omega
  have hkept : (RespCodec.feedChunks {} chunks).2 = ⟨(respScanner.run chunks.flatten).2⟩ := by
    rw [feed_chunks hlen, feed_new_eq_run hlen]
  have hstop : scanStep (respScanner.run chunks.flatten).2 = none := respScanner.step_trace_snd 0 _
  have hle := length_run_snd_le chunks.flatten
  have hroom : ∀ more : List Bytes, (chunks ++ more).flatten.length < 2 ^ 62 ↔
      more.flatten.length < 2 ^ 62 - chunks.flatten.length := by
    intro more
    rw [List.flatten_append, List.length_append]
    omega
  have hresumes := @exists_run_ne_nil_iff _ hstop (2 ^ 62 - chunks.flatten.length) (by omega)
  rw [wedges_iff hlen, not_not, hkept]
  calc (∃ more, (chunks ++ more).flatten.length < 2 ^ 62 ∧ _)
      ↔ ∃ t, t.length < 2 ^ 62 - chunks.flatten.length ∧
          (respScanner.run ((respScanner.run chunks.flatten).2 ++ t)).1 ≠ [] := by
        constructor
        · rintro ⟨more, hmore, hne⟩
          rw [hroom] at hmore
          rw [feedChunks_of_stopped hstop (by rw [List.length_append]; omega)] at hne
          exact ⟨more.flatten, hmore, hne⟩
        · rintro ⟨t, ht, hne⟩
          have hflat : [t].flatten = t := List.flatten_singleton
          refine ⟨[t], (hroom [t]).mpr (by rwa [hflat]), ?_⟩
          rw [feedChunks_of_stopped hstop (by rw [hflat, List.length_append]; omega), hflat]
          exact hne
    _ ↔ ∃ m, frameLacks (respScanner.run chunks.flatten).2 = some m ∧
          m < 2 ^ 62 - chunks.flatten.length := hresumes
    _ ↔ _ := exists_congr fun m => and_congr_right fun _ => by omega

/-- A `PING` that is cut inside its payload. -/
theorem feedChunks_resumes_iff_torn :
    (∃ more, ([ascii "*1\r\n$4\r\nPI"] ++ more).flatten.length < 2 ^ 62 ∧
        ((RespCodec.feedChunks {} [ascii "*1\r\n$4\r\nPI"]).2.feedChunks more).1 ≠ []) ↔
      ¬ Wedges [ascii "*1\r\n$4\r\nPI"].flatten :=
  @feedChunks_resumes_iff [ascii "*1\r\n$4\r\nPI"] (by decide)

/-- It lacks the other half of its payload and two bytes behind that; a payload that no buffer can
hold lacks all of it. -/
example : frameLacks (ascii "*1\r\n$4\r\nPI") = some 4 ∧
    frameLacks (ascii "*1\r\n$9223372036854775807\r\n") = some (2 ^ 63 + 1) ∧
    frameLacks (ascii "*1\r\n+PING\r\n") = none := by decide

/-- Where the `'$'` of an element should be, `Feed` finds a `'+'`, whatever follows. -/
theorem feed_simpleString (t chunk : Bytes) :
    (RespCodec.mk (ascii "*1\r\n+PING\r\n" ++ t)).feed chunk =
      ([], ⟨ascii "*1\r\n+PING\r\n" ++ (t ++ chunk)⟩) := by
  have hline : splitLine (ascii "1\r\n+PING\r\n" ++ (t ++ chunk)) =
      some (ascii "1", ascii "+PING\r\n" ++ (t ++ chunk)) := splitLine_append _ (by decide)
  have hbuf : ascii "*1\r\n+PING\r\n" ++ t ++ chunk =
      star :: (ascii "1\r\n+PING\r\n" ++ (t ++ chunk)) := by
    rw [List.append_assoc]
    rfl
  have hone : (strtoll (ascii "1")).1 = 1 := by decide
  have hlen : (ascii "1").length = 1 := rfl
  have hplus : (star :: (ascii "1\r\n+PING\r\n" ++ (t ++ chunk))).getD 4 0 = 43 := rfl
  have hnone : readTokens (star :: (ascii "1\r\n+PING\r\n" ++ (t ++ chunk))) 1 4 = none := by
    rw [readTokens, readToken, hplus, if_pos (.inr (by decide))]
  simp only [RespCodec.feed, hbuf]
  simp [feedLoop, readLine, hline, hone, hlen, hnone]
  rfl

/-- An element that is no bulk string: no request behind it is answered. -/
theorem feedChunks_simpleString :
    ¬ ∃ more, ((RespCodec.feedChunks {} [ascii "*1\r\n+PING\r\n"]).2.feedChunks more).1 ≠ [] := by
  rintro ⟨more, hmore⟩
  have hnever : ∀ (more : List Bytes) (t : Bytes),
      ((RespCodec.mk (ascii "*1\r\n+PING\r\n" ++ t)).feedChunks more).1 = [] := by
    intro more
    induction more with
    | nil => exact fun _ => rfl
    | cons chunk more ih =>
        intro t
        rw [RespCodec.feedChunks, feed_simpleString]
        exact ih (t ++ chunk)
  have hkept : (RespCodec.feedChunks {} [ascii "*1\r\n+PING\r\n"]).2 =
      ⟨ascii "*1\r\n+PING\r\n" ++ []⟩ := by decide
  rw [hkept] at hmore
  exact hmore (hnever more [])

end RedisLike
