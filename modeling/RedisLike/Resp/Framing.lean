import RedisLike.Resp.Refused

/-!
# RedisLike.Resp.Framing

Which commands are framed as they say.

`Feed` wants room for the line end behind a payload but does not look whether it
is there, and takes a negative length for 0.  `IsFrame` is a frame as the
protocol has it.  What `Feed` takes for a command is one exactly if none of its
elements is `loose` in one of the two ways: `wellFramed_iff`.
-/

namespace RedisLike

/-! ## Frames of the protocol -/

/-- `'$' Li CRLF token CRLF` for each line and token. -/
def bulkFrames (bulks : List (Bytes × Bytes)) : Bytes :=
  (bulks.map fun p => dollar :: (p.1 ++ crlf ++ p.2 ++ crlf)).flatten

/-- The line of each token says its length. -/
def BulkLengths (bulks : List (Bytes × Bytes)) : Prop :=
  ∀ p ∈ bulks, ¬ crlf <:+: p.1 ∧ (strtoll p.1).1 = p.2.length

/-- `'*' L CRLF` and the tokens of the command, with their true lengths. -/
def IsFrame (cmd : RespCommand) (stretch : Bytes) : Prop :=
  ∃ line bulks, stretch = star :: (line ++ crlf ++ bulkFrames bulks) ∧ ¬ crlf <:+: line ∧
    (strtoll line).1 = bulks.length ∧ BulkLengths bulks ∧ cmd = toCommand (bulks.map Prod.snd)

/-- Every command that `Feed` returns is a frame, from the `'*'` where it found it. -/
def WellFramed (s : Bytes) : Prop :=
  ∀ i cmd, (i, cmd) ∈ feedFrames s → ∃ n, IsFrame cmd ((s.drop i).take n)

theorem bulkFrames_cons (p : Bytes × Bytes) (bulks : List (Bytes × Bytes)) :
    bulkFrames (p :: bulks) = dollar :: (p.1 ++ crlf ++ (p.2 ++ crlf ++ bulkFrames bulks)) := by
  simp [bulkFrames]

/-- A line is cut at its first end. -/
theorem not_infix_of_splitLine {s line rest : Bytes} (h : splitLine s = some (line, rest)) :
    ¬ crlf <:+: line := by
  rintro ⟨a, b, hab⟩
  obtain ⟨⟨first, tail⟩, hfirst⟩ := Option.isSome_iff_exists.mp (isSome_splitLine_append_crlf a)
  have hall := splitLine_append (b ++ crlf ++ rest) hfirst
  have hs : a ++ crlf ++ (b ++ crlf ++ rest) = s := by
    rw [splitLine_eq_some h, ← hab]
    simp
  rw [hs, h] at hall
  obtain ⟨rfl, -⟩ := Prod.mk.inj (Option.some.inj hall)
  have hlen := congrArg List.length (splitLine_eq_some hfirst)
  have hlen' := congrArg List.length hab
  simp only [List.length_append] at hlen hlen'
  have hcrlf : 0 < crlf.length := by decide
  omega

/-! ## Loose elements -/

/-- One of the next `n` elements declares a negative length, or has no line end
behind its payload. -/
def looseTokens : Nat → Bytes → Bool
  | 0, _ => false
  | _ + 1, [] => false
  | n + 1, _ :: s =>
    match splitLine s with
    | none => false
    | some (line, rest) =>
      (strtoll line).1 < 0 || !crlf.isPrefixOf (rest.drop (bulkLen line)) ||
        looseTokens n (skipCrlf (rest.drop (bulkLen line)))

/-- The frame at the front of the buffer has such an element. -/
def loose : Bytes → Bool
  | [] => false
  | _ :: s =>
    match splitLine s with
    | none => false
    | some (line, rest) => looseTokens (strtoll line).1.toNat rest

/-- Elements that are not loose are as the protocol has them. -/
theorem bulkFrames_of_takeTokens {n m : Nat} {s : Bytes} {tokens : List Bytes}
    (h : takeTokens n s = some (tokens, m)) (hl : looseTokens n s = false) :
    ∃ bulks : List (Bytes × Bytes), s = bulkFrames bulks ++ s.drop m ∧ BulkLengths bulks ∧
      bulks.length = n ∧ tokens = bulks.map Prod.snd := by
  induction n generalizing s tokens m with
  | zero =>
      cases h
      exact ⟨[], rfl, by simp [BulkLengths], rfl, rfl⟩
  | succ n ih =>
      rw [takeTokens] at h
      cases ht : takeToken s with
      | none => simp [ht] at h
      | some r =>
          obtain ⟨token, k⟩ := r
          rw [ht] at h
          obtain ⟨⟨tokens', m'⟩, hs, he⟩ := Option.map_eq_some_iff.mp h
          obtain ⟨rfl, rfl⟩ := Prod.mk.inj he
          obtain ⟨u, line, rest, rfl, hline, hlen, rfl, hdrop⟩ := takeToken_cases ht
          simp only [looseTokens, hline, Bool.or_eq_false_iff, decide_eq_false_iff_not,
            Bool.not_eq_false', List.isPrefixOf_iff_prefix] at hl
          obtain ⟨⟨hpos, x, hx⟩, hrest⟩ := hl
          rw [hdrop] at hs
          have hskip : skipCrlf (rest.drop (bulkLen line)) = x := by rw [← hx]; rfl
          obtain ⟨bulks, hbulks, hlengths, hcount, htokens⟩ := ih hs hrest
          rw [hskip] at hbulks hdrop
          refine ⟨(line, rest.take (bulkLen line)) :: bulks, ?_, ?_, by simp [hcount], by simp [htokens]⟩
          · rw [← List.drop_drop, hdrop, bulkFrames_cons, List.cons_append, splitLine_eq_some hline]
            have hsplit : rest = rest.take (bulkLen line) ++ (crlf ++ x) := by
              rw [hx, List.take_append_drop]
            conv_lhs => rw [hsplit, hbulks]
            simp
          · have hlength : (rest.take (bulkLen line)).length = bulkLen line := by simp; omega
            have hvalue : (strtoll line).1 = bulkLen line := by
              unfold bulkLen
              omega
            intro p hp
            rcases List.mem_cons.mp hp with rfl | hp
            · exact ⟨not_infix_of_splitLine hline, by rw [hvalue, hlength]⟩
            · exact hlengths p hp

/-- Elements as the protocol has them are not loose. -/
theorem looseTokens_bulkFrames {bulks : List (Bytes × Bytes)} (h : BulkLengths bulks) (t : Bytes) :
    looseTokens bulks.length (bulkFrames bulks ++ t) = false := by
  induction bulks with
  | nil => rfl
  | cons p bulks ih =>
      obtain ⟨hline, hvalue⟩ := h p (by simp)
      have hsplit : splitLine (p.1 ++ crlf ++ (p.2 ++ crlf ++ bulkFrames bulks) ++ t) =
          some (p.1, p.2 ++ (crlf ++ (bulkFrames bulks ++ t))) := by
        have hs := splitLine_of_not_infix hline (p.2 ++ (crlf ++ (bulkFrames bulks ++ t)))
        simpa using hs
      have hbulk : bulkLen p.1 = p.2.length := by
        unfold bulkLen
        omega
      have hdrop : (p.2 ++ (crlf ++ (bulkFrames bulks ++ t))).drop p.2.length =
          crlf ++ (bulkFrames bulks ++ t) := List.drop_left
      have hskip : skipCrlf (crlf ++ (bulkFrames bulks ++ t)) = bulkFrames bulks ++ t := rfl
      have hrest := ih fun q hq => h q (List.mem_cons_of_mem p hq)
      rw [bulkFrames_cons, List.cons_append, List.length_cons, looseTokens]
      simp only [hsplit, hbulk, hdrop, hskip, hrest]
      have hleading : crlf.isPrefixOf (crlf ++ (bulkFrames bulks ++ t)) = true := by simp
      simp [hleading, hvalue]

/-! ## Frames that are read -/

/-- **A command is framed as the protocol has it exactly if it is not loose.** -/
theorem isFrame_iff {r : Bytes} {cmd : RespCommand} {n : Nat}
    (h : scanStep r = some (some cmd, n)) :
    (∃ n, IsFrame cmd (r.take n)) ↔ loose r = false := by
  cases r with
  | nil => simp [scanStep] at h
  | cons b s =>
      have hb : b = star := by
        by_contra hb
        simp [scanStep, hb] at h
      subst hb
      constructor
      · rintro ⟨k, line, bulks, hstretch, hline, hcount, hlengths, -⟩
        have hall : star :: s = star :: (line ++ crlf ++ (bulkFrames bulks ++ (star :: s).drop k)) := by
          conv_lhs => rw [← List.take_append_drop k (star :: s), hstretch]
          simp
        have hs := (List.cons.inj hall).2
        have hsplit := splitLine_of_not_infix hline (bulkFrames bulks ++ (star :: s).drop k)
        rw [← hs] at hsplit
        simp only [loose, hsplit, hcount, Int.toNat_natCast]
        exact looseTokens_bulkFrames hlengths _
      · intro hl
        rw [scanStep, if_neg (by simp)] at h
        cases hline : splitLine s with
        | none => simp [hline] at h
        | some x =>
            obtain ⟨line, rest⟩ := x
            simp only [hline] at h
            simp only [loose, hline] at hl
            split at h
            · simp at h
            · next hn =>
              cases ht : takeTokens (strtoll line).1.toNat rest with
              | none => simp [ht] at h
              | some x =>
                  obtain ⟨tokens, m⟩ := x
                  rw [ht] at h
                  obtain ⟨hcmd, -⟩ := Prod.mk.inj (Option.some.inj h)
                  obtain ⟨bulks, hbulks, hlengths, hcount, htokens⟩ := bulkFrames_of_takeTokens ht hl
                  refine ⟨(star :: (line ++ crlf ++ bulkFrames bulks)).length, line, bulks, ?_,
                    not_infix_of_splitLine hline, by omega, hlengths, ?_⟩
                  · have hall : star :: s =
                        star :: (line ++ crlf ++ bulkFrames bulks) ++ rest.drop m := by
                      rw [splitLine_eq_some hline]
                      conv_lhs => rw [hbulks]
                      simp
                    rw [hall, List.take_left]
                  · rw [← htokens]
                    exact (Option.some.inj hcmd).symm

/-- **When `Feed` emits only framed commands**: exactly if no frame that it takes
for a command is loose. -/
theorem wellFramed_iff {s : Bytes} (h : s.length < 2 ^ 62) :
    (RespCodec.feed {} s).1 = (feedFrames s).map Prod.snd ∧
      (WellFramed s ↔ ∀ r cmd n, respScanner.Reaches s r → scanStep r = some (some cmd, n) →
        loose r = false) := by
  refine ⟨feed_eq_feedFrames h, fun hframed r cmd n hr hstep => ?_, fun htight i cmd hmem => ?_⟩
  · have hmem := @Scanner.Reaches.mem_trace _ _ respScanner 0 n cmd s r hr hstep
    rw [Nat.zero_add] at hmem
    have hframe := hframed _ cmd hmem
    rw [← hr.eq_drop] at hframe
    exact (isFrame_iff hstep).mp hframe
  · obtain ⟨r, n, hr, hstep, hi⟩ := Scanner.reaches_of_mem_trace hmem
    have hdrop : s.drop i = r := by
      rw [hr.eq_drop]
      congr 1
      omega
    rw [hdrop]
    exact (isFrame_iff hstep).mpr (htight r cmd n hr hstep)

/-- A header that is skipped, and a `GET` behind it. -/
def skippedThenGet : Bytes := ascii "x*0\r\n*2\r\n$3\r\nGET\r\n$1\r\nk\r\n"

theorem wellFramed_iff_get :
    (RespCodec.feed {} skippedThenGet).1 = (feedFrames skippedThenGet).map Prod.snd ∧
      (WellFramed skippedThenGet ↔ ∀ r cmd n, respScanner.Reaches skippedThenGet r →
        scanStep r = some (some cmd, n) → loose r = false) :=
  @wellFramed_iff skippedThenGet (by decide)

/-- A payload of eight bytes that is declared with four: its half is executed. -/
theorem not_wellFramed_half :
    (RespCodec.feed {} (ascii "*2\r\n$3\r\nGET\r\n$4\r\nkey:1234\r\n")).1 =
        [⟨ascii "GET", [ascii "key:"]⟩] ∧
      ¬ WellFramed (ascii "*2\r\n$3\r\nGET\r\n$4\r\nkey:1234\r\n") := by
  have hstep : scanStep (ascii "*2\r\n$3\r\nGET\r\n$4\r\nkey:1234\r\n") =
      some (some ⟨ascii "GET", [ascii "key:"]⟩, 21) := by decide
  refine ⟨by decide, fun hframed => ?_⟩
  have hmem : (0, ⟨ascii "GET", [ascii "key:"]⟩) ∈
      feedFrames (ascii "*2\r\n$3\r\nGET\r\n$4\r\nkey:1234\r\n") := by decide
  have htight := (isFrame_iff hstep).mp (hframed 0 _ hmem)
  exact absurd htight (by decide)

end RedisLike
