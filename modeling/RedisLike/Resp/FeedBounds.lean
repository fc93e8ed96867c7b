import RedisLike.Lib.Loop
import RedisLike.Numeral
import RedisLike.Resp.Parser

/-!
# RedisLike.Resp.FeedBounds

`Feed` on machine words, with every access to the buffer checked.

Positions are `size_t` values and lengths `int64_t` values here, with the
conversions of the source.  A byte or a range that is not inside the buffer
leaves no result, and neither does `erase` behind its end, nor a loop that does
not come to its end within its bound.  On buffers below `2 ^ 62` bytes
`checkedFeed_eq` finds the result of `feed`.
-/

namespace RedisLike

/-! ## Accesses -/

/-- `read_buf_.size()`. -/
def bufSize (buf : Bytes) : UInt64 := UInt64.ofNat buf.length

/-- `read_buf_[pos]`. -/
def byteAt (buf : Bytes) (pos : UInt64) : Option UInt8 := buf[pos.toNat]?

/-- The `n` bytes from `pos` on. -/
def bytesAt (buf : Bytes) (pos n : UInt64) : Option Bytes :=
  if pos.toNat + n.toNat ≤ buf.length then some ((buf.drop pos.toNat).take n.toNat) else none

/-- `buf.find("\r\n", pos)`. -/
def findCrlf (buf : Bytes) (pos : UInt64) : Option UInt64 :=
  (splitLine (buf.drop pos.toNat)).map fun (line, _) => UInt64.ofNat (pos.toNat + line.length)

/-- `ReadLine`; the inner `none` is `return false`. -/
def checkedReadLine (buf : Bytes) (pos : UInt64) : Option (Option (Bytes × UInt64)) :=
  match findCrlf buf pos with
  | none => some none
  | some rn => do
    let out ← bytesAt buf pos (rn - pos)
    some (some (out, rn + 2))

/-- `std::strtoll(line.c_str(), nullptr, 10)`. -/
def lineNumber (line : Bytes) : Int64 := Int64.ofInt (strtoll line).1

/-! ## The loops -/

/-- The token is the name if `i` is 0, and the next argument otherwise. -/
def RespCommand.addToken (cmd : RespCommand) (i : Nat) (token : Bytes) : RespCommand :=
  if i = 0 then { cmd with name := token } else { cmd with args := cmd.args ++ [token] }

/-- The variables of the element loop. -/
structure TokenState where
  i : Nat
  pos : UInt64
  cmd : RespCommand

/-- A round of the element loop.  It leaves with `none` for `ok = false`. -/
def tokenRound (buf : Bytes) (arrayLen : Int64) (s : TokenState) :
    Option (Turn TokenState (Option TokenState)) :=
  if (s.i : Int) < arrayLen.toInt then do
    if ← orAlso (s.pos ≥ bufSize buf) ((byteAt buf s.pos).map (· ≠ dollar)) then
      some (.done none)
    else
      match ← checkedReadLine buf (s.pos + 1) with
      | none => some (.done none)
      | some (line, pos) =>
        let bulkLen := if lineNumber line < 0 then 0 else lineNumber line
        if pos + bulkLen.toUInt64 + 2 > bufSize buf then some (.done none)
        else
          let token ← bytesAt buf pos bulkLen.toUInt64
          let pos := pos + bulkLen.toUInt64
          let lineEnd ← andAlso (pos + 1 < bufSize buf) do
            let b ← byteAt buf pos
            andAlso (b = cr) ((byteAt buf (pos + 1)).map (· = lf))
          let pos := if lineEnd then pos + 2 else pos
          some (.next ⟨s.i + 1, pos, s.cmd.addToken s.i token⟩)
  else some (.done (some s))

/-- The variables of the main loop. -/
structure FeedState where
  pos : UInt64
  results : List RespCommand

/-- A round of the main loop; where it leaves, `pos` is the checkpoint. -/
def feedRound (buf : Bytes) (s : FeedState) : Option (Turn FeedState FeedState) :=
  if s.pos < bufSize buf then do
    let b ← byteAt buf s.pos
    if b ≠ star then some (.next { s with pos := s.pos + 1 })
    else
      match ← checkedReadLine buf (s.pos + 1) with
      | none => some (.done s)
      | some (line, pos) =>
        let arrayLen := lineNumber line
        if arrayLen ≤ 0 ∨ arrayLen > 256 then some (.next { s with pos := pos })
        else
          match ← runLoop (tokenRound buf arrayLen) 257 ⟨0, pos, ⟨[], []⟩⟩ with
          | none => some (.done s)
          | some t => some (.next ⟨t.pos, s.results ++ [t.cmd]⟩)
  else some (.done s)

/-- `RespCodec::Feed`, with at most `n` rounds of the main loop. -/
def checkedFeed (n : Nat) (codec : RespCodec) (data : Bytes) :
    Option (List RespCommand × RespCodec) := do
  let buf := codec.readBuf ++ data
  let s ← runLoop (feedRound buf) n ⟨0, []⟩
  if s.pos.toNat ≤ buf.length then some (s.results, ⟨buf.drop s.pos.toNat⟩) else none

/-! ## Words -/

section words

variable {buf : Bytes} {p : Nat}

theorem lt_size {n : Nat} (h : n < 2 ^ 64) : n < UInt64.size := h

theorem ofNat_add_one (p : Nat) : UInt64.ofNat p + 1 = UInt64.ofNat (p + 1) :=
  (UInt64.ofNat_add p 1).symm

theorem ofNat_add_two (p : Nat) : UInt64.ofNat p + 2 = UInt64.ofNat (p + 2) :=
  (UInt64.ofNat_add p 2).symm

theorem toInt_lineNumber (line : Bytes) : (lineNumber line).toInt = (strtoll line).1 := by
  have hlt := strtoll_lt line
  have hle : -2 ^ 63 ≤ (strtoll line).1 := by
    simp only [strtoll]
    split
    · exact (by decide)
    · exact (saturate_bounds _).1
  exact Int64.toInt_ofInt_of_le hle hlt

/-- A length that is not negative is the same number as a `size_t`. -/
theorem toUInt64_lineNumber (line : Bytes) :
    (if lineNumber line < 0 then 0 else lineNumber line).toUInt64 =
      UInt64.ofNat (bulkLen line) := by
  have hneg : lineNumber line < 0 ↔ (strtoll line).1 < 0 := by
    rw [Int64.lt_iff_toInt_lt, toInt_lineNumber]
    rfl
  by_cases h : (strtoll line).1 < 0
  · rw [if_pos (hneg.mpr h), bulkLen, max_eq_left h.le]
    rfl
  · obtain ⟨n, hn⟩ := Int.eq_ofNat_of_zero_le (not_lt.mp h)
    rw [if_neg (mt hneg.mp h), bulkLen, lineNumber, hn, max_eq_right (Int.natCast_nonneg n),
      Int64.ofInt_eq_ofNat]
    rfl

/-- A line ends inside the buffer. -/
theorem readLine_le {line : Bytes} {next : Nat} (h : readLine buf p = some (line, next)) :
    p + 2 ≤ next ∧ next ≤ buf.length := by
  obtain ⟨⟨line', rest⟩, hl, he⟩ := Option.map_eq_some_iff.mp h
  obtain ⟨rfl, rfl⟩ := Prod.mk.inj he
  obtain ⟨hle, -⟩ := drop_line rfl hl
  exact ⟨by omega, hle⟩

variable (hbuf : buf.length < 2 ^ 62)
include hbuf

theorem toNat_ofNat_pos (hp : p ≤ buf.length + 2) : (UInt64.ofNat p).toNat = p :=
  UInt64.toNat_ofNat_of_lt' (lt_size (by omega))

theorem byteAt_ofNat (hp : p < buf.length) : byteAt buf (UInt64.ofNat p) = some (buf.getD p 0) := by
  rw [byteAt, toNat_ofNat_pos hbuf (by omega), List.getD_eq_getElem _ _ hp,
    List.getElem?_eq_getElem hp]

theorem lt_bufSize (hp : p < 2 ^ 64) : UInt64.ofNat p < bufSize buf ↔ p < buf.length :=
  UInt64.ofNat_lt_iff_lt (lt_size hp) (lt_size (by omega))

theorem bytesAt_ofNat {n : Nat} (h : p + n ≤ buf.length) :
    bytesAt buf (UInt64.ofNat p) (UInt64.ofNat n) = some ((buf.drop p).take n) := by
  rw [bytesAt, toNat_ofNat_pos hbuf (by omega), toNat_ofNat_pos hbuf (by omega), if_pos h]

/-- `ReadLine` reads inside the buffer. -/
theorem checkedReadLine_eq (hp : p ≤ buf.length) :
    checkedReadLine buf (UInt64.ofNat p) =
      some ((readLine buf p).map fun r => (r.1, UInt64.ofNat r.2)) := by
  rw [checkedReadLine, findCrlf, readLine, toNat_ofNat_pos hbuf (by omega)]
  cases hl : splitLine (buf.drop p) with
  | none => rfl
  | some r =>
      obtain ⟨line, rest⟩ := r
      obtain ⟨hle, -⟩ := drop_line rfl hl
      have hsub : UInt64.ofNat (p + line.length) - UInt64.ofNat p = UInt64.ofNat line.length := by
        rw [← UInt64.ofNat_sub (Nat.le_add_right p _), Nat.add_sub_cancel_left]
      have hline : (buf.drop p).take line.length = line := by
        rw [splitLine_eq_some hl, List.append_assoc, List.take_left]
      simp only [Option.map_some, hsub,
        bytesAt_ofNat hbuf (show p + line.length ≤ buf.length by omega),
        hline, ofNat_add_two]
      rfl

/-! ## Elements -/

/-- `pos >= read_buf_.size() || read_buf_[pos] != '$'`. -/
theorem noDollar_eq (hp : p ≤ buf.length) :
    orAlso (UInt64.ofNat p ≥ bufSize buf) ((byteAt buf (UInt64.ofNat p)).map (· ≠ dollar)) =
      some (decide (p ≥ buf.length ∨ buf.getD p 0 ≠ dollar)) := by
  have hge : UInt64.ofNat p ≥ bufSize buf ↔ p ≥ buf.length := by
    rw [ge_iff_le, ← UInt64.not_lt, lt_bufSize hbuf (by omega), not_lt]
  by_cases hend : p ≥ buf.length
  · rw [decide_eq_true (hge.mpr hend), decide_eq_true (.inl hend)]
    rfl
  · rw [decide_eq_false (mt hge.mp hend), byteAt_ofNat hbuf (by omega), Option.map_some,
      orAlso_some,
      Bool.false_or]
    simp [hend]

/-- `pos + 1 < read_buf_.size() && read_buf_[pos] == '\r' && read_buf_[pos + 1] == '\n'`. -/
theorem lineEnd_eq (hp : p ≤ buf.length) :
    (andAlso (UInt64.ofNat p + 1 < bufSize buf) ((byteAt buf (UInt64.ofNat p)).bind fun b =>
      andAlso (b = cr) ((byteAt buf (UInt64.ofNat p + 1)).map (· = lf)))) =
      some (decide (p + 1 < buf.length ∧ buf.getD p 0 = cr ∧ buf.getD (p + 1) 0 = lf)) := by
  have hlt : UInt64.ofNat p + 1 < bufSize buf ↔ p + 1 < buf.length := by
    rw [ofNat_add_one, lt_bufSize hbuf (by omega)]
  rw [Bool.decide_and, ← Bool.decide_congr hlt]
  refine andAlso_of _ fun h => ?_
  have hp' : p + 1 < buf.length := hlt.mp (of_decide_eq_true h)
  rw [ofNat_add_one, byteAt_ofNat hbuf (by omega), byteAt_ofNat hbuf hp', Bool.decide_and]
  exact andAlso_some _ _

/-- What a round of the element loop does, with all of its accesses in range. -/
theorem tokenRound_eq {arrayLen : Int64} {i : Nat} {cmd : RespCommand}
    (hi : (i : Int) < arrayLen.toInt)
    (hp : p ≤ buf.length) :
    tokenRound buf arrayLen ⟨i, UInt64.ofNat p, cmd⟩ =
      some ((readToken buf p).elim (.done none) fun r =>
        .next ⟨i + 1, UInt64.ofNat r.2, cmd.addToken i r.1⟩) := by
  rw [tokenRound, if_pos hi, readToken]
  simp only [noDollar_eq hbuf hp, Option.bind_eq_bind, Option.bind_some, decide_eq_true_eq]
  by_cases hdollar : p ≥ buf.length ∨ buf.getD p 0 ≠ dollar
  · rw [if_pos hdollar, if_pos hdollar]
    rfl
  rw [if_neg hdollar, if_neg hdollar, ofNat_add_one, checkedReadLine_eq hbuf (by omega)]
  cases hline : readLine buf (p + 1) with
  | none => rfl
  | some r =>
      obtain ⟨line, next⟩ := r
      obtain ⟨-, hnext⟩ := readLine_le hline
      have hbulk := bulkLen_lt line
      have hmod : (next + bulkLen line + 2) % 2 ^ 64 = next + bulkLen line + 2 :=
        Nat.mod_eq_of_lt (by omega)
      have hfit : UInt64.ofNat next + UInt64.ofNat (bulkLen line) + 2 > bufSize buf ↔
          next + bulkLen line + 2 > buf.length := by
        rw [← UInt64.ofNat_add, ofNat_add_two]
        exact UInt64.ofNat_lt_iff_lt (lt_size (by omega)) (lt_size (by omega))
      have hlen : (max 0 (strtoll line).1).toNat = bulkLen line := rfl
      simp only [Option.map_some, Option.bind_some, toUInt64_lineNumber, hfit, hlen, hmod]
      by_cases hshort : next + bulkLen line + 2 > buf.length
      · rw [if_pos hshort, if_pos hshort]
        rfl
      rw [if_neg hshort, if_neg hshort, bytesAt_ofNat hbuf (by omega), ← UInt64.ofNat_add]
      simp only [Option.bind_some]
      rw [lineEnd_eq hbuf (by omega), Option.bind_some]
      simp only [decide_eq_true_eq]
      split_ifs
      · rw [ofNat_add_two]
        rfl
      · rfl

/-- Tokens added one after another, the first at `i`. -/
def RespCommand.addTokens : RespCommand → Nat → List Bytes → RespCommand
  | cmd, _, [] => cmd
  | cmd, i, token :: tokens => (cmd.addToken i token).addTokens (i + 1) tokens

omit hbuf in
theorem addTokens_succ (cmd : RespCommand) (i : Nat) (tokens : List Bytes) :
    cmd.addTokens (i + 1) tokens = { cmd with args := cmd.args ++ tokens } := by
  induction tokens generalizing cmd i with
  | nil => simp [RespCommand.addTokens]
  | cons token tokens ih => simp [RespCommand.addTokens, RespCommand.addToken, ih]

omit hbuf in
theorem addTokens_zero (tokens : List Bytes) :
    RespCommand.addTokens ⟨[], []⟩ 0 tokens = toCommand tokens := by
  cases tokens with
  | nil => rfl
  | cons token tokens => rw [RespCommand.addTokens, addTokens_succ]; rfl

theorem readToken_le {token : Bytes} {next : Nat} (h : readToken buf p = some (token, next)) :
    next ≤ buf.length := by
  rw [readToken_eq hbuf] at h
  obtain ⟨⟨token', n⟩, ht, he⟩ := Option.map_eq_some_iff.mp h
  obtain ⟨rfl, rfl⟩ := Prod.mk.inj he
  have hle := takeToken_length ht
  rw [List.length_drop] at hle
  omega

/-- The element loop comes to its end, and reads inside the buffer. -/
theorem runLoop_tokenRound {arrayLen : Int64} {m i fuel : Nat} {cmd : RespCommand}
    (hlen : arrayLen.toInt = ((i + m : Nat) : Int)) (hp : p ≤ buf.length) (hfuel : m < fuel) :
    runLoop (tokenRound buf arrayLen) fuel ⟨i, UInt64.ofNat p, cmd⟩ =
      some ((readTokens buf m p).map fun r =>
        ⟨i + m, UInt64.ofNat r.2, cmd.addTokens i r.1⟩) := by
  obtain ⟨fuel, rfl⟩ : ∃ f, fuel = f + 1 := ⟨fuel - 1, by omega⟩
  induction m generalizing i p cmd fuel with
  | zero => rw [runLoop, tokenRound, if_neg (by rw [hlen]; simp)]; rfl
  | succ m ih =>
      rw [runLoop, tokenRound_eq hbuf (by omega) hp, readTokens]
      cases ht : readToken buf p with
      | none => rfl
      | some r =>
          obtain ⟨token, next⟩ := r
          obtain ⟨fuel, rfl⟩ : ∃ f, fuel = f + 1 := ⟨fuel - 1, by omega⟩
          simp only [Option.elim_some]
          rw [ih (by rw [hlen]; congr 1; omega) (readToken_le hbuf ht) fuel (by omega),
            Option.map_map,
            Nat.add_right_comm i 1 m]
          rfl

/-! ## The main loop -/

omit hbuf in
theorem invalidLen_iff (line : Bytes) : (lineNumber line ≤ 0 ∨ lineNumber line > 256) ↔
    ((strtoll line).1 ≤ 0 ∨ (strtoll line).1 > 256) := by
  rw [Int64.le_iff_toInt_le, gt_iff_lt, Int64.lt_iff_toInt_lt, toInt_lineNumber]
  rfl

/-- **Every round** reads inside the buffer, and does what the scanner does. -/
theorem feedRound_eq (hp : p ≤ buf.length) (results : List RespCommand) :
    feedRound buf ⟨UInt64.ofNat p, results⟩ =
      some ((scanStep (buf.drop p)).elim (.done ⟨UInt64.ofNat p, results⟩) fun r =>
        .next ⟨UInt64.ofNat (p + r.2), results ++ r.1.toList⟩) := by
  rw [feedRound]
  simp only [lt_bufSize hbuf (show p < 2 ^ 64 by omega)]
  cases hd : buf.drop p with
  | nil =>
      rw [if_neg (by simpa using hd)]
      rfl
  | cons b s =>
      obtain ⟨hlt, hb, htail⟩ := drop_eq_cons hd
      rw [if_pos hlt, byteAt_ofNat hbuf hlt, hb, scanStep]
      simp only [Option.bind_eq_bind, Option.bind_some]
      by_cases hstar : b = star
      · rw [if_neg (not_not_intro hstar), if_neg (not_not_intro hstar), ofNat_add_one,
          checkedReadLine_eq hbuf hlt, readLine, htail]
        cases hl : splitLine s with
        | none => rfl
        | some r =>
            obtain ⟨line, rest⟩ := r
            obtain ⟨hle, hrest⟩ := drop_line htail hl
            simp only [Option.map_some, Option.bind_some, invalidLen_iff]
            by_cases hinvalid : (strtoll line).1 ≤ 0 ∨ (strtoll line).1 > 256
            · rw [if_pos hinvalid, if_pos hinvalid]
              simp [Nat.add_assoc]
            obtain ⟨n, hn⟩ := Int.eq_ofNat_of_zero_le (show 0 ≤ (strtoll line).1 by omega)
            have hlen : (lineNumber line).toInt = ((0 + n : Nat) : Int) := by
              rw [toInt_lineNumber, hn, Nat.zero_add]
            rw [if_neg hinvalid, if_neg hinvalid, runLoop_tokenRound hbuf hlen hle (by omega),
              readTokens_eq hbuf, hrest, hn]
            cases ht : takeTokens n rest with
            | none => simp [ht]
            | some r =>
                have hnext : p + (1 + line.length + 2 + r.2) = p + 1 + line.length + 2 + r.2 := by
                  omega
                simp only [Int.toNat_natCast, ht, Option.map_some, Option.bind_some,
                  Option.elim_some,
                  addTokens_zero, hnext]
                rfl
      · rw [if_pos hstar, if_pos hstar, ofNat_add_one]
        simp

/-- The position is in the buffer, or at its end. -/
def FeedState.Inside (buf : Bytes) (s : FeedState) : Prop := s.pos.toNat ≤ buf.length

/-- What the main loop leaves: the commands and the rest of the scanner. -/
structure FeedState.Leaves (buf : Bytes) (s r : FeedState) : Prop where
  inside : r.Inside buf
  results : r.results = s.results ++ (respScanner.run (buf.drop s.pos.toNat)).1
  rest : buf.drop r.pos.toNat = (respScanner.run (buf.drop s.pos.toNat)).2

/-- A round moves on inside the buffer, or leaves. -/
theorem feedRoundOk {s : FeedState} (hs : s.Inside buf) :
    RoundOk (feedRound buf) (FeedState.Inside buf) (fun s => buf.length - s.pos.toNat)
      (FeedState.Leaves buf) s := by
  obtain ⟨pos, results⟩ := s
  obtain ⟨p, hp, rfl⟩ : ∃ p, p ≤ buf.length ∧ pos = UInt64.ofNat p :=
    ⟨pos.toNat, hs, UInt64.ofNat_toNat.symm⟩
  have hround := feedRound_eq hbuf hp results
  have hpos := toNat_ofNat_pos hbuf (show p ≤ buf.length + 2 by omega)
  cases hscan : scanStep (buf.drop p) with
  | none =>
      rw [hscan] at hround
      have hrun := respScanner.run_of_none hscan
      exact .done hround ⟨hs, by simp only [hpos, hrun, List.append_nil], by simp only [hpos, hrun]⟩
  | some r =>
      obtain ⟨o, n⟩ := r
      rw [hscan] at hround
      obtain ⟨hn, hle⟩ := respScanner.consumes hscan
      rw [List.length_drop] at hle
      have hpos' := toNat_ofNat_pos hbuf (show p + n ≤ buf.length + 2 by omega)
      have hrun := respScanner.run_of_some hscan
      rw [List.drop_drop] at hrun
      refine .next hround ?_ ?_ fun r hr => ⟨hr.inside, ?_, ?_⟩
      · show (UInt64.ofNat (p + n)).toNat ≤ buf.length
        omega
      · dsimp only
        omega
      · have h := hr.results
        simp only [hpos', hpos, hrun, List.append_assoc] at h ⊢
        exact h
      · have h := hr.rest
        simp only [hpos', hpos, hrun] at h ⊢
        exact h

end words

/-- **`Feed` stays within its buffer**: no round of the main loop goes wrong, each
moves on inside the buffer or leaves, no sequence of rounds is endless, and with
enough rounds the result is that of `feed`. -/
theorem checkedFeed_eq {codec : RespCodec} {data : Bytes}
    (h : (codec.readBuf ++ data).length < 2 ^ 62) :
    Safe (feedRound (codec.readBuf ++ data)) ⟨0, []⟩ ∧
    (∀ s s' : FeedState, s.Inside (codec.readBuf ++ data) →
      Goes (feedRound (codec.readBuf ++ data)) s s' →
      s.pos < s'.pos ∧ s'.Inside (codec.readBuf ++ data)) ∧
    ∀ n, checkedFeed ((codec.readBuf ++ data).length + 1 + n) codec data =
      some (codec.feed data) := by
  have hround := fun s : FeedState => @feedRoundOk _ h s
  have hstart : FeedState.Inside (codec.readBuf ++ data) ⟨0, []⟩ := Nat.zero_le _
  refine ⟨safe_of_roundOk hround hstart, fun s s' hs hgoes => ?_, fun n => ?_⟩
  · obtain ⟨hinside, hlt⟩ := (hround s hs).of_goes hgoes
    refine ⟨UInt64.lt_iff_toNat_lt.mpr ?_, hinside⟩
    omega
  · obtain ⟨r, hrun, hleaves⟩ := runLoop_spec hround hstart
      (show (codec.readBuf ++ data).length - 0 < (codec.readBuf ++ data).length + 1 + n by omega)
    have hresults := hleaves.results
    have hrest := hleaves.rest
    simp only [UInt64.toNat_zero, List.drop_zero, List.nil_append] at hresults hrest
    simp only [checkedFeed, hrun, Option.bind_eq_bind, Option.bind_some]
    have hinside : r.pos.toNat ≤ (codec.readBuf ++ data).length := hleaves.inside
    rw [if_pos hinside, hresults, hrest, feed_eq_run h]

/-- A length that saturates. -/
theorem checkedFeed_eq_saturated :
    Safe (feedRound (ascii "*1\r\n$99999999999999999999\r\nx")) ⟨0, []⟩ ∧
    (∀ s s' : FeedState, s.Inside (ascii "*1\r\n$99999999999999999999\r\nx") →
      Goes (feedRound (ascii "*1\r\n$99999999999999999999\r\nx")) s s' →
      s.pos < s'.pos ∧ s'.Inside (ascii "*1\r\n$99999999999999999999\r\nx")) ∧
    ∀ n, checkedFeed ((ascii "*1\r\n$99999999999999999999\r\nx").length + 1 + n) {}
        (ascii "*1\r\n$99999999999999999999\r\nx") =
      some (RespCodec.feed {} (ascii "*1\r\n$99999999999999999999\r\nx")) :=
  @checkedFeed_eq {} (ascii "*1\r\n$99999999999999999999\r\nx") (by decide)

end RedisLike
