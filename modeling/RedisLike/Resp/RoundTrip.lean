import RedisLike.Resp.Parser

/-!
# RedisLike.Resp.RoundTrip

`Feed` reads back what `AppendToAof`, and every client, writes: the roundtrips
of a bulk string, of a run of them, of a command, and of a stream of commands
(`feed_encode`).
-/

namespace RedisLike

/-- The bytes `AppendToAof` builds for a command: an array of bulk strings,
the name first. -/
def RespCommand.encode (cmd : RespCommand) : Bytes :=
  RespCodec.array ((cmd.name :: cmd.args).map RespCodec.bulkString)

/-- The encodings of a list of commands, one after another. -/
def encodeAll (cmds : List RespCommand) : Bytes := (cmds.map RespCommand.encode).flatten

/-! ## Lines and bulk strings -/

/-- A text without a line end in it is the line up to the one behind it. -/
theorem splitLine_of_not_infix {line : Bytes} (h : ¬ crlf <:+: line) (rest : Bytes) :
    splitLine (line ++ crlf ++ rest) = some (line, rest) := by
  induction line with
  | nil => simp [crlf, splitLine]
  | cons a line ih =>
      have ih := ih fun hin => h (hin.trans (List.suffix_cons a line).isInfix)
      -- at least the line end follows, so the first two bytes can be compared
      cases hl : line ++ crlf ++ rest with
      | nil => simp [crlf] at hl
      | cons b s =>
          have hne : ¬ (a = cr ∧ b = lf) := by
            rintro ⟨rfl, rfl⟩
            cases line with
            | nil => simp [crlf, cr, lf] at hl
            | cons c line =>
                have hc : c = lf := by simpa using congrArg List.head? hl
                exact h ⟨[], line, by simp [crlf, hc]⟩
          rw [hl] at ih
          rw [List.cons_append, List.cons_append, hl, splitLine, if_neg hne, ih]
          rfl

/-- A line without `'\r'` ends at the `"\r\n"` behind it. -/
theorem splitLine_of_notMem {line : Bytes} (h : cr ∉ line) (rest : Bytes) :
    splitLine (line ++ crlf ++ rest) = some (line, rest) :=
  splitLine_of_not_infix (fun hin => h (hin.subset (by simp [crlf]))) rest

theorem isSome_splitLine_append_crlf (q : Bytes) : (splitLine (q ++ crlf)).isSome := by
  induction q with
  | nil => simp [crlf, splitLine]
  | cons a q ih =>
      cases hl : q ++ crlf with
      | nil => simp [crlf] at hl
      | cons b s =>
          rw [hl] at ih
          rw [List.cons_append, hl, splitLine]
          split
          · rfl
          · simpa using ih

theorem cr_notMem_toDecimal (n : Nat) : cr ∉ toDecimal n := by
  intro h
  exact (ne_of_isDigit (isDigit_of_mem_toDecimal h)).2.2.2.2 rfl

theorem splitLine_toDecimal (n : Nat) (rest : Bytes) :
    splitLine (toDecimal n ++ crlf ++ rest) = some (toDecimal n, rest) :=
  splitLine_of_notMem (cr_notMem_toDecimal n) rest

theorem bulkString_eq (s : Bytes) : RespCodec.bulkString s =
    dollar :: (toDecimal s.length ++ crlf ++ (s ++ crlf)) := by
  have hd : ascii "$" = [dollar] := by decide
  simp [RespCodec.bulkString, hd]

theorem length_bulkString (s : Bytes) :
    (RespCodec.bulkString s).length = 1 + (toDecimal s.length).length + 2 + s.length + 2 := by
  rw [bulkString_eq]
  simp [crlf]
  omega

/-- **Roundtrip of a bulk string**, whatever its bytes. -/
theorem takeToken_bulkString {s : Bytes} (h : s.length < 2 ^ 63) (t : Bytes) :
    takeToken (RespCodec.bulkString s ++ t) = some (s, (RespCodec.bulkString s).length) := by
  have hline := splitLine_toDecimal s.length (s ++ crlf ++ t)
  rw [length_bulkString, bulkString_eq, List.cons_append, takeToken, if_neg (by simp)]
  have hassoc : toDecimal s.length ++ crlf ++ (s ++ crlf) ++ t =
      toDecimal s.length ++ crlf ++ (s ++ crlf ++ t) := by simp
  rw [hassoc, hline]
  simp only [strtoll_toDecimal h]
  have hk : (max 0 (s.length : Int)).toNat = s.length := by omega
  have hget : ∀ j, (s ++ crlf ++ t).getD (s.length + j) 0 = (crlf ++ t).getD j 0 := by
    intro j
    rw [List.append_assoc, List.getD_append_right _ _ _ _ (by omega)]
    simp
  have h0 : (s ++ crlf ++ t).getD s.length 0 = cr := hget 0
  have h1 : (s ++ crlf ++ t).getD (s.length + 1) 0 = lf := hget 1
  have hfit : ¬ s.length + 2 > (s ++ crlf ++ t).length := by simp [crlf]
  have htake : (s ++ crlf ++ t).take s.length = s := by simp
  rw [hk, if_neg hfit, if_pos ⟨h0, h1⟩, htake]

/-- Roundtrip of a run of bulk strings. -/
theorem takeTokens_bulkStrings {l : List Bytes} (h : ∀ s ∈ l, s.length < 2 ^ 63) (t : Bytes) :
    takeTokens l.length ((l.map RespCodec.bulkString).flatten ++ t) =
      some (l, (l.map RespCodec.bulkString).flatten.length) := by
  induction l with
  | nil => rfl
  | cons s l ih =>
      rw [List.map_cons, List.flatten_cons, List.append_assoc, List.length_cons, takeTokens,
        takeToken_bulkString (h s (by simp))]
      simp only [List.drop_left, ih fun s' hs' => h s' (List.mem_cons_of_mem s hs'),
        Option.map_some, List.length_append]

/-! ## Commands -/

/-- The elements of a command, behind its header. -/
def RespCommand.body (cmd : RespCommand) : Bytes :=
  ((cmd.name :: cmd.args).map RespCodec.bulkString).flatten

theorem encode_eq (cmd : RespCommand) : cmd.encode =
    star :: (toDecimal (cmd.args.length + 1) ++ crlf ++ cmd.body) := by
  have hd : ascii "*" = [star] := by decide
  simp [RespCommand.encode, RespCodec.array, RespCommand.body, hd]

/-- The length of `"*<n>\r\n"`. -/
def RespCommand.headerLength (cmd : RespCommand) : Nat :=
  1 + (toDecimal (cmd.args.length + 1)).length + 2

theorem length_encode (cmd : RespCommand) :
    cmd.encode.length = cmd.headerLength + cmd.body.length := by
  rw [encode_eq, RespCommand.headerLength]
  simp [crlf]
  omega

theorem drop_headerLength (cmd : RespCommand) (t : Bytes) :
    (cmd.encode ++ t).drop cmd.headerLength = cmd.body ++ t := by
  have h : cmd.encode ++ t =
      (star :: (toDecimal (cmd.args.length + 1) ++ crlf)) ++ (cmd.body ++ t) := by
    rw [encode_eq]; simp
  have hlen : (star :: (toDecimal (cmd.args.length + 1) ++ crlf)).length = cmd.headerLength := by
    simp [RespCommand.headerLength, crlf]; omega
  rw [h, ← hlen, List.drop_left]

/-- The elements of a run of bulk strings are no longer than the run. -/
theorem length_le_body {l : List Bytes} :
    l.length ≤ (l.map RespCodec.bulkString).flatten.length ∧
      ∀ s ∈ l, s.length ≤ (l.map RespCodec.bulkString).flatten.length := by
  induction l with
  | nil => simp
  | cons s l ih =>
      have hs := length_bulkString s
      simp only [List.map_cons, List.flatten_cons, List.length_append, List.length_cons,
        List.mem_cons, forall_eq_or_imp]
      exact ⟨by omega, by omega, fun s' hs' => by have := ih.2 s' hs'; omega⟩

/-- What a round of `Feed` reads from a header. -/
theorem scanStep_encode (cmd : RespCommand) (h : cmd.encode.length < 2 ^ 63) (t : Bytes) :
    scanStep (cmd.encode ++ t) =
      if cmd.args.length + 1 ≤ 256 then some (some cmd, cmd.encode.length)
      else some (none, cmd.headerLength) := by
  have hlen := length_encode cmd
  obtain ⟨hcount, hsize⟩ := length_le_body (l := cmd.name :: cmd.args)
  have hbody : cmd.body = ((cmd.name :: cmd.args).map RespCodec.bulkString).flatten := rfl
  rw [List.length_cons, ← hbody] at hcount
  have hline := splitLine_toDecimal (cmd.args.length + 1) (cmd.body ++ t)
  rw [encode_eq, List.cons_append, scanStep, if_neg (by simp), List.append_assoc, hline]
  simp only [strtoll_toDecimal (n := cmd.args.length + 1) (by omega)]
  by_cases hn : cmd.args.length + 1 ≤ 256
  · have htokens := takeTokens_bulkStrings (l := cmd.name :: cmd.args)
      (fun s hs => by have := hsize s hs; rw [← hbody] at this; omega) t
    rw [List.length_cons] at htokens
    rw [if_neg (by omega), if_pos hn, Int.toNat_natCast, hbody, htokens]
    simp only [toCommand, List.headD_cons, List.tail_cons]
    rw [← hbody, ← encode_eq, hlen, RespCommand.headerLength]
  · rw [if_pos (by omega), if_neg hn, RespCommand.headerLength]

theorem encodeAll_cons (cmd : RespCommand) (cmds : List RespCommand) :
    encodeAll (cmd :: cmds) = cmd.encode ++ encodeAll cmds := by
  rw [encodeAll, List.map_cons, List.flatten_cons, encodeAll]

theorem run_encodeAll {cmds : List RespCommand} (hargs : ∀ cmd ∈ cmds, cmd.args.length ≤ 255)
    (h : (encodeAll cmds).length < 2 ^ 63) : respScanner.run (encodeAll cmds) = (cmds, []) := by
  induction cmds with
  | nil => exact respScanner.run_of_none rfl
  | cons cmd cmds ih =>
      rw [encodeAll_cons, List.length_append] at h
      have hcmd : cmd.args.length + 1 ≤ 256 := by have := hargs cmd (by simp); omega
      have hstep : respScanner.step (cmd.encode ++ encodeAll cmds) =
          some (some cmd, cmd.encode.length) := by
        have := scanStep_encode cmd (by omega) (encodeAll cmds)
        rwa [if_pos hcmd] at this
      rw [encodeAll_cons, respScanner.run_of_some hstep, List.drop_left,
        ih (fun c hc => hargs c (List.mem_cons_of_mem cmd hc)) (by omega)]
      rfl

/-- `Feed` can return every command of at most 256 elements. -/
theorem RespCommand.decoded {cmd : RespCommand} (hargs : cmd.args.length ≤ 255)
    (hlen : cmd.encode.length < 2 ^ 62) : cmd.Decoded := by
  have hall : (encodeAll [cmd]).length = cmd.encode.length := by
    rw [encodeAll_cons, List.length_append]
    rfl
  refine ⟨{}, encodeAll [cmd], ?_⟩
  rw [feed_new_eq_run (by omega), run_encodeAll (fun c hc => by rwa [List.mem_singleton.mp hc])
    (by omega)]
  exact List.mem_singleton_self cmd

/-- **Decode undoes encode** for command streams: `Feed` returns the commands
in order and leaves nothing in `read_buf_`. -/
theorem feed_encode {cmds : List RespCommand} (hargs : ∀ cmd ∈ cmds, cmd.args.length ≤ 255)
    (h : (encodeAll cmds).length < 2 ^ 62) : RespCodec.feed {} (encodeAll cmds) = (cmds, {}) := by
  rw [feed_new_eq_run h, run_encodeAll hargs (by omega)]

/-- Two commands, one with every delimiter in its argument. -/
theorem feed_encode_delimiters :
    RespCodec.feed {} (encodeAll [⟨ascii "PING", []⟩, ⟨ascii "ECHO", [ascii "*1\r\n$0\r\n", []]⟩]) =
      ([⟨ascii "PING", []⟩, ⟨ascii "ECHO", [ascii "*1\r\n$0\r\n", []]⟩], {}) :=
  feed_encode (by decide) (by decide)

end RedisLike
