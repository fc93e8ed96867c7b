import RedisLike.Resp.Refused
import RedisLike.Storage.Aof

/-!
# RedisLike.Storage.Torn

The log after a crash.

A crash during `Append` leaves a torn command at the end of the log, and `Open`
appends behind it.  Alone, the torn bytes are no command and do no harm
(`replayed_torn`).  But `Feed` reads what is appended as their missing part, so
later commands are only safe if nothing was torn (`replayed_torn_iff`).
-/

namespace RedisLike

/-! ## Numbers and lines that are cut short -/

theorem takeWhile_append_stop {α : Type} {p : α → Bool} {a : α} (h : p a = false)
    (x y : List α) : (x ++ a :: y).takeWhile p = x.takeWhile p := by
  induction x with
  | nil => simp [h]
  | cons b x ih =>
      rw [List.cons_append, List.takeWhile_cons, List.takeWhile_cons, ih]

theorem dropWhile_append_stop {α : Type} {p : α → Bool} {a : α} (h : p a = false)
    (x y : List α) : (x ++ a :: y).dropWhile p = x.dropWhile p ++ a :: y := by
  induction x with
  | nil => simp [h]
  | cons b x ih =>
      rw [List.cons_append, List.dropWhile_cons, List.dropWhile_cons, ih]
      split <;> rfl

/-- The digits behind the sign of a text with a `'*'` in it are in front of the `'*'`. -/
theorem splitSign_append_star (x : Bytes) :
    ∃ negative sign body, ∀ y, splitSign (x ++ star :: y) = (negative, sign, body ++ star :: y) := by
  cases x with
  | nil => exact ⟨false, 0, [], fun y => splitSign_of_ne (by decide) (by decide) y⟩
  | cons b x =>
      by_cases hm : b = 45
      · exact ⟨true, 1, x, fun y => by rw [hm]; rfl⟩
      · by_cases hp : b = 43
        · exact ⟨false, 1, x, fun y => by rw [hp]; rfl⟩
        · exact ⟨false, 0, b :: x, fun y => splitSign_of_ne hm hp _⟩

/-- What `strtoll` reads does not depend on what follows a `'*'`. -/
theorem strtoll_append_star (x y : Bytes) :
    strtoll (x ++ star :: y) = strtoll (x ++ [star]) := by
  by_cases hnul : (0 : UInt8) ∈ x
  · -- the text ends in front of the `'*'`
    have hcut : ∀ z, cStr (x ++ z) = cStr x := by
      intro z
      rw [cStr, cStr, List.takeWhile_append, if_neg]
      intro hall
      have htake : x.takeWhile (fun c => decide (c ≠ 0)) = x :=
        (List.takeWhile_prefix _).eq_of_length hall
      simpa using List.takeWhile_eq_self_iff.mp htake 0 hnul
    simp only [strtoll, hcut]
  · have hall : ∀ z, cStr (x ++ z) = x ++ cStr z := by
      intro z
      rw [cStr, List.takeWhile_append_of_pos]
      · rfl
      · intro c hc
        simpa using fun h : c = 0 => hnul (h ▸ hc)
    have hstar : ∀ z, cStr (star :: z) = star :: cStr z := fun _ => rfl
    have hspace : isSpace star = false := by decide
    have hdigit : isDigit star = false := by decide
    obtain ⟨negative, sign, body, hsign⟩ := splitSign_append_star (x.dropWhile isSpace)
    have hnil : cStr [] = [] := rfl
    simp only [strtoll, hall, hstar, hnil, takeWhile_append_stop hspace,
      dropWhile_append_stop hspace, hsign, takeWhile_append_stop hdigit]

/-- A line without an end goes on to the end of the next. -/
theorem splitLine_append_star {x : Bytes} (h : splitLine x = none) (y : Bytes) :
    splitLine (x ++ star :: y) =
      (splitLine y).map fun (line, rest) => (x ++ star :: line, rest) := by
  have hbase : splitLine (star :: y) =
      (splitLine y).map fun (line, rest) => (star :: line, rest) := by
    cases y with
    | nil => rfl
    | cons b y => rw [splitLine, if_neg (by simp [star, cr])]
  induction x using splitLine.induct with
  | case1 => exact hbase
  | case2 a =>
      rw [List.singleton_append, splitLine, if_neg (by simp [star, lf]), hbase, Option.map_map]
      rfl
  | case3 a b x hab => rw [splitLine, if_pos hab] at h; cases h
  | case4 a b x hab ih =>
      rw [splitLine, if_neg hab, Option.map_eq_none_iff] at h
      rw [List.cons_append, List.cons_append, splitLine, if_neg hab, ← List.cons_append, ih h,
        Option.map_map]
      rfl

/-! ## The torn command and the next one -/

/-- The number of elements that `Feed` reads from the header of a torn command,
`'*'` and `t`, when another command follows. -/
def announced (t : Bytes) : Int :=
  match splitLine t with
  | none => (strtoll (t ++ [star])).1
  | some (line, _) => (strtoll line).1

theorem splitLine_encode (cmd : RespCommand) (rest : Bytes) :
    splitLine (toDecimal (cmd.args.length + 1) ++ crlf ++ cmd.body ++ rest) =
      some (toDecimal (cmd.args.length + 1), cmd.body ++ rest) := by
  rw [List.append_assoc]
  exact splitLine_toDecimal _ _

/-- Torn inside the header: the header of the next command completes it, and
its elements are read from those of the next command. -/
theorem scanStep_headerTorn {t : Bytes} (h : splitLine t = none) (d : RespCommand) (rest : Bytes) :
    scanStep (star :: (t ++ (d.encode ++ rest))) =
      if announced t ≤ 0 ∨ announced t > 256 then some (none, 1 + t.length + d.headerLength)
      else (takeTokens (announced t).toNat (d.body ++ rest)).map fun (tokens, n) =>
        (some (toCommand tokens), 1 + t.length + d.headerLength + n) := by
  have hline : splitLine (t ++ (d.encode ++ rest)) =
      some (t ++ star :: toDecimal (d.args.length + 1), d.body ++ rest) := by
    rw [encode_eq, List.cons_append, splitLine_append_star h, splitLine_encode]
    rfl
  have hannounced : (strtoll (t ++ star :: toDecimal (d.args.length + 1))).1 = announced t := by
    rw [announced, h, strtoll_append_star]
  have hlen : 1 + (t ++ star :: toDecimal (d.args.length + 1)).length + 2 =
      1 + t.length + d.headerLength := by
    rw [List.length_append, List.length_cons, RespCommand.headerLength]
    omega
  rw [scanStep, if_neg (by simp), hline]
  dsimp only
  rw [hannounced, hlen]
  cases takeTokens (announced t).toNat (d.body ++ rest) <;> rfl

/-- Torn behind the header: its elements are the torn ones, and then what the
bytes of the next command make. -/
theorem scanStep_bodyTorn {c : RespCommand} {u : Bytes} (hargs : c.args.length ≤ 255)
    (rest : Bytes) :
    scanStep (star :: (toDecimal (c.args.length + 1) ++ crlf ++ u ++ rest)) =
      (takeTokens (c.args.length + 1) (u ++ rest)).map fun (tokens, n) =>
        (some (toCommand tokens), c.headerLength + n) := by
  have hline : splitLine (toDecimal (c.args.length + 1) ++ crlf ++ u ++ rest) =
      some (toDecimal (c.args.length + 1), u ++ rest) := by
    rw [List.append_assoc]
    exact splitLine_toDecimal _ _
  rw [scanStep, if_neg (by simp), hline]
  simp only [strtoll_toDecimal (n := c.args.length + 1) (by omega)]
  rw [if_neg (by omega), Int.toNat_natCast, RespCommand.headerLength]
  cases takeTokens (c.args.length + 1) (u ++ rest) <;> rfl

/-- Where a torn command can be cut. -/
theorem torn_cases {c : RespCommand} {t : Bytes} (ht : star :: t <+: c.encode) :
    splitLine t = none ∨ ∃ u, t = toDecimal (c.args.length + 1) ++ crlf ++ u ∧ u <+: c.body := by
  obtain ⟨z, hz⟩ := ht
  rw [encode_eq, List.cons_append, List.cons.injEq] at hz
  cases hline : splitLine t with
  | none => exact .inl rfl
  | some r =>
      obtain ⟨line, u⟩ := r
      have hall := splitLine_append z hline
      have hnil := splitLine_encode c []
      rw [List.append_nil, List.append_nil] at hnil
      rw [hz.2, hnil, Option.some.injEq, Prod.mk.injEq] at hall
      refine .inr ⟨u, ?_, z, hall.2.symm⟩
      rw [hall.1]
      exact splitLine_eq_some hline

/-! ## One command behind a torn one -/

theorem length_of_takeTokens {k n : Nat} {s : Bytes} {tokens : List Bytes}
    (h : takeTokens k s = some (tokens, n)) : tokens.length = k := by
  induction k generalizing s tokens n with
  | zero => simp [takeTokens] at h; simp [← h.1]
  | succ k ih =>
      rw [takeTokens] at h
      cases ht : takeToken s with
      | none => simp [ht] at h
      | some r =>
          rw [ht] at h
          obtain ⟨⟨tokens', n'⟩, hs, he⟩ := Option.map_eq_some_iff.mp h
          rw [Prod.mk.injEq] at he
          rw [← he.1, List.length_cons, ih hs]

/-- The number of elements of a command that is read. -/
theorem length_args_toCommand {tokens : List Bytes} {k : Nat} (h : tokens.length = k + 1) :
    (toCommand tokens).args.length = k := by
  rw [toCommand, List.length_tail, h]
  rfl

/-- An empty name read from a torn one: the length line went on into the next
command, over all of its header. -/
theorem le_of_takeToken_torn {u name more : Bytes} (hu : u <+: RespCodec.bulkString name ++ more)
    (hname : name ≠ []) (hlen : name.length < 2 ^ 63) {d : RespCommand} {n : Nat}
    (h : takeToken (u ++ d.encode) = some ([], n)) : u.length + d.headerLength ≤ n := by
  cases u with
  | nil =>
      rw [List.nil_append, encode_eq, takeToken, if_pos (by decide)] at h
      cases h
  | cons b u =>
      obtain ⟨z, hz⟩ := hu
      rw [bulkString_eq, List.cons_append, List.cons_append, List.cons.injEq] at hz
      obtain ⟨rfl, hz⟩ := hz
      rw [List.cons_append, takeToken, if_neg (by simp)] at h
      cases hline : splitLine u with
      | none =>
          have hstraddle : splitLine (u ++ d.encode) =
              some (u ++ star :: toDecimal (d.args.length + 1), d.body) := by
            have hnil := splitLine_encode d []
            rw [List.append_nil, List.append_nil] at hnil
            rw [encode_eq, splitLine_append_star hline, hnil]
            rfl
          rw [hstraddle] at h
          have hheader : (dollar :: u).length + d.headerLength =
              1 + (u ++ star :: toDecimal (d.args.length + 1)).length + 2 := by
            rw [RespCommand.headerLength, List.length_append, List.length_cons, List.length_cons]
            omega
          rw [hheader]
          grind
      | some r =>
          -- the whole length line is there, and it is not that of an empty name
          obtain ⟨line, rest⟩ := r
          have hfull := splitLine_append z hline
          have hdecimal := splitLine_toDecimal name.length (name ++ crlf ++ more)
          have hassoc : toDecimal name.length ++ crlf ++ (name ++ crlf) ++ more =
              toDecimal name.length ++ crlf ++ (name ++ crlf ++ more) := by simp
          rw [hz, hassoc, hdecimal, Option.some.injEq, Prod.mk.injEq] at hfull
          rw [splitLine_append d.encode hline, ← hfull.1] at h
          simp only [strtoll_toDecimal hlen] at h
          have hk : (max 0 (name.length : Int)).toNat = name.length := by omega
          have hpos : 0 < name.length := List.length_pos_of_ne_nil hname
          rw [hk] at h
          have htake : ∀ {s : Bytes}, name.length + 2 ≤ s.length → s.take name.length ≠ [] := by
            intro s hs hnil
            have := congrArg List.length hnil
            rw [List.length_take, List.length_nil] at this
            omega
          split at h
          · cases h
          · next hfit =>
            have hne := htake (s := rest ++ d.encode) (by omega)
            split at h
            · simp only [Option.some.injEq, Prod.mk.injEq] at h
              exact absurd h.1 hne
            · simp only [Option.some.injEq, Prod.mk.injEq] at h
              exact absurd h.1 hne

theorem run_of_notMem {s : Bytes} (h : star ∉ s) : (respScanner.run s).1 = [] := by
  have hjunk := run_junk h []
  rw [List.append_nil, respScanner.run_of_none (s := []) rfl] at hjunk
  rw [hjunk]

/-- Everything behind the header of a command without a `'*'` in its elements. -/
theorem run_drop_header {t : Bytes} {d : RespCommand} (hd : star ∉ d.body) {n : Nat}
    (h : t.length + d.headerLength ≤ n) : (respScanner.run ((t ++ d.encode).drop n)).1 = [] := by
  refine run_of_notMem fun hmem => hd ?_
  have hbody := drop_headerLength d []
  rw [List.append_nil, List.append_nil] at hbody
  have hdrop : (t ++ d.encode).drop n = d.body.drop (n - (t.length + d.headerLength)) := by
    have hn : n = t.length + (d.headerLength + (n - (t.length + d.headerLength))) := by omega
    rw [← hbody, List.drop_drop]
    conv_lhs => rw [hn]
    rw [List.drop_append]
    simp
  rw [hdrop] at hmem
  exact List.mem_of_mem_drop hmem

/-- The commands that `Replay` passes on. -/
def named (cmds : List RespCommand) : List RespCommand := cmds.filter fun cmd => !cmd.name.isEmpty

section nextCommand

variable {c d : RespCommand}

/-- What a run passes on from its first step on. -/
theorem named_run_of_step {s : Bytes} {o : Option RespCommand} {n : Nat}
    (hstep : respScanner.step s = some (o, n)) :
    named (respScanner.run s).1 = named (o.toList ++ (respScanner.run (s.drop n)).1) := by
  rw [respScanner.run_of_some hstep]

theorem named_run_ne_singleton {s : Bytes} (hstep : respScanner.step s = none) :
    named (respScanner.run s).1 ≠ [d] := by
  rw [respScanner.run_of_none hstep]
  exact nofun

/-- A command torn in its header takes its elements from those of the next one. -/
theorem announced_of_headerTorn {t : Bytes} (hline : splitLine t = none) (hd : star ∉ d.body)
    (h : named (respScanner.run (star :: t ++ d.encode)).1 = [d]) :
    announced t = d.args.length + 1 := by
  have hstep := scanStep_headerTorn hline d []
  rw [List.append_nil, List.append_nil] at hstep
  change respScanner.step (star :: t ++ d.encode) = _ at hstep
  have hlen : (star :: t).length = 1 + t.length := by rw [List.length_cons, Nat.add_comm]
  by_cases hrange : announced t ≤ 0 ∨ announced t > 256
  · rw [if_pos hrange] at hstep
    rw [named_run_of_step hstep, run_drop_header hd (by omega)] at h
    cases h
  · rw [if_neg hrange] at hstep
    cases htokens : takeTokens (announced t).toNat d.body with
    | none =>
        rw [htokens] at hstep
        exact absurd h (named_run_ne_singleton hstep)
    | some r =>
        obtain ⟨tokens, n⟩ := r
        rw [htokens, Option.map_some] at hstep
        rw [named_run_of_step hstep, run_drop_header hd (by omega)] at h
        have hcount := length_of_takeTokens htokens
        have hmem : d ∈ named ((some (toCommand tokens)).toList ++ []) := by
          rw [h]
          exact List.mem_singleton_self d
        have hd' : d = toCommand tokens := by simpa using (List.mem_filter.mp hmem).1
        rw [hd', length_args_toCommand (k := (announced t).toNat - 1) (by omega)]
        omega

/-- An empty name was torn away with the header of the next command. -/
theorem le_of_takeTokens_torn {u : Bytes} (hu : u <+: c.body) (hname : c.name ≠ [])
    (hlen : c.name.length < 2 ^ 63) {k n : Nat} {tokens : List Bytes}
    (htokens : takeTokens (k + 1) (u ++ d.encode) = some (tokens, n))
    (hempty : (toCommand tokens).name = []) : u.length + d.headerLength ≤ n := by
  rw [takeTokens] at htokens
  cases htoken : takeToken (u ++ d.encode) with
  | none =>
      rw [htoken] at htokens
      cases htokens
  | some r =>
      obtain ⟨token, m⟩ := r
      rw [htoken] at htokens
      obtain ⟨⟨tokens', m'⟩, -, he⟩ := Option.map_eq_some_iff.mp htokens
      rw [Prod.mk.injEq] at he
      have htok : token = [] := by
        rw [← he.1] at hempty
        exact hempty
      have hbody : c.body =
          RespCodec.bulkString c.name ++ (c.args.map RespCodec.bulkString).flatten := rfl
      have hle := le_of_takeToken_torn (hbody ▸ hu) hname hlen (htok ▸ htoken)
      omega

/-- A command torn behind its header takes its name or its last elements from the next one. -/
theorem length_args_of_bodyTorn {u : Bytes} (hargs : c.args.length ≤ 255) (hname : c.name ≠ [])
    (hlen : c.name.length < 2 ^ 63) (hu : u <+: c.body) (hd : star ∉ d.body)
    (h : named (respScanner.run
      (star :: (toDecimal (c.args.length + 1) ++ crlf ++ u) ++ d.encode)).1 = [d]) :
    c.args.length = d.args.length := by
  have hstep : respScanner.step (star :: (toDecimal (c.args.length + 1) ++ crlf ++ u) ++
      d.encode) = _ := scanStep_bodyTorn hargs d.encode
  cases htokens : takeTokens (c.args.length + 1) (u ++ d.encode) with
  | none =>
      rw [htokens] at hstep
      exact absurd h (named_run_ne_singleton hstep)
  | some r =>
      obtain ⟨tokens, n⟩ := r
      rw [htokens, Option.map_some] at hstep
      rw [named_run_of_step hstep] at h
      by_cases hempty : (toCommand tokens).name = []
      · have hle := le_of_takeTokens_torn hu hname hlen htokens hempty
        have hheader : c.headerLength = 1 + (toDecimal (c.args.length + 1)).length + 2 := rfl
        rw [run_drop_header hd] at h
        · simp [named, hempty] at h
        · simp only [List.length_cons, List.length_append, crlf, List.length_nil]
          omega
      · rw [named, Option.toList_some, List.singleton_append,
          List.filter_cons_of_pos (by simpa using hempty), List.cons.injEq] at h
        rw [← h.1, length_args_toCommand (length_of_takeTokens htokens)]

/-- **The next command survives only if the torn one announced as many elements.** -/
theorem announced_of_run_torn {t : Bytes} (hargs : c.args.length ≤ 255)
    (hname : c.name ≠ []) (hlen : c.name.length < 2 ^ 63) (ht : star :: t <+: c.encode)
    (hd : star ∉ d.body) (h : named (respScanner.run (star :: t ++ d.encode)).1 = [d]) :
    announced t = d.args.length + 1 := by
  rcases torn_cases ht with hnone | ⟨u, rfl, hu⟩
  · exact announced_of_headerTorn hnone hd h
  · have hlength := length_args_of_bodyTorn hargs hname hlen hu hd h
    rw [announced, splitLine_toDecimal]
    simp only [strtoll_toDecimal (n := c.args.length + 1) (by omega)]
    rw [hlength]
    norm_cast

end nextCommand

/-! ## Logs -/

/-- What `AppendToAof` is called with: a write command that `Feed` returned. -/
structure Loggable (cmd : RespCommand) : Prop where
  write : normalize cmd.name ∈ AofLogger.writes
  args : cmd.args.length ≤ 255

theorem Loggable.name_ne_nil {cmd : RespCommand} (h : Loggable cmd) : cmd.name ≠ [] := by
  intro hnil
  have hwrite := h.write
  rw [hnil] at hwrite
  exact absurd hwrite (by decide)

theorem named_of_loggable {cmds : List RespCommand} (h : ∀ cmd ∈ cmds, Loggable cmd) :
    named cmds = cmds :=
  List.filter_eq_self.mpr fun cmd hcmd => by simpa using (h cmd hcmd).name_ne_nil

/-- The commands that a replay of the file hands to its callback. -/
def replayed (content : Bytes) : List RespCommand :=
  (AofLogger.replay (some content) (fun cmds cmd => cmds ++ [cmd]) []).2

theorem replayed_eq {content : Bytes} (h : content.length < 2 ^ 62) :
    replayed content = named (respScanner.run content).1 := by
  have hfold : ∀ (l init : List RespCommand),
      l.foldl (fun cmds cmd => cmds ++ [cmd]) init = init ++ l := by
    intro l
    induction l with
    | nil => exact fun init => (List.append_nil init).symm
    | cons cmd l ih => exact fun init => (ih _).trans (List.append_assoc init [cmd] l)
  rw [replayed, AofLogger.replay, feed_new_eq_run h]
  exact (hfold _ []).trans (List.nil_append _)

/-- The commands in front of the torn one come out as they were logged. -/
theorem replayed_encodeAll_append {cs : List RespCommand} (hcs : ∀ cmd ∈ cs, Loggable cmd)
    {s : Bytes} (hlen : (encodeAll cs ++ s).length < 2 ^ 62) :
    replayed (encodeAll cs ++ s) = cs ++ named (respScanner.run s).1 := by
  have hcslen : (encodeAll cs).length < 2 ^ 63 := by
    rw [List.length_append] at hlen
    omega
  rw [replayed_eq hlen, respScanner.run_append,
    run_encodeAll (fun cmd hcmd => (hcs cmd hcmd).args) hcslen, List.nil_append]
  exact (List.filter_append cs _).trans (congrArg (· ++ _) (named_of_loggable hcs))

/-- A command that is not all there waits. -/
theorem run_torn {c : RespCommand} {t : Bytes} (hargs : c.args.length ≤ 255)
    (hlen : c.encode.length < 2 ^ 63) (ht : t <+: c.encode) (hne : t ≠ c.encode) :
    respScanner.run t = ([], t) := by
  refine respScanner.run_of_none ?_
  obtain ⟨z, hz⟩ := ht
  cases hstep : respScanner.step t with
  | none => rfl
  | some r =>
      obtain ⟨o, n⟩ := r
      have hfull := respScanner.stable z hstep
      have hcmd := scanStep_encode c hlen []
      rw [List.append_nil, if_pos (by omega)] at hcmd
      rw [hz] at hfull
      have hn : c.encode.length = n := by
        have hpair := Option.some.inj (hcmd.symm.trans hfull)
        exact congrArg Prod.snd hpair
      have hle := (respScanner.consumes hstep).2
      have hz' := congrArg List.length hz
      rw [List.length_append] at hz'
      have hnil : z = [] := List.eq_nil_of_length_eq_zero (by omega)
      rw [hnil, List.append_nil] at hz
      exact absurd hz hne

/-- **A torn tail alone does no harm.** -/
theorem replayed_torn {cs : List RespCommand} {c : RespCommand} {t : Bytes}
    (hcs : ∀ cmd ∈ cs, Loggable cmd) (hargs : c.args.length ≤ 255) (ht : t <+: c.encode)
    (hne : t ≠ c.encode) (hlen : (encodeAll cs).length + c.encode.length < 2 ^ 62) :
    replayed (encodeAll cs ++ t) = cs := by
  have htlen := ht.length_le
  rw [replayed_encodeAll_append hcs (by rw [List.length_append]; omega),
    run_torn hargs (by omega) ht hne]
  exact List.append_nil cs

/-- Torn inside its header, a command that announced as many elements as the
next one has is taken for it. -/
theorem replayed_headerTorn {cs : List RespCommand} {t : Bytes} {d : RespCommand}
    {ds : List RespCommand} (hcs : ∀ cmd ∈ cs, Loggable cmd) (hds : ∀ cmd ∈ d :: ds, Loggable cmd)
    (ht : splitLine t = none) (hannounced : announced t = d.args.length + 1)
    (hlen : (encodeAll cs ++ (star :: t ++ encodeAll (d :: ds))).length < 2 ^ 62) :
    replayed (encodeAll cs ++ (star :: t ++ encodeAll (d :: ds))) = cs ++ d :: ds := by
  have hd := hds d List.mem_cons_self
  have hargs := hd.args
  obtain ⟨-, hsize⟩ := length_le_body (l := d.name :: d.args)
  have hbody : d.body = ((d.name :: d.args).map RespCodec.bulkString).flatten := rfl
  rw [← hbody] at hsize
  have hlens := hlen
  rw [encodeAll_cons, List.length_append, List.length_append, List.length_append,
    length_encode] at hlens
  have htokens := takeTokens_bulkStrings (l := d.name :: d.args)
    (fun s hs => by have := hsize s hs; omega) (encodeAll ds)
  rw [List.length_cons] at htokens
  have hstep := scanStep_headerTorn ht d (encodeAll ds)
  rw [hannounced, if_neg (by omega)] at hstep
  have hnat : ((d.args.length : Int) + 1).toNat = d.args.length + 1 := by omega
  rw [hnat, hbody, htokens] at hstep
  have hn : 1 + t.length + d.headerLength +
      ((d.name :: d.args).map RespCodec.bulkString).flatten.length =
        (star :: t ++ d.encode).length := by
    rw [List.length_append, List.length_cons, length_encode, hbody]
    omega
  have hrun : respScanner.run (star :: t ++ encodeAll (d :: ds)) =
      (d :: ds, []) := by
    have hstep' : respScanner.step (star :: t ++ d.encode ++ encodeAll ds) =
        some (some d, (star :: t ++ d.encode).length) := by
      rw [← hn, List.append_assoc]
      exact hstep
    rw [encodeAll_cons, ← List.append_assoc, respScanner.run_of_some hstep', List.drop_left,
      run_encodeAll (fun cmd hcmd => (hds cmd (List.mem_cons_of_mem d hcmd)).args) (by omega)]
    rfl
  rw [replayed_encodeAll_append hcs hlen, hrun, named_of_loggable hds]

/-- Two commands of different lengths, with no `'*'` in them. -/
def delOne : RespCommand := ⟨ascii "DEL", [ascii "k"]⟩
def setOne : RespCommand := ⟨ascii "SET", [ascii "k", ascii "v"]⟩

/-- **The log after a crash**: behind what the crash left of a command, every
list of commands is replayed as it was appended, behind those in front of it,
exactly if it left nothing. -/
theorem replayed_torn_iff {cs : List RespCommand} {c : RespCommand} {t : Bytes}
    (hcs : ∀ cmd ∈ cs, Loggable cmd) (hc : Loggable c) (ht : t <+: c.encode)
    (hlen : (encodeAll cs).length + c.encode.length < 2 ^ 61) :
    (∀ ds, (∀ cmd ∈ ds, Loggable cmd) → (encodeAll cs ++ (t ++ encodeAll ds)).length < 2 ^ 62 →
      replayed (encodeAll cs ++ (t ++ encodeAll ds)) = cs ++ ds) ↔ t = [] := by
  have htlen := ht.length_le
  constructor
  · intro hall
    cases t with
    | nil => rfl
    | cons b t =>
        have hb : b = star := by
          obtain ⟨z, hz⟩ := ht
          rw [encode_eq] at hz
          exact (List.cons.inj hz).1
        subst hb
        have hcname : c.name.length < 2 ^ 63 := by
          have hsize := (length_le_body (l := c.name :: c.args)).2 c.name List.mem_cons_self
          have hbody : c.body = ((c.name :: c.args).map RespCodec.bulkString).flatten := rfl
          have henc := length_encode c
          rw [← hbody] at hsize
          omega
        -- the next command must have the number of elements that the torn one announced
        have hcount : ∀ d : RespCommand, Loggable d → d.encode.length < 100 → star ∉ d.body →
            announced t = d.args.length + 1 := by
          intro d hd hdlen hstar
          have henc : encodeAll [d] = d.encode := by
            rw [encodeAll_cons]
            exact List.append_nil _
          have hds : ∀ cmd ∈ [d], Loggable cmd := fun cmd hcmd => by
            rwa [List.mem_singleton.mp hcmd]
          have hone : (encodeAll cs ++ (star :: t ++ encodeAll [d])).length < 2 ^ 62 := by
            rw [henc, List.length_append, List.length_append]
            omega
          have hreplay := hall [d] hds hone
          rw [replayed_encodeAll_append hcs hone, henc, List.append_cancel_left_eq] at hreplay
          exact announced_of_run_torn hc.args hc.name_ne_nil hcname ht hstar hreplay
        have htwo := hcount delOne ⟨by decide, by decide⟩ (by decide) (by decide)
        have hthree := hcount setOne ⟨by decide, by decide⟩ (by decide) (by decide)
        exact absurd (htwo.symm.trans hthree) (by decide)
  · rintro rfl ds hds hdslen
    rw [List.nil_append] at hdslen ⊢
    have hdsonly : (encodeAll ds).length < 2 ^ 63 := by
      rw [List.length_append] at hdslen
      omega
    rw [replayed_encodeAll_append hcs hdslen,
      run_encodeAll (fun cmd hcmd => (hds cmd hcmd).args) hdsonly]
    exact congrArg (cs ++ ·) (named_of_loggable hds)

theorem replayed_torn_iff_set :
    (∀ ds, (∀ cmd ∈ ds, Loggable cmd) →
      (encodeAll [delOne] ++ (ascii "*3\r\n" ++ encodeAll ds)).length < 2 ^ 62 →
      replayed (encodeAll [delOne] ++ (ascii "*3\r\n" ++ encodeAll ds)) = [delOne] ++ ds) ↔
        ascii "*3\r\n" = [] :=
  @replayed_torn_iff [delOne] setOne (ascii "*3\r\n")
    (fun cmd hcmd => by rw [List.mem_singleton.mp hcmd]; exact ⟨by decide, by decide⟩)
    ⟨by decide, by decide⟩ (by decide) (by decide)

/-- A `SET` cut behind its header: the commands appended after the restart, which
were acknowledged, are gone. -/
theorem replayed_torn_set :
    ascii "*3\r\n" <+: setOne.encode ∧ ascii "*3\r\n" ≠ setOne.encode ∧
      replayed (encodeAll [delOne] ++ (ascii "*3\r\n" ++ encodeAll [setOne, delOne])) = [delOne] ∧
      replayed (encodeAll [delOne] ++ (ascii "*3\r\n" ++ encodeAll [setOne, delOne])) ≠
        [delOne] ++ [setOne, delOne] := by
  decide +kernel

end RedisLike
