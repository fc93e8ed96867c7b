import RedisLike.Resp.RoundTrip

/-!
# RedisLike.Resp.Refused

What `Feed` does with a request it refuses.

An array of more than 256 elements is not skipped: only its header is, and the
main loop goes on looking for a `'*'` in the bytes of its elements.  `inert` is
the condition under which this skimming meets no complete frame;
`feedFrames_sublist_iff` says that exactly then every command returned is a request
that was sent, at its own place in the stream.
-/

namespace RedisLike

/-! ## Skimming the elements of a refused request -/

/-- How skimming through the elements of a refused request ends: behind the
last element, at a frame that is returned as a command, or at one that waits
for more input and stops the parser. -/
inductive Skim where
  | passes
  | completes
  | stuck
deriving DecidableEq

/-- The rounds of `Feed` on `body`, `rest` being the bytes of the later
requests. -/
def skim : Nat → Bytes → Bytes → Skim
  | _, [], _ => .passes
  | 0, _ :: _, _ => .passes
  | fuel + 1, b :: body, rest =>
    match scanStep (b :: body ++ rest) with
    | none => .stuck
    | some (some _, _) => .completes
    | some (none, n) => skim fuel ((b :: body).drop n) rest

/-- **No payload forms a frame**: skimming through the elements of a refused
request completes no frame.  Behind a request where the parser is stuck nothing
is returned any more. -/
def inert : List RespCommand → Bool
  | [] => true
  | cmd :: cmds =>
    if cmd.args.length + 1 ≤ 256 then inert cmds
    else
      match skim cmd.body.length cmd.body (encodeAll cmds) with
      | .passes => inert cmds
      | .completes => false
      | .stuck => true

/-- The requests sent, each with its place in the stream. -/
def requestFrames : Nat → List RespCommand → List (Nat × RespCommand)
  | _, [] => []
  | off, cmd :: cmds => (off, cmd) :: requestFrames (off + cmd.encode.length) cmds

/-- The commands `Feed` returns, each with the place of its `'*'`. -/
def feedFrames (s : Bytes) : List (Nat × RespCommand) := (respScanner.trace 0 s).1

theorem map_snd_requestFrames (off : Nat) (cmds : List RespCommand) :
    (requestFrames off cmds).map Prod.snd = cmds := by
  induction cmds generalizing off with
  | nil => rfl
  | cons cmd cmds ih => rw [requestFrames, List.map_cons, ih]

theorem le_of_mem_requestFrames {off i : Nat} {c : RespCommand} {cmds : List RespCommand}
    (h : (i, c) ∈ requestFrames off cmds) : off ≤ i := by
  induction cmds generalizing off with
  | nil => simp [requestFrames] at h
  | cons cmd cmds ih =>
      rw [requestFrames] at h
      rcases List.mem_cons.mp h with h | h
      · cases h; exact le_refl _
      · have := ih h; omega

/-! ## Every line inside the elements ends inside them -/

/-- Behind every `'*'` there is a line end. -/
def LineClosed (s : Bytes) : Prop := ∀ pre r, s = pre ++ star :: r → (splitLine r).isSome

theorem LineClosed.drop {s : Bytes} (h : LineClosed s) (n : Nat) : LineClosed (s.drop n) := by
  intro pre r he
  refine h (s.take n ++ pre) r ?_
  rw [List.append_assoc, ← he, List.take_append_drop]

theorem lineClosed_append_crlf (x : Bytes) : LineClosed (x ++ crlf) := by
  intro pre r he
  have hrev := congrArg List.reverse he
  simp only [List.reverse_append, List.reverse_cons, List.append_assoc, crlf] at hrev
  -- the last two bytes are the line end, and `'*'` is neither of them
  cases hr : r.reverse with
  | nil => rw [hr] at hrev; simp [star, lf] at hrev
  | cons a q =>
      cases q with
      | nil => rw [hr] at hrev; simp [star, cr] at hrev
      | cons b q =>
          rw [hr] at hrev
          simp only [List.reverse_nil, List.nil_append, List.cons_append, List.cons.injEq] at hrev
          have hr' : r = q.reverse ++ crlf := by
            rw [← List.reverse_reverse r, hr, ← hrev.1, ← hrev.2.1]
            simp [crlf]
          rw [hr']
          exact isSome_splitLine_append_crlf _

theorem lineClosed_body (cmd : RespCommand) : LineClosed cmd.body := by
  have h : ∀ (s : Bytes) (l : List Bytes),
      ∃ x, ((s :: l).map RespCodec.bulkString).flatten = x ++ crlf := by
    intro s l
    induction l generalizing s with
    | nil => exact ⟨dollar :: (toDecimal s.length ++ crlf ++ s), by simp [bulkString_eq]⟩
    | cons s' l ih =>
        obtain ⟨x, hx⟩ := ih s'
        exact ⟨RespCodec.bulkString s ++ x, by rw [List.map_cons, List.flatten_cons, hx,
          List.append_assoc]⟩
  obtain ⟨x, hx⟩ := h cmd.name cmd.args
  rw [RespCommand.body, hx]
  exact lineClosed_append_crlf x

/-- A round that returns nothing stays inside the elements. -/
theorem scanStep_none_le {b : UInt8} {body rest : Bytes} {n : Nat} (h : LineClosed (b :: body))
    (hs : scanStep (b :: body ++ rest) = some (none, n)) : n ≤ (b :: body).length := by
  rw [List.cons_append, scanStep] at hs
  by_cases hb : b = star
  · subst hb
    obtain ⟨⟨line, r⟩, hl⟩ := Option.isSome_iff_exists.mp (h [] body rfl)
    have hlen := congrArg List.length (splitLine_eq_some hl)
    simp only [List.length_append, crlf, List.length_cons, List.length_nil] at hlen
    rw [if_neg (by simp), splitLine_append rest hl] at hs
    simp only at hs
    split at hs
    · simp only [Option.some.injEq, Prod.mk.injEq, true_and] at hs
      rw [List.length_cons]
      omega
    · split at hs <;> simp at hs
  · rw [if_pos hb] at hs
    simp only [Option.some.injEq, Prod.mk.injEq, true_and] at hs
    rw [List.length_cons]
    omega

/-- What the parser does with the elements of a refused request. -/
theorem trace_skim {body : Bytes} (rest : Bytes) {fuel : Nat} (off : Nat) (h : LineClosed body)
    (hfuel : body.length ≤ fuel) :
    match skim fuel body rest with
    | .passes => respScanner.trace off (body ++ rest) =
        respScanner.trace (off + body.length) rest
    | .completes => ∃ i c, (i, c) ∈ (respScanner.trace off (body ++ rest)).1 ∧
        off ≤ i ∧ i < off + body.length
    | .stuck => (respScanner.trace off (body ++ rest)).1 = [] := by
  induction fuel generalizing body off with
  | zero =>
      have hb : body = [] := List.length_eq_zero_iff.mp (by omega)
      subst hb
      rfl
  | succ fuel ih =>
      cases body with
      | nil => rfl
      | cons b body =>
          rw [skim]
          cases hs : scanStep (b :: body ++ rest) with
          | none =>
              have hstep : respScanner.step (b :: body ++ rest) = none := hs
              simp only [respScanner.trace_of_none hstep]
          | some r =>
              obtain ⟨o, n⟩ := r
              have hstep : respScanner.step (b :: body ++ rest) = some (o, n) := hs
              cases o with
              | some c =>
                  refine ⟨off, c, ?_, le_refl off, by simp⟩
                  rw [respScanner.trace_of_some hstep]
                  simp
              | none =>
                  have hn := scanStep_none_le h hs
                  have hpos := (respScanner.consumes hstep).1
                  have hlen : ((b :: body).drop n).length = (b :: body).length - n :=
                    List.length_drop
                  have hdrop : (b :: body ++ rest).drop n = (b :: body).drop n ++ rest :=
                    List.drop_append_of_le_length hn
                  have ih := ih (off + n) (h.drop n) (by omega)
                  rw [respScanner.trace_of_some hstep, hdrop]
                  have hend : off + n + ((b :: body).drop n).length =
                      off + (b :: body).length := by omega
                  rw [hend] at ih
                  simp only [Option.toList_none, List.map_nil, List.nil_append, Prod.mk.eta]
                  split
                  · next he => rw [he] at ih; exact ih
                  · next he =>
                    rw [he] at ih
                    obtain ⟨i, c, hi, hle, hlt⟩ := ih
                    exact ⟨i, c, hi, by omega, hlt⟩
                  · next he => rw [he] at ih; exact ih

/-! ## Streams of requests -/

/-- The frames of a stream, from any offset. -/
theorem trace_sublist_iff {cmds : List RespCommand} (off : Nat)
    (h : (encodeAll cmds).length < 2 ^ 63) :
    inert cmds = true ↔
      (respScanner.trace off (encodeAll cmds)).1.Sublist (requestFrames off cmds) := by
  induction cmds generalizing off with
  | nil => rw [encodeAll, List.map_nil, List.flatten_nil, respScanner.trace_of_none rfl]; simp [inert]
  | cons cmd cmds ih =>
      rw [encodeAll_cons, List.length_append] at h
      have hlen := length_encode cmd
      have hheader : 0 < cmd.headerLength := by rw [RespCommand.headerLength]; omega
      have hstep : respScanner.step (cmd.encode ++ encodeAll cmds) = _ :=
        scanStep_encode cmd (by omega) (encodeAll cmds)
      rw [encodeAll_cons, inert, requestFrames]
      by_cases hn : cmd.args.length + 1 ≤ 256
      · rw [if_pos hn] at hstep ⊢
        rw [respScanner.trace_of_some hstep, List.drop_left,
          ih (off + cmd.encode.length) (by omega)]
        simp
      · rw [if_neg hn] at hstep ⊢
        rw [respScanner.trace_of_some hstep,
          drop_headerLength]
        simp only [Option.toList_none, List.map_nil, List.nil_append]
        have hskim := trace_skim (encodeAll cmds) (off + cmd.headerLength)
          (lineClosed_body cmd) (le_refl _)
        revert hskim
        cases skim cmd.body.length cmd.body (encodeAll cmds) with
        | passes =>
            intro hskim
            simp only at hskim ⊢
            have hoff : off + cmd.headerLength + cmd.body.length = off + cmd.encode.length := by
              omega
            rw [hskim, hoff, ih (off + cmd.encode.length) (by omega)]
            -- the refused request itself is not returned
            constructor
            · exact fun hs => hs.cons _
            · intro hs
              rcases List.sublist_cons_iff.mp hs with hs | ⟨l, he, -⟩
              · exact hs
              · have hmem : (off, cmd) ∈
                    (respScanner.trace (off + cmd.encode.length) (encodeAll cmds)).1 := by
                  rw [he]; simp
                have := respScanner.le_of_mem_trace hmem
                omega
        | completes =>
            rintro ⟨i, c, hi, hle, hlt⟩
            simp only [Bool.false_eq_true, false_iff]
            intro hs
            rcases List.mem_cons.mp (hs.subset hi) with he | hm
            · cases he; omega
            · have := le_of_mem_requestFrames hm; omega
        | stuck =>
            intro hskim
            simp only at hskim ⊢
            rw [hskim]
            simp

/-- The commands of `Feed` are those of its frames. -/
theorem feed_eq_feedFrames {s : Bytes} (h : s.length < 2 ^ 62) :
    (RespCodec.feed {} s).1 = (feedFrames s).map Prod.snd := by
  rw [feed_new_eq_run h]
  rfl

/-- **When payloads stay inert**: the frames `Feed` finds are requests that were
sent, each at its own place, exactly when no refused request holds a complete
frame; and then the commands it returns are a subsequence of those sent. -/
theorem feedFrames_sublist_iff {cmds : List RespCommand} (h : (encodeAll cmds).length < 2 ^ 62) :
    (inert cmds = true ↔
      (feedFrames (encodeAll cmds)).Sublist (requestFrames 0 cmds)) ∧
    (RespCodec.feed {} (encodeAll cmds)).1 = (feedFrames (encodeAll cmds)).map Prod.snd ∧
    (inert cmds = true → (RespCodec.feed {} (encodeAll cmds)).1.Sublist cmds) := by
  have hiff := trace_sublist_iff 0 (show (encodeAll cmds).length < 2 ^ 63 by omega)
  refine ⟨hiff, feed_eq_feedFrames h, fun hi => ?_⟩
  have hmap := (hiff.mp hi).map Prod.snd
  rw [map_snd_requestFrames] at hmap
  rw [feed_eq_feedFrames h]
  exact hmap

/-- A `DEL` of too many keys, which is refused, between two requests. -/
def refusedDel : List RespCommand :=
  [⟨ascii "GET", [ascii "k"]⟩, ⟨ascii "DEL", List.replicate 256 []⟩, ⟨ascii "PING", []⟩]

theorem feedFrames_sublist_iff_del :
    (inert refusedDel = true ↔
      (feedFrames (encodeAll refusedDel)).Sublist (requestFrames 0 refusedDel)) ∧
    (RespCodec.feed {} (encodeAll refusedDel)).1 =
      (feedFrames (encodeAll refusedDel)).map Prod.snd ∧
    (inert refusedDel = true →
      (RespCodec.feed {} (encodeAll refusedDel)).1.Sublist refusedDel) :=
  @feedFrames_sublist_iff refusedDel (by decide +kernel)

/-- Bytes without a `'*'` are skipped. -/
theorem run_junk {junk : Bytes} (h : star ∉ junk) (t : Bytes) :
    respScanner.run (junk ++ t) = respScanner.run t := by
  induction junk with
  | nil => rfl
  | cons b junk ih =>
      have hb : b ≠ star := by rintro rfl; exact h (by simp)
      have hstep : respScanner.step (b :: junk ++ t) = some (none, 1) := by
        simp [respScanner, scanStep, hb]
      rw [respScanner.run_of_some hstep]
      exact ih fun hm => h (List.mem_cons_of_mem b hm)

/-- A request of `k + 2` elements, all empty but the last, which holds a `QUIT`. -/
def smuggler (k : Nat) : RespCommand :=
  ⟨[], List.replicate k [] ++ [RespCommand.encode ⟨ascii "QUIT", []⟩]⟩

theorem body_smuggler (k : Nat) : (smuggler k).body =
    (List.replicate (k + 1) (ascii "$0\r\n\r\n")).flatten ++ ascii "$14\r\n" ++
      (RespCommand.encode ⟨ascii "QUIT", []⟩ ++ crlf) := by
  have hempty : RespCodec.bulkString [] = ascii "$0\r\n\r\n" := by decide
  have hlast : RespCodec.bulkString (RespCommand.encode ⟨ascii "QUIT", []⟩) =
      ascii "$14\r\n" ++ (RespCommand.encode ⟨ascii "QUIT", []⟩ ++ crlf) := by decide
  rw [RespCommand.body, smuggler, ← List.cons_append, ← List.replicate_succ, List.map_append,
    List.flatten_append, List.map_replicate, hempty, List.map_singleton, List.flatten_singleton,
    hlast, List.append_assoc]

/-- The codec refuses the request, and returns the `QUIT` in its last element. -/
theorem run_smuggler {k : Nat} (hk : 255 ≤ k) (hlen : (smuggler k).encode.length < 2 ^ 62) :
    respScanner.run (smuggler k).encode = ([⟨ascii "QUIT", []⟩], []) := by
  have hargs : (smuggler k).args.length = k + 1 := by simp [smuggler]
  have hrefused : respScanner.step ((smuggler k).encode ++ []) =
      some (none, (smuggler k).headerLength) := by
    have := scanStep_encode (smuggler k) (by omega) []
    rwa [hargs, if_neg (by omega)] at this
  have hjunk : star ∉ (List.replicate (k + 1) (ascii "$0\r\n\r\n")).flatten ++ ascii "$14\r\n" := by
    simp only [List.mem_append, List.mem_flatten, List.mem_replicate]
    rintro (⟨l, ⟨-, rfl⟩, hm⟩ | hm)
    · revert hm; decide
    · revert hm; decide
  have hframe : respScanner.step (RespCommand.encode ⟨ascii "QUIT", []⟩ ++ crlf) =
      some (some ⟨ascii "QUIT", []⟩, (RespCommand.encode ⟨ascii "QUIT", []⟩).length) := by
    have := scanStep_encode ⟨ascii "QUIT", []⟩ (by decide) crlf
    rwa [if_pos (by decide)] at this
  have hrest : respScanner.run crlf = ([], []) := by
    have := run_junk (show star ∉ crlf by decide) []
    rwa [List.append_nil, respScanner.run_of_none (s := []) rfl] at this
  rw [← List.append_nil (smuggler k).encode, respScanner.run_of_some hrefused,
    drop_headerLength, List.append_nil, body_smuggler, run_junk hjunk,
    respScanner.run_of_some hframe, List.drop_left, hrest]
  rfl

/-- A request of 257 elements with a `QUIT` in its last one: `Feed` returns the
`QUIT`, which was never sent. -/
theorem feed_smuggler :
    (RespCodec.feed {} (encodeAll [smuggler 255])).1 = [⟨ascii "QUIT", []⟩] ∧
      ¬ (RespCodec.feed {} (encodeAll [smuggler 255])).1.Sublist [smuggler 255] := by
  have hall : encodeAll [smuggler 255] = (smuggler 255).encode := by
    rw [encodeAll_cons]; exact List.append_nil _
  have hlen : (smuggler 255).encode.length < 2 ^ 62 := by
    have hquit : (RespCommand.encode ⟨ascii "QUIT", []⟩ ++ crlf).length = 16 := by decide
    have hheader : (smuggler 255).headerLength ≤ 10 := by
      have : (smuggler 255).args.length = 256 := by
        rw [smuggler, List.length_append, List.length_replicate]; rfl
      rw [RespCommand.headerLength, this]
      decide
    have hunit : (ascii "$0\r\n\r\n").length = 6 := by decide
    have h14 : (ascii "$14\r\n").length = 5 := by decide
    rw [length_encode, body_smuggler, List.length_append, List.length_append, hquit, h14,
      List.length_flatten, List.map_replicate, List.sum_replicate, hunit, smul_eq_mul]
    omega
  have hrun : (RespCodec.feed {} (encodeAll [smuggler 255])).1 = [⟨ascii "QUIT", []⟩] := by
    rw [hall, feed_new_eq_run hlen, run_smuggler (le_refl 255) hlen]
  refine ⟨hrun, ?_⟩
  rw [hrun]
  intro hs
  have hmem := List.mem_singleton.mp (hs.subset (List.mem_singleton.mpr rfl))
  have hname := congrArg RespCommand.name hmem
  exact absurd hname (by decide)

end RedisLike
