import RedisLike.Command.Replies
import RedisLike.Server

/-!
# RedisLike.Server.Replies

One reply for each command.

The reply to a command that is registered is one RESP value.  The reply to any
other repeats the name in a line, so it is one value exactly if the name has no
line end in it (`processCommand_oneValue_iff`).
-/

namespace RedisLike

/-! ## Line ends in a text -/

theorem crlf_infix_append_left {pre s : Bytes} (h : cr ∉ pre) :
    crlf <:+: pre ++ s ↔ crlf <:+: s := by
  refine ⟨fun hin => ?_, fun hin => hin.trans (List.suffix_append pre s).isInfix⟩
  rcases List.infix_append_iff.mp hin with hpre | hs | ⟨l, r, hlr, hl, hr⟩
  · exact absurd (hpre.subset (by simp [crlf])) h
  · exact hs
  · cases l with
    | nil => exact (hlr.trans (List.nil_append r) ▸ hr).isInfix
    | cons a l =>
        have ha : cr = a := congrArg (·.headD 0) hlr
        exact absurd (hl.subset (ha ▸ List.mem_cons_self)) h

theorem crlf_infix_append_right {s post : Bytes} (h : lf ∉ post) :
    crlf <:+: s ++ post ↔ crlf <:+: s := by
  refine ⟨fun hin => ?_, fun hin => hin.trans (List.prefix_append s post).isInfix⟩
  rcases List.infix_append_iff.mp hin with hs | hpost | ⟨l, r, hlr, hl, hr⟩
  · exact hs
  · exact absurd (hpost.subset (by simp [crlf])) h
  · by_cases hnil : r = []
    · rw [hnil, List.append_nil] at hlr
      exact (hlr ▸ hl).isInfix
    · have hlast : r.getLast hnil = lf := by
        have hsome := congrArg List.getLast? hlr
        rw [List.getLast?_append_of_ne_nil l hnil, List.getLast?_eq_some_getLast hnil] at hsome
        exact (Option.some.inj hsome).symm
      exact absurd (hr.subset (hlast ▸ List.getLast_mem hnil)) h

/-- **A name that is not registered**: its reply is one value exactly if the
name has no line end in it. -/
theorem oneValue_unknownCommand_iff (name : Bytes) :
    OneValue (unknownCommand name) ↔ ¬ crlf <:+: name := by
  rw [unknownCommand, oneValue_error_iff, crlf_infix_append_right (by decide),
    crlf_infix_append_left (by decide)]

namespace RedisServer

/-! ## One command -/

/-- The bytes that `ProcessCommand` appends to the client's `write_buf`. -/
def appended (client : Client) (server : RedisServer) (step : Step) : Bytes :=
  (processCommand client server step).1.writeBuf.drop client.writeBuf.length

theorem appended_eq (client : Client) (server : RedisServer) (step : Step) :
    appended client server step = (response server.db step).1 := by
  rw [appended, processCommand, List.drop_left]

/-- `QUIT` is registered. -/
theorem commandExists_quit : commandExists (ascii "QUIT") = true := rfl

theorem response_readsValue {db : Dict} {step : Step}
    (h : commandExists (normalize step.cmd.name) = true) :
    ReadsValue 2 (response db step).1 := by
  rw [response]
  by_cases hquit : normalize step.cmd.name = ascii "QUIT"
  · rw [if_pos hquit]
    exact readsValue_simpleString (by decide) 1
  · obtain ⟨handler, hfind⟩ := Option.isSome_iff_exists.mp h
    have hexec : execute (step.context db) = handler (step.context db) :=
      execute_of_findHandler hfind
    rw [if_neg hquit, if_pos h, hexec]
    exact replies_of_findHandler hfind _

theorem response_of_not_exists {db : Dict} {step : Step}
    (h : ¬ commandExists (normalize step.cmd.name) = true) :
    (response db step).1 = unknownCommand step.cmd.name := by
  have hquit : normalize step.cmd.name ≠ ascii "QUIT" := by
    intro hname
    exact h (hname ▸ commandExists_quit)
  rw [response, if_neg hquit, if_neg h]

/-- **One reply for each command**: what a command appends to the client's
buffer is one value, with nothing left over, exactly if the command is
registered or its name has no line end in it. -/
theorem processCommand_oneValue_iff (client : Client) (server : RedisServer) (step : Step) :
    OneValue (appended client server step) ↔
      commandExists (normalize step.cmd.name) = true ∨ ¬ crlf <:+: step.cmd.name := by
  rw [appended_eq]
  by_cases h : commandExists (normalize step.cmd.name) = true
  · exact ⟨fun _ => .inl h, fun _ => (response_readsValue h).oneValue⟩
  · rw [response_of_not_exists h, oneValue_unknownCommand_iff]
    exact ⟨.inr, fun hor => hor.resolve_left h⟩

/-- A name with a line end in it. -/
def splitName : RespCommand := ⟨ascii "x\r\n+OK", []⟩

/-- The server decodes the name as it is, and its client reads two replies. -/
theorem appended_splitName :
    (RespCodec.feed {} splitName.encode).1 = [splitName] ∧
      (RespValue.readItems (RespValue.read 1) 2
        (appended {} (new {}) ⟨⟨0, fun _ _ => 0⟩, splitName⟩)) =
          some ([.error (ascii "ERR unknown command 'x"), .simple (ascii "OK'")], []) ∧
      ¬ OneValue (appended {} (new {}) ⟨⟨0, fun _ _ => 0⟩, splitName⟩) := by
  have hreply : appended {} (new {}) ⟨⟨0, fun _ _ => 0⟩, splitName⟩ =
      unknownCommand splitName.name :=
    (appended_eq _ _ _).trans (response_of_not_exists (by decide +kernel))
  refine ⟨by decide +kernel, ?_, ?_⟩
  · rw [hreply]
    rfl
  · rw [hreply, oneValue_unknownCommand_iff, not_not]
    exact ⟨ascii "x", ascii "+OK", by decide⟩

/-- The reply to a command that is registered, or has no line end in its name, is read
back whatever follows it. -/
theorem response_readsValue_of_name {step : Step}
    (h : commandExists (normalize step.cmd.name) = true ∨ ¬ crlf <:+: step.cmd.name) (db : Dict) :
    ReadsValue 2 (response db step).1 := by
  by_cases hexists : commandExists (normalize step.cmd.name) = true
  · exact response_readsValue hexists
  · rw [response_of_not_exists hexists]
    refine readsValue_error_of_not_infix ?_ 1
    rw [crlf_infix_append_right (by decide), crlf_infix_append_left (by decide)]
    exact h.resolve_left hexists

end RedisServer

end RedisLike
