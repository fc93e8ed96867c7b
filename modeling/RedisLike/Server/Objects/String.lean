import RedisLike.Command.Deadline
import RedisLike.Server.Objects

/-!
# RedisLike.Server.Objects.String

A string is a register.

`set` says of `SET` with its options what it replies on a register that may be
empty and may have a deadline, and what it makes of it.  Unlike the commands of the
other types, `SET` gives its key a new deadline or none.
-/

namespace RedisLike

namespace StringObject

/-- The value of a string, when there is one. -/
abbrev Value := Option Bytes

/-! ## The calls -/

/-- The options of a `SET` that is accepted. -/
def options (args : List Bytes) : Option SetOptions :=
  if args.length < 2 then none
  else (setOptions (args.drop 2) {}).toOption.filter fun o => !(o.nx && o.xx)

/-- `SET`: with `NX` the register must be empty, with `XX` it must not. -/
def set : TimedCall Value := fun now args x reply x' =>
  (options args).elim (isError reply = true ∧ x' = x) fun o =>
    if o.nx && x.state.isSome || o.xx && !x.state.isSome then
      reply = RespCodec.nullBulkString ∧ x' = x
    else
      reply = RespCodec.ok ∧ x' = ⟨some (args.getD 1 []), o.expiry.map (addMilliseconds now)⟩

/-- `GET`. -/
def get : Call Value := .checked (fun args => !args.isEmpty) <| .reading
  fun _ v reply => reply = v.elim RespCodec.nullBulkString RespCodec.bulkString

/-! ## The object -/

/-- Strings. -/
def strings : Kind RedisString where
  type := .string
  as := ValueVariant.asString
  wrap := .string
  as_wrap _ := rfl
  exists_wrap v h := by
    cases v with
    | string s => exact ⟨s, rfl⟩
    | _ => cases h

/-- A string stands for itself, however short it is. -/
def rep : Representation RedisString Value where
  kind := strings
  Rep s v := v = some s
  init := none

section refines

variable (ctx : CmdContext)

theorem get_refines :
    rep.RefinesAt (CmdHandler.on getCmd ctx) ctx.now (ctx.arg 0) (get ctx.cmd.args) := by
  refine Representation.refinesAt_readObject
    (isError_error (ascii "ERR wrong number of arguments for 'GET' command")) (fun _ => rfl)
    (fun _ => rfl) (Representation.not_isEmpty_iff _) rfl ?_
  rintro s _ rfl -
  rfl

theorem set_refines :
    rep.RefinesTimedAt (CmdHandler.on setCmd ctx) ctx.now (ctx.arg 0)
      (set ctx.now ctx.cmd.args) := by
  have hspec := setCmd_performs ctx
  unfold setAction at hspec
  unfold set options
  by_cases hlen : ctx.cmd.args.length < 2
  · rw [if_pos hlen] at hspec ⊢
    exact Representation.refinesTimedAt_reply _ hspec fun _ _ _ => ⟨isError_error _, rfl⟩
  rw [if_neg hlen] at hspec ⊢
  cases ho : setOptions (ctx.cmd.args.drop 2) {} with
  | error reply =>
      rw [ho] at hspec
      exact Representation.refinesTimedAt_reply reply hspec
        fun _ _ _ => ⟨setOptions_error ho, rfl⟩
  | ok o =>
      rw [ho] at hspec
      by_cases hx : (o.nx && o.xx) = true
      · simp only [hx, if_true] at hspec
        simp only [Except.toOption, Option.filter, hx, Bool.not_true, Bool.false_eq_true, if_false]
        exact Representation.refinesTimedAt_reply _ hspec fun _ _ _ => ⟨isError_error _, rfl⟩
      · simp only [hx, if_false, Bool.false_eq_true] at hspec
        simp only [Except.toOption, Option.filter, hx, Bool.not_false, if_true, Option.elim_some]
        refine ⟨_, hspec, fun e x h => ?_⟩
        have hsome : x.state.isSome = e.isSome := by
          cases h with
          | missing => rfl
          | present obj a s hvalue hrep hpresent => rw [show s = some a from hrep]; rfl
        simp only [hsome, KeyAction.run]
        by_cases hnx : (o.nx && e.isSome) = true
        · simp only [hnx, if_true, Bool.true_or]
          exact ⟨x, ⟨trivial, rfl⟩, h⟩
        by_cases hxx : (o.xx && !e.isSome) = true
        · simp only [hnx, hxx, if_true, if_false, Bool.false_eq_true, Bool.or_true]
          exact ⟨x, ⟨trivial, rfl⟩, h⟩
        · simp only [hnx, hxx, if_false, Bool.false_eq_true, Bool.or_self]
          exact ⟨_, ⟨trivial, rfl⟩, .present _ _ _ rfl rfl (Option.some_ne_none _)⟩

end refines

/-- Strings. -/
def object : ObjectSpec RedisString Value where
  toRepresentation := rep
  calls := [(ascii "GET", get)]
  refines := by
    simp only [List.forall_mem_singleton]
    exact ⟨_, rfl, fun ctx _ _ => get_refines ctx⟩
  timedCalls := [(ascii "SET", set)]
  timedRefines := by
    simp only [List.forall_mem_singleton]
    exact ⟨_, rfl, fun ctx _ => set_refines ctx⟩

/-- **A string is a register, up to its deadline.**  Whatever else the server does, the
commands on a key that only `SET`, `EXPIRE`, `PEXPIRE` and `DEL` write to reply as
those on one register that is empty from its deadline on, and the entry stands for
what the register holds. -/
theorem string_history {key : Bytes} {ops : List Op} {db : Dict} (hclock : ClockForward ops)
    (hfree : db.get key = none) (hkeeps : object.Keeps key ops) :
    ∃ x, object.spec.Allowed (.gone none) (object.history key db ops) x ∧
      ∀ now, Until now ops → object.Holds ((runOps db ops).live now key) (x.shown none now) :=
  object.history_allowed hclock hfree hkeeps

/-- A run on the string `k`: a value for a while, another that comes too early, a look at the
deadline, and one behind it. -/
def stringOps : List Op :=
  [ .command 5 ⟨⟨1, fun _ _ => 0⟩, ⟨ascii "set", [ascii "k", ascii "a", ascii "px", ascii "2"]⟩⟩,
    .command 6 ⟨⟨2, fun _ _ => 0⟩, ⟨ascii "SET", [ascii "k", ascii "b", ascii "NX"]⟩⟩,
    .command 6 ⟨⟨3, fun _ _ => 0⟩, ⟨ascii "PTTL", [ascii "k"]⟩⟩,
    .command 5 ⟨⟨2000001, fun _ _ => 0⟩, ⟨ascii "GET", [ascii "k"]⟩⟩ ]

theorem string_history_px :
    ∃ x, object.spec.Allowed (.gone none) (object.history (ascii "k") ∅ stringOps) x ∧
      ∀ now, Until now stringOps →
        object.Holds ((runOps ∅ stringOps).live now (ascii "k")) (x.shown none now) :=
  string_history (by decide) rfl (by decide)

end StringObject

end RedisLike
