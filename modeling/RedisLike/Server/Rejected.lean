import RedisLike.Command.Isolation
import RedisLike.Server.Log

/-!
# RedisLike.Server.Rejected

Whether `ProcessCommand` logs a command that it has refused.

The filter of the log knows an error by its first bytes, `-ERR`.  Every error of
a writing command starts so but one, `-WRONGTYPE`: the reply of a command that
creates a missing key to a key of another type (`Clash`).  Such a command is
logged, and no other that fails (`logsAccepted_iff`).
-/

namespace RedisLike

open KeyAction

/-! ## The codes of the errors -/

/-- The first bytes of an error that the filter of the log knows. -/
def hasErrCode (reply : Bytes) : Bool := (ascii "-ERR").isPrefixOf reply

/-- A command that creates a missing key finds one of another type. -/
def Clash (name : Bytes) (args : List Bytes) (e : Option RedisObject) : Prop :=
  Refuses name args ∧
    ∃ t, familyTypes.lookup name = some t ∧ ∃ obj, e = some obj ∧ obj.type ≠ t

theorem setOptions_coded {opts : List Bytes} {o : SetOptions} {reply : Bytes}
    (h : setOptions opts o = .error reply) : hasErrCode reply = true := by
  fun_induction setOptions opts o with
  | case1 => cases h
  | case2 _ _ _ _ _ ih => exact ih h
  | case3 _ _ _ _ _ _ ih => exact ih h
  | case4 => cases h; rfl
  | case5 => cases h; rfl
  | case6 => cases h; rfl
  | case7 => simp_all
  | case8 => cases h; rfl
  | case9 => cases h; rfl
  | case10 => cases h; rfl
  | case11 => simp_all
  | case12 => cases h; rfl

namespace KeyAction

/-- The errors of the action have the code `ERR`, but for the entries of `clash`. -/
def Coded (clash : Option RedisObject → Prop) : KeyAction → Prop
  | idle reply => isError reply = true → hasErrCode reply = true
  | act g => ∀ e, isError (g e).1 = true → hasErrCode (g e).1 = true ∨ clash e

variable {clash : Option RedisObject → Prop} {α : Type} {as : ValueVariant → Option α}
  {reply : Bytes}

theorem coded_idle (h : hasErrCode reply = true) : (idle reply).Coded clash := fun _ => h

theorem Coded.ite {c : Prop} [Decidable c] {a : KeyAction} (h : hasErrCode reply = true)
    (ha : a.Coded clash) : (if c then idle reply else a).Coded clash := by
  split
  · exact coded_idle h
  · exact ha

/-- A command that creates fails at an object of another type, and where `step` does. -/
theorem coded_create {t : ObjType} {c : Prop} [Decidable c] {fresh : RedisObject}
    {step : α → Bytes × ValueVariant} (h : hasErrCode reply = true)
    (has : ∀ v : ValueVariant, v.objType = t → (as v).isSome)
    (hfresh : fresh.value.objType = t)
    (hstep : ∀ a, isError (step a).1 = true → hasErrCode (step a).1 = true)
    (hclash : ¬ c → ∀ obj : RedisObject, obj.type ≠ t → clash (some obj)) :
    (if c then idle reply else create as fresh step).Coded clash := by
  split
  · exact coded_idle h
  next hif =>
  intro e
  cases hv : as (e.getD fresh).value with
  | some a =>
      simp only [hv]
      exact fun he => .inl (hstep a he)
  | none =>
      have htype : (e.getD fresh).value.objType ≠ t := fun ht => by
        have hsome := has _ ht
        rw [hv] at hsome
        contradiction
      cases e with
      | none => exact absurd hfresh htype
      | some obj => exact fun _ => .inr (hclash hif obj (by rwa [obj.type_eq]))

theorem coded_remove {absent : Bytes} {step : α → Bytes × ValueVariant × Bool}
    (habsent : isError absent = false) (hstep : ∀ a, isError (step a).1 = false) :
    (remove as absent step).Coded clash := by
  intro e
  cases e with
  | none => simp [habsent]
  | some obj =>
      cases hv : as obj.value with
      | none => simp [hv, habsent]
      | some a => simp [hv, hstep a]

end KeyAction

/-! ## The writing commands -/

theorem setAction_coded {clash : Option RedisObject → Prop} (args : List Bytes)
    (now : TimePoint) : (setAction args now).Coded clash := by
  unfold setAction
  refine Coded.ite rfl ?_
  cases hopts : setOptions (args.drop 2) {} with
  | error reply => exact coded_idle (setOptions_coded hopts)
  | ok o =>
      refine Coded.ite rfl fun e he => ?_
      revert he
      dsimp only
      split
      · simp
      · split <;> simp

theorem expireAction_coded {clash : Option RedisObject → Prop} {arity : Bytes}
    (h : hasErrCode arity = true) (add : TimePoint → Int64 → TimePoint) (args : List Bytes)
    (now : TimePoint) : (expireAction arity add args now).Coded clash := by
  unfold expireAction
  refine Coded.ite h ?_
  cases parseInt (args.getD 1 []) with
  | none => exact coded_idle rfl
  | some n =>
      intro e
      cases e with
      | none => simp
      | some obj => simp

theorem popAction_coded {clash : Option RedisObject → Prop} {arity : Bytes}
    (h : hasErrCode arity = true) (pop : RedisList → Option (Bytes × RedisList))
    (args : List Bytes) : (popAction arity pop args).Coded clash := by
  unfold popAction
  refine Coded.ite h ?_
  cases (if args.length ≥ 2 then parseInt (args.getD 1 []) else some 1) with
  | none => exact coded_idle rfl
  | some count =>
      exact Coded.ite rfl (coded_remove rfl fun lst =>
        isError_popReply _ fun r hr => isError_of_mem_popLoop hr)

theorem sPopAction_coded {clash : Option RedisObject → Prop} (args : List Bytes)
    (rng : Nat → Nat → Nat) : (sPopAction args rng).Coded clash := by
  unfold sPopAction
  refine Coded.ite rfl ?_
  cases sPopArg args with
  | none => exact coded_idle rfl
  | some count =>
      refine coded_remove ?_ fun set =>
        isError_popReply (decide (args.length ≥ 2)) fun r hr => isError_of_mem_sPopLoop hr
      split <;> rfl

/-- The families, and what `Refuses` says of a creating command behind its check. -/
theorem clash_of_type {name : Bytes} {t : ObjType} (ht : familyTypes.lookup name = some t)
    {args : List Bytes} {c : Prop} (hrefuses : Refuses name args ↔ ¬ c) (hc : ¬ c)
    (obj : RedisObject) (hobj : obj.type ≠ t) : Clash name args (some obj) :=
  ⟨hrefuses.mpr hc, t, ht, obj, rfl, hobj⟩

theorem zAddAction_coded (args : List Bytes) (rng : Nat → Nat → Nat) :
    (zAddAction args rng).Coded (Clash (ascii "ZADD") args) := by
  refine coded_create rfl (fun _ => isSome_asZSet) rfl (fun sl => ?_)
    (clash_of_type rfl (refuses_pairs (by decide) args))
  cases (zAddLoop rng (args.drop 1) 0 sl 0).1 with
  | none => exact fun _ => rfl
  | some added => simp

/-- **The errors of the writing commands** have the code `ERR`, but for a clash. -/
theorem writeActions_coded : ∀ p ∈ writeActions, ∀ args now rng,
    (p.2 args now rng).Coded (Clash p.1 args) := by
  simp only [writeActions, List.forall_mem_cons, List.not_mem_nil, false_imp_iff, implies_true,
    and_true]
  exact ⟨fun args now _ => setAction_coded args now,
    fun args now _ => expireAction_coded rfl _ args now,
    fun args now _ => expireAction_coded rfl _ args now,
    fun args _ _ => coded_create rfl (fun _ => isSome_asHash) rfl (by simp)
      (clash_of_type rfl (refuses_pairs (by decide) args)),
    fun args _ _ => Coded.ite rfl (coded_remove rfl fun _ => rfl),
    fun args _ _ => coded_create rfl (fun _ => isSome_asList) rfl (by simp)
      (clash_of_type rfl (refuses_push (by decide) args)),
    fun args _ _ => coded_create rfl (fun _ => isSome_asList) rfl (by simp)
      (clash_of_type rfl (refuses_push (by decide) args)),
    fun args _ _ => popAction_coded rfl _ args, fun args _ _ => popAction_coded rfl _ args,
    fun args _ _ => coded_create rfl (fun _ => isSome_asSet) rfl (by simp)
      (clash_of_type rfl (refuses_push (by decide) args)),
    fun args _ _ => Coded.ite rfl (coded_remove rfl fun _ => rfl),
    fun args _ rng => sPopAction_coded args rng, fun args _ rng => zAddAction_coded args rng,
    fun args _ _ => Coded.ite rfl (coded_remove rfl fun _ => rfl)⟩

/-! ## Commands -/

/-- The commands of the log write to one key, `DEL` apart. -/
theorem exists_performs_of_mem_writes {name : Bytes} (h : name ∈ AofLogger.writes) :
    name = ascii "DEL" ∨ ∃ act handler, (name, act) ∈ writeActions ∧
      findHandler name = some handler ∧ ∀ ctx : CmdContext,
        Performs (CmdHandler.on handler ctx) ctx.now (ctx.arg 0)
          (act ctx.cmd.args ctx.now ctx.rng) := by
  by_cases hdel : name = ascii "DEL"
  · exact .inl hdel
  have hall : ∀ name ∈ AofLogger.writes, name ≠ ascii "DEL" →
      (writeActions.lookup name).isSome := by decide
  obtain ⟨handler, hf⟩ := Option.isSome_iff_exists.mp (RedisServer.writes_registered h).1
  obtain ⟨act, hact, hspec⟩ | ⟨hnone, -⟩ := findHandler_spec hf
  · exact .inr ⟨act, handler, mem_of_lookup_eq_some hact, hf, hspec⟩
  · have hsome := hall name h hdel
    rw [hnone] at hsome
    contradiction

/-- A writing command that fails without the code `ERR` has met a key of another type. -/
theorem clash_of_isError {ctx : CmdContext} (hwrite : normalize ctx.cmd.name ∈ AofLogger.writes)
    (herror : isError (execute ctx).1 = true) (hcode : hasErrCode (execute ctx).1 = false) :
    Clash (normalize ctx.cmd.name) ctx.cmd.args (ctx.db.live ctx.now (ctx.arg 0)) := by
  obtain hdel | ⟨act, handler, hmem, hf, hspec⟩ := exists_performs_of_mem_writes hwrite
  · have hf : findHandler (normalize ctx.cmd.name) = some delCmd := by rw [hdel]; rfl
    rw [execute_of_findHandler hf, delCmd] at herror hcode
    by_cases hargs : ctx.cmd.args.isEmpty = true
    · rw [if_pos hargs] at hcode
      exact absurd (show true = false from hcode) (by decide)
    · rw [if_neg hargs, isError_integer] at herror
      contradiction
  · rw [execute_of_findHandler hf] at herror hcode
    have hcoded : (act ctx.cmd.args ctx.now ctx.rng).Coded
        (Clash (normalize ctx.cmd.name) ctx.cmd.args) := writeActions_coded _ hmem _ _ _
    have hperf := hspec ctx
    cases ha : act ctx.cmd.args ctx.now ctx.rng with
    | idle reply =>
        rw [ha] at hperf hcoded
        have hreply : (handler ctx).1 = reply := congrArg Prod.fst (hperf ctx.db)
        rw [hreply] at herror hcode
        rw [hcoded herror] at hcode
        contradiction
    | act g =>
        rw [ha] at hperf hcoded
        have hreply : (handler ctx).1 = (g (ctx.db.live ctx.now (ctx.arg 0))).1 :=
          (hperf ctx.db).1
        rw [hreply] at herror hcode
        rcases hcoded _ herror with hc | hc
        · rw [hc] at hcode
          contradiction
        · exact hc

/-- A command that meets a key of another type is refused with `WRONGTYPE`. -/
theorem wrongType_of_clash {ctx : CmdContext}
    (h : Clash (normalize ctx.cmd.name) ctx.cmd.args (ctx.db.live ctx.now (ctx.arg 0))) :
    (execute ctx).1 = wrongType := by
  obtain ⟨hrefuses, t, ht, obj, hobj, hne⟩ := h
  obtain ⟨handler, hf, hisolated⟩ := familyTypes_isolated _ (mem_of_lookup_eq_some ht)
  obtain ⟨a, hspec, ha⟩ := hisolated ctx
  rw [execute_of_findHandler hf]
  cases a with
  | idle reply => exact absurd hrefuses ha
  | act g =>
      have hreply : (handler ctx).1 = (g (ctx.db.live ctx.now (ctx.arg 0))).1 :=
        (hspec ctx.db).1
      rw [hreply, hobj]
      exact ((ha obj).1 (by rwa [← obj.type_eq])).2.1 hrefuses

/-- The commands that create a missing key are in the table of the log. -/
theorem mem_writes_of_refuses {name : Bytes} {args : List Bytes} (h : Refuses name args) :
    name ∈ AofLogger.writes := by
  have hall : ∀ name ∈ [ascii "HSET", ascii "ZADD", ascii "LPUSH", ascii "RPUSH", ascii "SADD"],
      name ∈ AofLogger.writes := by decide
  by_contra hne
  exact not_refuses (fun hmem => hne (hall name hmem)) h

namespace RedisServer

theorem process_log (server : RedisServer) (step : Step) :
    (server.process step).log =
      if logs server.db step then server.log ++ step.cmd.encode else server.log := by
  unfold process
  dsimp only
  split <;> rfl

theorem encode_ne_nil (cmd : RespCommand) : cmd.encode ≠ [] := by
  rw [encode_eq]
  exact List.cons_ne_nil _ _

/-- What `ProcessCommand` should promise of the log: a command that is answered
with an error is not appended; what is appended is a writing command that was
answered without one. -/
def LogsAccepted (client : Client) (server : RedisServer) (step : Step) : Prop :=
  let next := processCommand client server step
  ∀ reply, next.1.writeBuf = client.writeBuf ++ reply →
    (isError reply = true → next.2.log = server.log) ∧
      (next.2.log ≠ server.log → next.2.log = server.log ++ step.cmd.encode ∧
        normalize step.cmd.name ∈ AofLogger.writes ∧ isError reply = false)

/-- **Which refused commands are logged**: the log keeps its promise of a command
unless that creates a missing key and finds one of another type. -/
theorem logsAccepted_iff (client : Client) (server : RedisServer) (step : Step) :
    LogsAccepted client server step ↔ ¬ Clash (normalize step.cmd.name) step.cmd.args
      (server.db.live step.now (step.cmd.args.getD 0 [])) := by
  have hlog := process_log server step
  have hreply : (response server.db step).1 = (execute (step.context server.db)).1 := by
    rw [response_eq]
  constructor
  · intro h hclash
    have hwrong : (response server.db step).1 = wrongType :=
      hreply.trans (@wrongType_of_clash (step.context server.db) hclash)
    have hlogs : logs server.db step = true := by
      rw [logs, hwrong, Bool.and_eq_true]
      exact ⟨(isWriteCommand_normalize _).mpr (mem_writes_of_refuses hclash.1), rfl⟩
    rw [if_pos hlogs] at hlog
    have hkept := (h (response server.db step).1 rfl).1 (by rw [hwrong]; rfl)
    exact encode_ne_nil step.cmd (List.append_right_eq_self.mp (hlog.symm.trans hkept))
  · intro hclash reply hbuf
    obtain rfl := List.append_cancel_left hbuf
    by_cases hlogs : logs server.db step = true
    · have hwrite := normalize_mem_of_logs hlogs
      have hok : isError (response server.db step).1 = false := by
        rw [logs, Bool.and_eq_true, Bool.not_eq_true'] at hlogs
        rw [hreply] at hlogs ⊢
        by_contra herror
        rw [Bool.not_eq_false] at herror
        exact hclash (@clash_of_isError (step.context server.db) hwrite herror hlogs.2)
      rw [if_pos hlogs] at hlog
      refine ⟨fun herror => ?_, fun _ => ⟨hlog, hwrite, hok⟩⟩
      rw [hok] at herror
      contradiction
    · rw [if_neg hlogs] at hlog
      exact ⟨fun _ => hlog, fun hne => absurd hlog hne⟩

/-- A `LPUSH` to a string is refused, and logged. -/
theorem not_logsAccepted_lpush : ¬ LogsAccepted {} ⟨stringEntry, none, []⟩
    ⟨⟨1, fun _ _ => 0⟩, ⟨ascii "LPUSH", [ascii "k", ascii "v"]⟩⟩ := by
  intro h
  have hkept := (h wrongType (by decide)).1 rfl
  exact absurd hkept (by decide)

end RedisServer

end RedisLike
