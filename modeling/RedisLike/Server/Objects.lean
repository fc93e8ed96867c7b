import RedisLike.Lib.Timed
import RedisLike.Lib.Trace
import RedisLike.Command.Singles
import RedisLike.Server.History

/-!
# RedisLike.Server.Objects

The objects of the server, one type at a time, as their clients think of them.

A `Representation` says what the value of an entry stands for; a `Call` what a
command may reply, and what it leaves.  An `ObjectSpec` is a table of calls whose
handlers meet them, beside the commands that give an object of any type its
deadline or ask for it.  Whatever happens on other keys, a key that is written by
these commands only shows the histories of its specification, in which the object
is gone from its deadline on (`history_allowed`).
-/

namespace RedisLike

open RedisServer

/-- What a command may reply to its arguments, and the state it leaves. -/
abbrev Call (σ : Type) := List Bytes → σ → Bytes → σ → Prop

namespace Call

variable {σ : Type}

/-- A command that reads. -/
def reading (reply : List Bytes → σ → Bytes → Prop) : Call σ :=
  fun args s r s' => reply args s r ∧ s' = s

/-- A command that checks its arguments. -/
def checked (ok : List Bytes → Bool) (call : Call σ) : Call σ :=
  fun args s r s' => if ok args then call args s r s' else isError r = true ∧ s' = s

/-- The arguments are refused, or they have passed the check. -/
theorem checked_cases {ok : List Bytes → Bool} {call : Call σ} {args : List Bytes} {s s' : σ}
    {r : Bytes} (h : call.checked ok args s r s') :
    isError r = true ∧ s' = s ∨ ok args = true ∧ call args s r s' := by
  unfold checked at h
  split at h
  · next hok => exact .inr ⟨hok, h⟩
  · exact .inl h

end Call

/-- An action, with what is seen of the entry afterwards. -/
theorem Performs.run_live {f : Dict → Bytes × Dict} {now : TimePoint} {key : Bytes}
    {a : KeyAction} (hf : Performs f now key a) (db : Dict) :
    (f db).1 = (a.run (db.live now key)).1 ∧ ∀ now', now ≤ now' →
      (f db).2.live now' key = liveEntry now' (a.run (db.live now key)).2 := by
  cases a with
  | idle reply =>
      rw [hf db]
      exact ⟨rfl, fun now' hle => (liveEntry_of_le hle _).symm⟩
  | act g =>
      obtain ⟨hreply, hget⟩ := hf db
      exact ⟨hreply, fun now' _ => by rw [Dict.live, hget key, if_pos rfl]; rfl⟩

/-- The commands that inspect an entry of any type. -/
theorem inspectKey_performs (arity : Bytes) (reply : TimePoint → Option RedisObject → Bytes)
    (ctx : CmdContext) :
    Performs (CmdHandler.on (inspectKey arity reply) ctx) ctx.now (ctx.arg 0)
      (if ctx.cmd.args.isEmpty = true then .idle arity
      else .act fun e => (reply ctx.now e, e)) := by
  unfold CmdHandler.on inspectKey
  by_cases h : ctx.cmd.args.isEmpty = true
  · simp only [if_pos h]
    exact fun _ => rfl
  · simp only [if_neg h]
    refine fun db => ⟨?_, fun k => ?_⟩
    · exact congrArg (reply ctx.now) (get_checkExpire_self { ctx with db := db } _)
    · exact get_checkExpire { ctx with db := db } _ k

/-- The state of an object, with its deadline. -/
abbrev ObjectState (σ : Type) := Timed σ TimePoint

/-- What a command may reply at some time, and the object it leaves. -/
abbrev TimedCall (σ : Type) :=
  TimePoint → List Bytes → ObjectState σ → Bytes → ObjectState σ → Prop

/-- What the values of one type stand for, and the state of a key that is missing. -/
structure Representation (α σ : Type) where
  kind : Kind α
  type_wrap : ∀ a, (kind.wrap a).objType = kind.type := by exact fun _ => rfl
  Rep : α → σ → Prop
  init : σ

namespace Representation

variable {α σ : Type} (R : Representation α σ)

/-- What an entry stands for: one that is there never stands for nothing. -/
inductive Holds : Option RedisObject → ObjectState σ → Prop where
  | missing : Holds none (.gone R.init)
  | present (obj : RedisObject) (a : α) (s : σ) (hvalue : obj.value = R.kind.wrap a)
      (hrep : R.Rep a s) (hpresent : s ≠ R.init) : Holds (some obj) ⟨s, obj.expireAt⟩

/-- `f` does on the entry of the key what the call says. -/
def RefinesTimedAt (f : Dict → Bytes × Dict) (now : TimePoint) (key : Bytes)
    (call : ObjectState σ → Bytes → ObjectState σ → Prop) : Prop :=
  ∃ a, Performs f now key a ∧
    ∀ e x, R.Holds e x → ∃ x', call x (a.run e).1 x' ∧ R.Holds (a.run e).2 x'

/-- A call that does not look at the deadline. -/
def kept (call : σ → Bytes → σ → Prop) (x : ObjectState σ) (reply : Bytes)
    (x' : ObjectState σ) : Prop :=
  Timed.Kept R.init (fun s s' => call s reply s') x x'

/-- The same for a call that does not look at the deadline. -/
def RefinesAt (f : Dict → Bytes × Dict) (now : TimePoint) (key : Bytes)
    (call : σ → Bytes → σ → Prop) : Prop :=
  R.RefinesTimedAt f now key (R.kept call)

variable {R} {f : Dict → Bytes × Dict} {now : TimePoint} {key : Bytes}
  {call : σ → Bytes → σ → Prop}

/-- Nothing has no deadline. -/
theorem Holds.deadline_eq_none {e : Option RedisObject} {x : ObjectState σ} (h : R.Holds e x)
    (hinit : x.state = R.init) : x.deadline = none := by
  cases h with
  | missing => rfl
  | present obj a s hvalue hrep hpresent => exact absurd hinit hpresent

/-- A call that changes nothing. -/
theorem Holds.kept {e : Option RedisObject} {x : ObjectState σ} (h : R.Holds e x) {reply : Bytes}
    (hcall : call x.state reply x.state) : R.kept call x reply x :=
  ⟨hcall, h.deadline_eq_none, fun _ => rfl⟩

/-- What is seen of an entry stands for what is shown of its state. -/
theorem Holds.live {e : Option RedisObject} {x : ObjectState σ} (h : R.Holds e x)
    (now : TimePoint) : R.Holds (liveEntry now e) (x.shown R.init now) := by
  cases h with
  | missing =>
      rw [Timed.shown_gone]
      exact .missing
  | present obj a s hvalue hrep hpresent =>
      have hexpired : obj.isExpired now = obj.expireAt.any (· ≤ now) := by
        unfold RedisObject.isExpired
        cases obj.expireAt <;> rfl
      unfold Timed.shown
      rw [← hexpired]
      by_cases he : obj.isExpired now = true
      · rw [if_pos he, show liveEntry now (some obj) = none by simp [liveEntry, Option.filter, he]]
        exact .missing
      · rw [if_neg he, show liveEntry now (some obj) = some obj by
          simp [liveEntry, Option.filter, he]]
        exact .present obj a s hvalue hrep hpresent

/-! ## The shapes of the handlers -/

theorem refinesTimedAt_reply {call : ObjectState σ → Bytes → ObjectState σ → Prop} (reply : Bytes)
    (hf : ∀ db, f db = (reply, db)) (hcall : ∀ e x, R.Holds e x → call x reply x) :
    R.RefinesTimedAt f now key call :=
  ⟨.idle reply, hf, fun e x h => ⟨x, hcall e x h, h⟩⟩

theorem refinesAt_reply (reply : Bytes) (hf : ∀ db, f db = (reply, db))
    (hcall : ∀ s, call s reply s) : R.RefinesAt f now key call :=
  refinesTimedAt_reply reply hf fun _ x h => h.kept (hcall x.state)

/-- A handler that reads. -/
theorem refinesAt_read {absent : Bytes} {present : α → Bytes}
    (hf : Performs f now key (.read R.kind.as absent present))
    (hmissing : call R.init absent R.init)
    (hpresent : ∀ a s, R.Rep a s → s ≠ R.init → call s (present a) s) :
    R.RefinesAt f now key call := by
  refine ⟨_, hf, fun e x h => ⟨x, h.kept ?_, h⟩⟩
  cases h with
  | missing => exact hmissing
  | present obj a s hvalue hrep hs =>
      have has : R.kind.as obj.value = some a := by rw [hvalue, R.kind.as_wrap]
      simp only [KeyAction.run, KeyAction.read, Option.bind_some, has]
      exact hpresent a s hrep hs

/-- A handler that stores: it starts from a fresh value when there is none, and what
it stores is there. -/
theorem refinesAt_create {step : α → Bytes × ValueVariant} {fresh : α}
    (hf : Performs f now key (.create R.kind.as (RedisObject.create (R.kind.wrap fresh)) step))
    (hfresh : R.Rep fresh R.init)
    (hstep : ∀ a s, R.Rep a s → ∃ b s', (step a).2 = R.kind.wrap b ∧ R.Rep b s' ∧
      s' ≠ R.init ∧ call s (step a).1 s') :
    R.RefinesAt f now key call := by
  refine ⟨_, hf, fun e x h => ?_⟩
  have hvalue : ∃ a, R.kind.as (e.getD (RedisObject.create (R.kind.wrap fresh))).value = some a ∧
      R.Rep a x.state ∧
      (e.getD (RedisObject.create (R.kind.wrap fresh))).expireAt = x.deadline := by
    cases h with
    | missing => exact ⟨fresh, R.kind.as_wrap fresh, hfresh, rfl⟩
    | present obj a s hvalue hrep hpresent =>
        refine ⟨a, ?_, hrep, rfl⟩
        rw [Option.getD_some, hvalue, R.kind.as_wrap]
  obtain ⟨a, has, hrep, hexpire⟩ := hvalue
  obtain ⟨b, s', hb, hrep', hs', hcall⟩ := hstep a x.state hrep
  refine ⟨⟨s', x.deadline⟩, ⟨?_, fun h => absurd h hs', fun _ => rfl⟩, ?_⟩
  · simpa only [KeyAction.run, KeyAction.create, has] using hcall
  · simp only [KeyAction.run, KeyAction.create, has]
    rw [← hexpire]
    exact .present _ b s' (by rw [RedisObject.value_withValue, hb]) hrep' hs'

/-- A handler that takes elements out, and deletes the key when nothing is left. -/
theorem refinesAt_remove {absent : Bytes} {step : α → Bytes × ValueVariant × Bool}
    (hf : Performs f now key (.remove R.kind.as absent step))
    (hmissing : call R.init absent R.init)
    (hstep : ∀ a s, R.Rep a s → s ≠ R.init → ∃ b s', (step a).2.1 = R.kind.wrap b ∧
      R.Rep b s' ∧ ((step a).2.2 = true ↔ s' = R.init) ∧ call s (step a).1 s') :
    R.RefinesAt f now key call := by
  refine ⟨_, hf, fun e x h => ?_⟩
  cases h with
  | missing => exact ⟨.gone R.init, Holds.missing.kept hmissing, .missing⟩
  | present obj a s hvalue hrep hs =>
      have has : R.kind.as obj.value = some a := by rw [hvalue, R.kind.as_wrap]
      obtain ⟨b, s', hb, hrep', hempty, hcall⟩ := hstep a s hrep hs
      simp only [KeyAction.run, KeyAction.remove, has]
      by_cases hs' : s' = R.init
      · rw [if_pos (hempty.mpr hs')]
        exact ⟨.gone R.init, ⟨hs' ▸ hcall, fun _ => rfl, fun h => absurd rfl h⟩, .missing⟩
      · rw [if_neg (mt hempty.mp hs')]
        exact ⟨⟨s', obj.expireAt⟩, ⟨hcall, fun h => absurd h hs', fun _ => rfl⟩,
          .present _ b s' hb hrep' hs'⟩

/-! ## Checks of the arguments -/

theorem le_iff_not_lt (m n : Nat) : decide (n ≤ m) = true ↔ ¬ m < n := by
  rw [decide_eq_true_eq, not_lt]

theorem not_isEmpty_iff (l : List Bytes) : (!l.isEmpty) = true ↔ ¬ l.isEmpty = true := by
  cases l <;> simp

theorem refinesAt_refused {ok : List Bytes → Bool} {call : Call σ} {args : List Bytes} {err : Bytes}
    (hok : ok args = false) (herr : isError err = true) (hf : Performs f now key (.idle err)) :
    R.RefinesAt f now key (call.checked ok args) := by
  unfold Call.checked
  simp only [hok, Bool.false_eq_true, if_false]
  exact refinesAt_reply err hf fun _ => ⟨herr, rfl⟩

theorem refinesAt_accepted {ok : List Bytes → Bool} {call : Call σ} {args : List Bytes}
    (hok : ok args = true) (h : R.RefinesAt f now key (call args)) :
    R.RefinesAt f now key (call.checked ok args) := by
  unfold Call.checked
  simpa only [hok, if_true] using h

/-- A writing command with a check of its arguments. -/
theorem refinesAt_action {ok : List Bytes → Bool} {call : Call σ} {args : List Bytes} {err : Bytes}
    {c : Prop} [Decidable c] {a : KeyAction} (herr : isError err = true)
    (hf : Performs f now key (if c then .idle err else a)) (hok : ok args = true ↔ ¬ c)
    (hgood : ¬ c → Performs f now key a → R.RefinesAt f now key (call args)) :
    R.RefinesAt f now key (call.checked ok args) := by
  by_cases hc : c
  · rw [if_pos hc] at hf
    exact refinesAt_refused (Bool.eq_false_iff.mpr (mt hok.mp (not_not.mpr hc))) herr hf
  · rw [if_neg hc] at hf
    exact refinesAt_accepted (hok.mpr hc) (hgood hc hf)

/-- A reading command with a check of its arguments. -/
theorem refinesAt_readObject {handler : CmdHandler} {ctx : CmdContext} {ok : List Bytes → Bool}
    {reply : List Bytes → σ → Bytes → Prop} {err absent : Bytes} {present : Dict → α → Bytes}
    {c : Prop} [Decidable c] (herr : isError err = true)
    (hf : ∀ db, handler { ctx with db := db } = if c then (err, db)
      else readObject R.kind.as { ctx with db := db } (ctx.arg 0) absent (present db))
    (hconst : ∀ db, present db = present ∅) (hok : ok ctx.cmd.args = true ↔ ¬ c)
    (hmissing : reply ctx.cmd.args R.init absent)
    (hpresent : ∀ a s, R.Rep a s → s ≠ R.init → reply ctx.cmd.args s (present ∅ a)) :
    R.RefinesAt (CmdHandler.on handler ctx) ctx.now (ctx.arg 0)
      (Call.checked ok (.reading reply) ctx.cmd.args) := by
  have hspec : Performs (CmdHandler.on handler ctx) ctx.now (ctx.arg 0)
      (if c then .idle err else .read R.kind.as absent (present ∅)) := by
    have hon : CmdHandler.on handler ctx = fun db => if c then (err, db)
        else readObject R.kind.as { ctx with db := db } (ctx.arg 0) absent (present ∅) :=
      funext fun db => (hf db).trans (by rw [hconst db])
    rw [hon]
    by_cases hc : c
    · simp only [if_pos hc]
      exact fun _ => rfl
    · simp only [if_neg hc]
      exact performs_read absent (present ∅)
  exact refinesAt_action herr hspec hok fun _ hread => refinesAt_read hread ⟨hmissing, rfl⟩
    fun a s hrep hs => ⟨hpresent a s hrep hs, rfl⟩

/-- A reading command whose arguments are read first. -/
theorem refinesAt_parsed {β : Type} {handler : CmdHandler} {ctx : CmdContext}
    {parse : List Bytes → Option β} {n : Nat} {reply : List Bytes → σ → Bytes → Prop}
    {err err' absent : Bytes} {present : β → α → Bytes} (herr : isError err = true)
    (herr' : isError err' = true)
    (hf : ∀ db, handler { ctx with db := db } = if ctx.cmd.args.length < n then (err, db)
      else (parse ctx.cmd.args).elim (err', db) fun v =>
        readObject R.kind.as { ctx with db := db } (ctx.arg 0) absent (present v))
    (hmissing : ∀ v, parse ctx.cmd.args = some v → reply ctx.cmd.args R.init absent)
    (hpresent : ∀ v, parse ctx.cmd.args = some v → ∀ a s, R.Rep a s → s ≠ R.init →
      reply ctx.cmd.args s (present v a)) :
    R.RefinesAt (CmdHandler.on handler ctx) ctx.now (ctx.arg 0)
      (Call.checked (fun args => n ≤ args.length && (parse args).isSome) (.reading reply)
        ctx.cmd.args) := by
  cases hparse : parse ctx.cmd.args with
  | none =>
      have hidle : ∀ db, CmdHandler.on handler ctx db =
          ((if ctx.cmd.args.length < n then err else err'), db) := by
        intro db
        rw [CmdHandler.on, hf, hparse]
        split <;> rfl
      refine refinesAt_refused ?_ ?_ hidle
      · rw [hparse]
        exact Bool.and_false _
      · split
        · exact herr
        · exact herr'
  | some v =>
      refine @refinesAt_readObject _ _ R handler ctx _ reply err absent (fun _ => present v)
        (ctx.cmd.args.length < n) _ herr (fun db => ?_) (fun _ => rfl) ?_ (hmissing v hparse)
        (hpresent v hparse)
      · rw [hf, hparse]
        rfl
      · rw [hparse, Option.isSome_some, Bool.and_true, le_iff_not_lt]

/-! ## Commands on keys of any type -/

section deadlines

variable (R)

/-- `EXPIRE` and `PEXPIRE`: an object gets a deadline, or is deleted. -/
def expire (add : TimePoint → Int64 → TimePoint) : TimedCall σ := fun now args x reply x' =>
  if 2 ≤ args.length ∧ (parseInt (args.getD 1 [])).isSome then
    reply = RespCodec.integer 0 ∧ x = .gone R.init ∧ x' = x ∨
      reply = RespCodec.integer 1 ∧ x.state ≠ R.init ∧
        ∃ n, parseInt (args.getD 1 []) = some n ∧
          x' = if n > 0 then ⟨x.state, some (add now n)⟩ else .gone R.init
  else isError reply = true ∧ x' = x

/-- The commands that reply something of the object: of its deadline, when it is there. -/
def inspect (absent : Bytes) (present : TimePoint → Option TimePoint → Bytes) : TimedCall σ :=
  fun now args x reply x' => x' = x ∧
    if args.isEmpty then isError reply = true
    else x = .gone R.init ∧ reply = absent ∨
      x.state ≠ R.init ∧ reply = present now x.deadline

/-- The reply of `TTL` and `PTTL`: what is left up to a deadline, in some unit. -/
def leftReply (unit : Int64) (now : TimePoint) (deadline : Option TimePoint) : Bytes :=
  RespCodec.integer (deadline.elim (-1) fun d =>
    if (d - now) / unit ≥ 0 then (d - now) / unit else -2 : Int64).toInt

/-- The commands on keys of any type. -/
def anyCalls : List (Bytes × TimedCall σ) :=
  [ (ascii "EXPIRE", R.expire addSeconds), (ascii "PEXPIRE", R.expire addMilliseconds),
    (ascii "TTL", R.inspect (RespCodec.integer (-2)) (leftReply 1000000000)),
    (ascii "PTTL", R.inspect (RespCodec.integer (-2)) (leftReply 1000000)),
    (ascii "TYPE", R.inspect (RespCodec.simpleString (ascii "none"))
      fun _ _ => RespCodec.simpleString R.kind.type.name) ]

theorem expire_refines (ctx : CmdContext) {arity : Bytes} (harity : isError arity = true)
    (add : TimePoint → Int64 → TimePoint) :
    R.RefinesTimedAt (CmdHandler.on (expireWith arity add) ctx) ctx.now (ctx.arg 0)
      (R.expire add ctx.now ctx.cmd.args) := by
  have hspec := expireWith_performs arity add ctx
  unfold expireAction at hspec
  unfold expire
  by_cases hlen : ctx.cmd.args.length < 2
  · rw [if_pos hlen] at hspec
    simp only [show ¬ 2 ≤ ctx.cmd.args.length by omega, false_and, if_false]
    exact refinesTimedAt_reply arity hspec fun _ _ _ => ⟨harity, rfl⟩
  rw [if_neg hlen] at hspec
  cases hn : parseInt (ctx.cmd.args.getD 1 []) with
  | none =>
      rw [hn] at hspec
      simp only [Option.isSome_none, Bool.false_eq_true, and_false, if_false]
      exact refinesTimedAt_reply _ hspec fun _ _ _ => ⟨isError_error _, rfl⟩
  | some n =>
      rw [hn] at hspec
      simp only [show 2 ≤ ctx.cmd.args.length by omega, Option.isSome_some, and_self, if_true]
      refine ⟨_, hspec, fun e x h => ?_⟩
      cases h with
      | missing => exact ⟨.gone R.init, .inl ⟨rfl, rfl, rfl⟩, .missing⟩
      | present obj a s hvalue hrep hpresent =>
          refine ⟨_, .inr ⟨rfl, hpresent, n, rfl, rfl⟩, ?_⟩
          by_cases hpos : n > 0
          · simp only [KeyAction.run, if_pos hpos]
            exact .present _ a s hvalue hrep hpresent
          · simp only [KeyAction.run, if_neg hpos]
            exact .missing

theorem inspect_refines (ctx : CmdContext) {arity absent : Bytes}
    {present : TimePoint → Option TimePoint → Bytes}
    {reply : TimePoint → Option RedisObject → Bytes} (harity : isError arity = true)
    (hnone : ∀ now, reply now none = absent)
    (hsome : ∀ now obj, obj.value.objType = R.kind.type →
      reply now (some obj) = present now obj.expireAt) :
    R.RefinesTimedAt (CmdHandler.on (inspectKey arity reply) ctx) ctx.now (ctx.arg 0)
      (R.inspect absent present ctx.now ctx.cmd.args) := by
  have hspec := inspectKey_performs arity reply ctx
  unfold inspect
  by_cases hargs : ctx.cmd.args.isEmpty = true
  · rw [if_pos hargs] at hspec
    simp only [if_pos hargs]
    exact refinesTimedAt_reply arity hspec fun _ _ _ => ⟨rfl, harity⟩
  · rw [if_neg hargs] at hspec
    simp only [if_neg hargs]
    refine ⟨_, hspec, fun e x h => ⟨x, ⟨rfl, ?_⟩, h⟩⟩
    cases h with
    | missing => exact .inl ⟨rfl, hnone ctx.now⟩
    | present obj a s hvalue hrep hpresent =>
        refine .inr ⟨hpresent, hsome ctx.now obj ?_⟩
        rw [hvalue, R.type_wrap]

theorem anyCalls_refine : ∀ p ∈ R.anyCalls, ∃ handler, findHandler p.1 = some handler ∧
    ∀ ctx : CmdContext, normalize ctx.cmd.name = p.1 →
      R.RefinesTimedAt (CmdHandler.on handler ctx) ctx.now (ctx.arg 0)
        (p.2 ctx.now ctx.cmd.args) := by
  simp only [anyCalls, List.forall_mem_cons, List.not_mem_nil, false_imp_iff, implies_true,
    and_true]
  refine ⟨⟨_, rfl, fun ctx _ => R.expire_refines ctx (isError_error _) _⟩,
    ⟨_, rfl, fun ctx _ => R.expire_refines ctx (isError_error _) _⟩,
    ⟨_, rfl, fun ctx _ => R.inspect_refines ctx (isError_error _) (fun _ => rfl) ?_⟩,
    ⟨_, rfl, fun ctx _ => R.inspect_refines ctx (isError_error _) (fun _ => rfl) ?_⟩,
    ⟨_, rfl, fun ctx _ => R.inspect_refines ctx (isError_error _) (fun _ => rfl) ?_⟩⟩
  · intro now obj _
    simp only [getTTL]
    cases obj.expireAt <;> rfl
  · intro now obj _
    simp only [getPTTL]
    cases obj.expireAt <;> rfl
  · intro now obj htype
    rw [← htype, ← obj.type_eq]

end deadlines

end Representation

/-- The ends of a range. -/
def rangeArgs (args : List Bytes) : Option (Int64 × Int64) :=
  (parseInt (args.getD 1 [])).bind fun start =>
    (parseInt (args.getD 2 [])).map fun stop => (start, stop)

/-! ## Types of objects -/

/-- A type of object with the calls that its handlers meet, on commands that are
`ok`; `timedCalls` are those that look at the clock or at the deadline. -/
structure ObjectSpec (α σ : Type) extends Representation α σ where
  calls : List (Bytes × Call σ)
  ok : RespCommand → Bool := fun _ => true
  refines : ∀ p ∈ calls, ∃ handler, findHandler p.1 = some handler ∧
    ∀ ctx : CmdContext, normalize ctx.cmd.name = p.1 → ok ctx.cmd = true →
      toRepresentation.RefinesAt (CmdHandler.on handler ctx) ctx.now (ctx.arg 0)
        (p.2 ctx.cmd.args)
  timedCalls : List (Bytes × TimedCall σ) := []
  timedRefines : ∀ p ∈ timedCalls, ∃ handler, findHandler p.1 = some handler ∧
    ∀ ctx : CmdContext, normalize ctx.cmd.name = p.1 →
      toRepresentation.RefinesTimedAt (CmdHandler.on handler ctx) ctx.now (ctx.arg 0)
        (p.2 ctx.now ctx.cmd.args) := by exact fun _ h => nomatch h

namespace ObjectSpec

variable {α σ : Type} (T : ObjectSpec α σ)

/-- The commands on a key of the type, but for `DEL`. -/
def table : List (Bytes × TimedCall σ) :=
  T.anyCalls ++ T.timedCalls ++
    T.calls.map fun p => (p.1, fun _ args => T.kept (p.2 args))

/-- The commands on a key of the type, on what is shown of it: those of its table,
and `DEL`, which may reply anything, as it counts other keys too. -/
def spec : Spec (ObjectState σ) (TimePoint × RespCommand) Bytes := fun x at_ reply x' =>
  if normalize at_.2.name = ascii "DEL" then x' = .gone T.init
  else ∃ call, T.table.lookup (normalize at_.2.name) = some call ∧
    call at_.1 at_.2.args (x.shown T.init at_.1) reply x'

/-- The step of an operation that is a command on the key. -/
def stepOn (key : Bytes) : Op → Option Step
  | .command _ step =>
    if normalize step.cmd.name = ascii "DEL" then if key ∈ step.cmd.args then some step else none
    else if key = step.cmd.args.getD 0 [] ∧ T.ok step.cmd ∧
        (T.table.lookup (normalize step.cmd.name)).isSome then some step
    else none
  | _ => none

/-- Only commands of the type, those for any type, and `DEL` write to the key. -/
def Keeps (key : Bytes) (ops : List Op) : Prop :=
  ∀ op ∈ ops, op.Writes key → (T.stepOn key op).isSome

instance (key : Bytes) (ops : List Op) : Decidable (T.Keeps key ops) :=
  inferInstanceAs (Decidable (∀ op ∈ ops, op.Writes key → (T.stepOn key op).isSome = true))

/-- What the clients see of the key: the commands of the type on it, with their
times and the replies. -/
def history (key : Bytes) (db : Dict) (ops : List Op) : List ((TimePoint × RespCommand) × Bytes) :=
  Spec.history Op.after (fun db op => (T.stepOn key op).map fun step =>
    ((step.now, step.cmd), (response db step).1)) db ops

theorem exists_of_stepOn {key : Bytes} {op : Op} {step : Step} (h : T.stepOn key op = some step) :
    ∃ fd, op = .command fd step ∧
      (normalize step.cmd.name = ascii "DEL" ∧ key ∈ step.cmd.args ∨
        normalize step.cmd.name ≠ ascii "DEL" ∧ key = step.cmd.args.getD 0 [] ∧
          T.ok step.cmd ∧ ∃ call, T.table.lookup (normalize step.cmd.name) = some call) := by
  cases op with
  | accept fd => contradiction
  | expireCheck now rng => contradiction
  | command fd step' =>
      rw [stepOn] at h
      split at h
      · next hdel =>
        rw [Option.ite_none_right_eq_some] at h
        obtain ⟨hkey, ⟨⟩⟩ := h
        exact ⟨fd, rfl, .inl ⟨hdel, hkey⟩⟩
      · next hdel =>
        rw [Option.ite_none_right_eq_some] at h
        obtain ⟨⟨hkey, hok, hcall⟩, ⟨⟩⟩ := h
        exact ⟨fd, rfl, .inr ⟨hdel, hkey, hok, Option.isSome_iff_exists.mp hcall⟩⟩

/-- The handlers meet the table. -/
theorem table_refines : ∀ p ∈ T.table, ∃ handler, findHandler p.1 = some handler ∧
    ∀ ctx : CmdContext, normalize ctx.cmd.name = p.1 → T.ok ctx.cmd = true →
      T.RefinesTimedAt (CmdHandler.on handler ctx) ctx.now (ctx.arg 0)
        (p.2 ctx.now ctx.cmd.args) := by
  intro p hp
  rw [table, List.mem_append, List.mem_append] at hp
  obtain (hp | hp) | hp := hp
  · obtain ⟨handler, hf, h⟩ := T.anyCalls_refine p hp
    exact ⟨handler, hf, fun ctx hname _ => h ctx hname⟩
  · obtain ⟨handler, hf, h⟩ := T.timedRefines p hp
    exact ⟨handler, hf, fun ctx hname _ => h ctx hname⟩
  · obtain ⟨q, hq, rfl⟩ := List.mem_map.mp hp
    exact T.refines q hq

/-- **One command** of the type. -/
theorem response_refines {step : Step} (hok : T.ok step.cmd = true) {call : TimedCall σ}
    (hcall : T.table.lookup (normalize step.cmd.name) = some call) {db : Dict}
    {x : ObjectState σ} (h : T.Holds (db.live step.now (step.cmd.args.getD 0 [])) x) :
    ∃ x', call step.now step.cmd.args x (response db step).1 x' ∧ ∀ now, step.now ≤ now →
      T.Holds ((response db step).2.live now (step.cmd.args.getD 0 [])) (x'.shown T.init now) := by
  obtain ⟨handler, hf, hrefines⟩ := T.table_refines _ (mem_of_lookup_eq_some hcall)
  obtain ⟨a, hspec, ha⟩ := hrefines (step.context db) rfl hok
  have hexec : response db step = CmdHandler.on handler (step.context db) db := by
    rw [response_eq, execute_of_findHandler hf]
    rfl
  obtain ⟨x', hreply, hafter⟩ := ha _ x h
  obtain ⟨hrun, hlive⟩ := hspec.run_live db
  refine ⟨x', ?_, fun now hle => ?_⟩
  · rw [hexec, hrun]
    exact hreply
  · rw [hexec]
    exact hlive now hle ▸ hafter.live now

/-- **A key of one type** shows the histories that its specification allows, and at
any later time what is seen of its entry is what is shown of the object. -/
theorem history_allowed {key : Bytes} {ops : List Op} {db : Dict} (hclock : ClockForward ops)
    (hfree : db.get key = none) (hkeeps : T.Keeps key ops) :
    ∃ x, T.spec.Allowed (.gone T.init) (T.history key db ops) x ∧
      ∀ now, Until now ops → T.Holds ((runOps db ops).live now key) (x.shown T.init now) := by
  refine Spec.allowed_history (R := fun past (x : ObjectState σ) => ∀ now, Until now past →
    T.Holds ((runOps db past).live now key) (x.shown T.init now)) ?_ ?_ ?_
  · intro past op x hpre h hhidden now htime
    have hop : op ∈ ops := hpre.subset (List.mem_append_right past (List.mem_singleton_self op))
    have hwrites : ¬ op.Writes key := fun hw => by
      rw [Option.map_eq_none_iff] at hhidden
      simpa [hhidden] using hkeeps op hop hw
    obtain ⟨hbefore, hlast⟩ := htime.of_append
    rw [runOps_append, runOps_cons, runOps_nil, op.live_after hwrites (hlast op (by simp))]
    exact h now hbefore
  · intro past op x at_ reply hpre h hseen
    obtain ⟨step, hstep, heq⟩ := Option.map_eq_some_iff.mp hseen
    obtain ⟨rfl, rfl⟩ := Prod.mk.inj heq
    obtain ⟨fd, rfl, ⟨hdel, hkey⟩ | ⟨hdel, rfl, hok, call, hcall⟩⟩ := T.exists_of_stepOn hstep
    · refine ⟨.gone T.init, by rw [spec, if_pos hdel], fun now _ => ?_⟩
      have hnone : (response (runOps db past) step).2.get key = none := by
        rw [response_eq,
          (@execute_of_overwrites (step.context (runOps db past)) key (.inl ⟨hdel, hkey⟩)).2]
        exact if_neg (hdel ▸ by decide)
      rw [runOps_append, runOps_cons, runOps_nil, Op.after, Dict.live, hnone, Timed.shown_gone]
      exact .missing
    · obtain ⟨post, hops⟩ := hpre
      rw [List.append_assoc] at hops
      have huntil : Until step.now past := (hops ▸ hclock : ClockForward _).until
      obtain ⟨x', hreply, hafter⟩ := T.response_refines hok hcall (h step.now huntil)
      refine ⟨x', ?_, fun now htime => ?_⟩
      · rw [spec, if_neg hdel]
        exact ⟨call, hcall, hreply⟩
      · rw [runOps_append, runOps_cons, runOps_nil]
        exact hafter now (htime.of_append.2 _ (List.mem_singleton_self _) step.now rfl)
  · intro now _
    rw [runOps_nil, Dict.live, hfree, Timed.shown_gone]
    exact .missing

/-- While nobody deletes it or gives it a deadline, an object has none, and it changes
by the calls of its type only. -/
theorem spec_untimed (htimed : T.timedCalls = []) {x x' : ObjectState σ}
    {at_ : TimePoint × RespCommand} {reply : Bytes} (hx : x.deadline = none)
    (h : T.spec x at_ reply x')
    (hname : normalize at_.2.name ∉ [ascii "DEL", ascii "EXPIRE", ascii "PEXPIRE"]) :
    x'.deadline = none ∧
      (normalize at_.2.name ∈ [ascii "TTL", ascii "PTTL", ascii "TYPE"] ∧ x' = x ∨
        ∃ call, (normalize at_.2.name, call) ∈ T.calls ∧
          call at_.2.args x.state reply x'.state) := by
  simp only [List.mem_cons, List.not_mem_nil, or_false, not_or] at hname
  obtain ⟨hdel, hexpire, hpexpire⟩ := hname
  rw [spec, if_neg hdel, Timed.shown_of_deadline_none hx] at h
  obtain ⟨call, hcall, h⟩ := h
  have hmem := mem_of_lookup_eq_some hcall
  rw [table, htimed, List.append_nil, List.mem_append] at hmem
  obtain hmem | hmem := hmem
  · simp only [Representation.anyCalls, List.mem_cons, Prod.mk.injEq, List.not_mem_nil,
      or_false] at hmem
    obtain ⟨hn, -⟩ | ⟨hn, -⟩ | ⟨hn, rfl⟩ | ⟨hn, rfl⟩ | ⟨hn, rfl⟩ := hmem
    · exact absurd hn hexpire
    · exact absurd hn hpexpire
    all_goals
      obtain ⟨rfl, -⟩ := h
      exact ⟨hx, .inl ⟨by rw [hn]; decide, rfl⟩⟩
  · obtain ⟨⟨name, call'⟩, hp, heq⟩ := List.mem_map.mp hmem
    obtain ⟨hn, rfl⟩ := Prod.mk.inj heq
    obtain ⟨hstep, hgone, hkept⟩ := h
    refine ⟨?_, .inr ⟨call', hn ▸ hp, hstep⟩⟩
    by_cases hinit : x'.state = T.init
    · exact hgone hinit
    · exact (hkept hinit).trans hx

end ObjectSpec

end RedisLike
