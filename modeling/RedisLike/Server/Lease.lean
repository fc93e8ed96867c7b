import RedisLike.Lib.Lease
import RedisLike.Command.Congruence
import RedisLike.Server.History

/-!
# RedisLike.Server.Lease

`SET key token NX PX ms` as a lease on a key.

When the clients ask for a lease by such a `SET` and give it back by `DEL`, and
write to the key in no other way, the server implements the lease of
`RedisLike.Lib.Lease`, whatever else happens on other keys and whatever the
periodic checks find (`runOps_lease`).
-/

namespace RedisLike

open RedisServer Lease

/-- The time to live that a `SET` with `NX` gives. -/
def leaseTerm (args : List Bytes) : Option Int64 :=
  if args.length < 2 then none
  else
    match setOptions (args.drop 2) {} with
    | .error _ => none
    | .ok o => if o.nx && !o.xx then o.expiry else none

/-- What an operation asks of the lease on a key. -/
def Op.request (key : Bytes) : Op → Option (Request TimePoint Bytes)
  | command _ step =>
    if normalize step.cmd.name = ascii "DEL" then
      if key ∈ step.cmd.args then some .release else none
    else if normalize step.cmd.name = ascii "SET" ∧ key = step.cmd.args.getD 0 [] then
      (leaseTerm step.cmd.args).map fun ms =>
        .acquire step.now ⟨step.cmd.args.getD 1 [], addMilliseconds step.now ms⟩
    else none
  | _ => none

/-- The entry of a key whose lease is granted. -/
def leaseObject (g : Grant TimePoint Bytes) : RedisObject :=
  (RedisObject.createString g.token).withExpire (some g.deadline)

theorem liveEntry_leaseObject (s : Option (Grant TimePoint Bytes)) (now : TimePoint) :
    liveEntry now (s.map leaseObject) = (held s now).map leaseObject := by
  cases s with
  | none => rfl
  | some g => by_cases h : g.deadline ≤ now <;>
      simp [liveEntry, held, Option.filter, leaseObject, RedisObject.isExpired, h]

/-- What is seen behind a request for the lease. -/
theorem liveEntry_next (s : Option (Grant TimePoint Bytes)) (g : Grant TimePoint Bytes)
    {now now' : TimePoint} (hle : now ≤ now') :
    liveEntry now' (if ((held s now).map leaseObject).isSome then (held s now).map leaseObject
        else some (leaseObject g)) =
      (held (next s (.acquire now g)) now').map leaseObject := by
  rw [next]
  cases hheld : held s now with
  | none => exact liveEntry_leaseObject (some g) now'
  | some g' =>
      have hlive := liveEntry_leaseObject s now
      rw [hheld] at hlive
      change liveEntry now' (some (leaseObject g')) = (held s now').map leaseObject
      rw [← liveEntry_leaseObject, ← liveEntry_of_le hle (s.map leaseObject), hlive]
      rfl

theorem setAction_of_leaseTerm {args : List Bytes} {ms : Int64} (h : leaseTerm args = some ms)
    (now : TimePoint) :
    setAction args now = .act fun e =>
      if e.isSome then (RespCodec.nullBulkString, e)
      else (RespCodec.ok, some (leaseObject ⟨args.getD 1 [], addMilliseconds now ms⟩)) := by
  rw [leaseTerm] at h
  split at h
  · contradiction
  · next hlen =>
    rw [setAction, if_neg hlen]
    cases ho : setOptions (args.drop 2) {} with
    | error reply =>
        rw [ho] at h
        contradiction
    | ok o =>
        rw [ho] at h
        simp only [Bool.and_eq_true, Bool.not_eq_true', Option.ite_none_right_eq_some] at h
        obtain ⟨⟨hnx, hxx⟩, hexpiry⟩ := h
        simp [hnx, hxx, hexpiry, leaseObject]

/-- **A request for the lease** is granted when no entry is seen. -/
theorem response_acquire {step : Step} {ms : Int64} (hname : normalize step.cmd.name = ascii "SET")
    (hterm : leaseTerm step.cmd.args = some ms) (db : Dict) :
    let key := step.cmd.args.getD 0 []
    (response db step).1 =
        (if (db.live step.now key).isSome then RespCodec.nullBulkString else RespCodec.ok) ∧
      (response db step).2.get key =
        (if (db.live step.now key).isSome then db.live step.now key
        else some (leaseObject ⟨step.cmd.args.getD 1 [], addMilliseconds step.now ms⟩)) := by
  intro key
  have hf : findHandler (ascii "SET") = some setCmd := rfl
  have hexec : response db step = CmdHandler.on setCmd (step.context db) db := by
    rw [response_eq, execute, Step.context, hname, hf]
    rfl
  have hspec : Performs (CmdHandler.on setCmd (step.context db)) step.now key
      (setAction step.cmd.args step.now) := setCmd_performs (step.context db)
  rw [setAction_of_leaseTerm hterm] at hspec
  obtain ⟨hreply, hget⟩ := hspec db
  rw [hexec, hreply, hget key, if_pos rfl]
  dsimp only
  split <;> exact ⟨rfl, rfl⟩

theorem get_response_release {step : Step} {key : Bytes}
    (hname : normalize step.cmd.name = ascii "DEL") (hkey : key ∈ step.cmd.args) (db : Dict) :
    (response db step).2.get key = none := by
  rw [response_eq, (@execute_of_overwrites (step.context db) key (.inl ⟨hname, hkey⟩)).2]
  exact if_neg (hname ▸ by decide)

/-! ## Runs -/

/-- The requests of a run. -/
def requests (key : Bytes) (ops : List Op) : List (Request TimePoint Bytes) :=
  ops.filterMap (Op.request key)

/-- The clients write to the key by requests for its lease only. -/
def LeaseOnly (key : Bytes) (ops : List Op) : Prop :=
  ∀ op ∈ ops, op.Writes key → (op.request key).isSome

instance (key : Bytes) (ops : List Op) : Decidable (LeaseOnly key ops) :=
  inferInstanceAs (Decidable (∀ op ∈ ops, op.Writes key → (op.request key).isSome = true))

theorem requests_append (key : Bytes) (ops : List Op) (op : Op) :
    requests key (ops ++ [op]) = requests key ops ++ (op.request key).toList := by
  rw [requests, List.filterMap_append]
  cases h : op.request key <;> simp [requests, h]

/-- What an operation that asks for the lease is. -/
theorem Op.exists_of_request {key : Bytes} {op : Op} {r : Request TimePoint Bytes}
    (h : op.request key = some r) :
    ∃ fd step, op = .command fd step ∧
      (normalize step.cmd.name = ascii "DEL" ∧ key ∈ step.cmd.args ∧ r = .release ∨
        normalize step.cmd.name = ascii "SET" ∧ key = step.cmd.args.getD 0 [] ∧
          ∃ ms, leaseTerm step.cmd.args = some ms ∧
            r = .acquire step.now ⟨step.cmd.args.getD 1 [], addMilliseconds step.now ms⟩) := by
  cases op with
  | accept fd => contradiction
  | expireCheck now rng => contradiction
  | command fd step =>
      refine ⟨fd, step, rfl, ?_⟩
      rw [request] at h
      split at h
      · next hdel =>
        rw [Option.ite_none_right_eq_some] at h
        exact .inl ⟨hdel, h.1, (Option.some.inj h.2).symm⟩
      · rw [Option.ite_none_right_eq_some, Option.map_eq_some_iff] at h
        obtain ⟨⟨hset, hkey⟩, ms, hms, rfl⟩ := h
        exact .inr ⟨hset, hkey, ms, hms, rfl⟩

/-- **The entry of the key is the lease**: what is seen of it is the grant in force. -/
theorem live_runOps_lease {ops : List Op} {key : Bytes} {db : Dict} (hclock : ClockForward ops)
    (honly : LeaseOnly key ops) (hfree : db.get key = none) {now : TimePoint}
    (htime : Until now ops) :
    (runOps db ops).live now key =
      (held (holder none (requests key ops)) now).map leaseObject := by
  induction ops using List.reverseRecOn generalizing now with
  | nil =>
      rw [runOps_nil, Dict.live, hfree]
      rfl
  | append_singleton ops op ih =>
      obtain ⟨hbefore, hlast⟩ := htime.of_append
      have honly' : LeaseOnly key ops := fun op' hop => honly op' (List.mem_append_left _ hop)
      rw [runOps_append, requests_append, holder_append]
      cases hr : op.request key with
      | none =>
          have hwrites : ¬ op.Writes key := fun hw => by
            simpa [hr] using honly op (by simp) hw
          exact (op.live_after hwrites (hlast op (by simp)) _).trans
            (ih hclock.append.1 honly' hbefore)
      | some r =>
          obtain ⟨fd, step, rfl, ⟨hname, hkey, rfl⟩ | ⟨hname, rfl, ms, hms, rfl⟩⟩ :=
            Op.exists_of_request hr
          · rw [Dict.live]
            exact congrArg (liveEntry now) (get_response_release hname hkey _)
          · have hle : step.now ≤ now := hlast _ (List.mem_singleton_self _) step.now rfl
            have hget := (response_acquire hname hms (runOps db ops)).2
            have hthen := ih hclock.append.1 honly' hclock.until
            rw [Dict.live, runOps_cons, runOps_nil, Op.after, hget, hthen]
            exact liveEntry_next _ _ hle

/-- A request for the lease is granted when nobody holds it. -/
theorem reply_lease {pre post : List Op} {fd : Nat} {step : Step} {key : Bytes}
    {g : Grant TimePoint Bytes} {db : Dict}
    (hclock : ClockForward (pre ++ .command fd step :: post))
    (honly : LeaseOnly key (pre ++ .command fd step :: post)) (hfree : db.get key = none)
    (hrequest : (Op.command fd step).request key = some (.acquire step.now g)) :
    (response (runOps db pre) step).1 =
      if held (holder none (requests key pre)) step.now = none then RespCodec.ok
      else RespCodec.nullBulkString := by
  obtain ⟨fd', step', heq, ⟨-, -, hr⟩ | ⟨hname, rfl, ms, hms, -⟩⟩ := Op.exists_of_request hrequest
  · contradiction
  · cases heq
    have honly' : LeaseOnly (step.cmd.args.getD 0 []) pre :=
      fun op hop => honly op (List.mem_append_left _ hop)
    rw [(response_acquire hname hms _).1,
      live_runOps_lease hclock.append.1 honly' hfree hclock.until]
    cases held (holder none (requests (step.cmd.args.getD 0 []) pre)) step.now <;> rfl

theorem mem_requests_time {key : Bytes} {ops : List Op} {now t : TimePoint}
    {g : Grant TimePoint Bytes} (htime : Until now ops)
    (h : Request.acquire t g ∈ requests key ops) : t ≤ now := by
  obtain ⟨op, hop, hr⟩ := List.mem_filterMap.mp h
  obtain ⟨fd, step, rfl, ⟨-, -, hr⟩ | ⟨-, -, ms, -, hr⟩⟩ := Op.exists_of_request hr
  · contradiction
  · cases hr
    exact htime _ hop step.now rfl

/-- Two requests for the lease on `k`, by two clients. -/
def leaseStep (now : TimePoint) (token : Bytes) : Step :=
  ⟨⟨now, fun _ _ => 0⟩, ⟨ascii "set", [ascii "k", token, ascii "nx", ascii "PX", ascii "10"]⟩⟩

end RedisLike
