import RedisLike.Command.Actions

/-!
# RedisLike.Command.Deadline

The deadlines that `SET` with `EX` or `PX`, `EXPIRE` and `PEXPIRE` store.

A lifetime is converted to nanoseconds and added to the time of the clock, all
of it in 64 bits, and nothing checks for an overflow.  So the deadline is exact
if and only if the lifetime and the deadline fit (`exactDeadline_iff`).
-/

namespace RedisLike

/-! ## Lifetimes -/

/-- The units of the four commands. -/
inductive TimeUnit where
  | seconds
  | milliseconds
deriving DecidableEq

/-- The nanoseconds in a unit. -/
def TimeUnit.nanoseconds : TimeUnit → Int64
  | .seconds => 1000000000
  | .milliseconds => 1000000

/-- A lifetime as a command asks for it. -/
structure Lifetime where
  unit : TimeUnit
  value : Int64

/-- The lifetime in nanoseconds, exactly. -/
def Lifetime.nanoseconds (l : Lifetime) : Int := l.value.toInt * l.unit.nanoseconds.toInt

/-- The lifetime in nanoseconds, as `std::chrono` computes it. -/
def Lifetime.converted (l : Lifetime) : Int64 := l.value * l.unit.nanoseconds

/-- The lifetimes in the options of a `SET`; the last one counts. -/
def setLifetimes : List Bytes → List Lifetime
  | [] => []
  | opt :: rest =>
    if normalize opt = ascii "EX" ∨ normalize opt = ascii "PX" then
      match rest with
      | [] => []
      | v :: rest =>
        match parseInt v with
        | none => []
        | some v =>
          ⟨if normalize opt = ascii "EX" then .seconds else .milliseconds, v⟩ :: setLifetimes rest
    else setLifetimes rest

/-- The lifetimes that a command reads. -/
def RespCommand.lifetimes (cmd : RespCommand) : List Lifetime :=
  let name := normalize cmd.name
  if name = ascii "SET" then setLifetimes (cmd.args.drop 2)
  else if name = ascii "EXPIRE" then
    ((parseInt (cmd.args.getD 1 [])).map (Lifetime.mk .seconds)).toList
  else if name = ascii "PEXPIRE" then
    ((parseInt (cmd.args.getD 1 [])).map (Lifetime.mk .milliseconds)).toList
  else []

/-- The command accepts the lifetime: it is positive, and the reply is `OK` for
a `SET` and 1 for the others. -/
structure CmdContext.Accepts (ctx : CmdContext) (l : Lifetime) : Prop where
  asks : ctx.cmd.lifetimes.getLast? = some l
  positive : l.value > 0
  reply : (execute ctx).1 =
    if normalize ctx.cmd.name = ascii "SET" then RespCodec.ok else RespCodec.integer 1

/-! ## What is stored -/

theorem setOptions_error {opts : List Bytes} {o : SetOptions} {reply : Bytes}
    (h : setOptions opts o = .error reply) : isError reply = true := by
  fun_induction setOptions opts o with
  | case1 => cases h
  | case2 opt rest o _ _ ih => exact ih h
  | case3 opt rest o _ _ _ ih => exact ih h
  | case7 opt o _ _ _ _ v rest n _ _ ih => exact ih h
  | case11 opt o _ _ _ _ _ v rest n _ _ ih => exact ih h
  | _ =>
      cases h
      exact isError_error _

/-- A lifetime as `SET` keeps it in `expiry_ms`. -/
def Lifetime.expiryMs (l : Lifetime) : Int64 :=
  if l.unit = .seconds then l.value * 1000 else l.value

theorem getLast?_cons_or (l : Lifetime) (ls : List Lifetime) (d : Option Int64) :
    ((l :: ls).getLast?.map Lifetime.expiryMs).or d =
      (ls.getLast?.map Lifetime.expiryMs).or (some l.expiryMs) := by
  rw [List.getLast?_cons]
  cases ls.getLast? <;> rfl

theorem setLifetimes_cons {opt : Bytes} (hex : normalize opt ≠ ascii "EX")
    (hpx : normalize opt ≠ ascii "PX") (rest : List Bytes) :
    setLifetimes (opt :: rest) = setLifetimes rest := by
  rw [setLifetimes.eq_def]
  exact if_neg (by simp [hex, hpx])

theorem setLifetimes_cons_cons {opt v : Bytes} {n : Int64}
    (hopt : normalize opt = ascii "EX" ∨ normalize opt = ascii "PX") (hv : parseInt v = some n)
    (rest : List Bytes) : setLifetimes (opt :: v :: rest) =
      ⟨if normalize opt = ascii "EX" then .seconds else .milliseconds, n⟩ ::
        setLifetimes rest := by
  rw [setLifetimes, if_pos hopt]
  simp only [hv]

/-- The option loop keeps the last lifetime. -/
theorem setOptions_expiry {opts : List Bytes} {o o' : SetOptions}
    (h : setOptions opts o = .ok o') :
    o'.expiry = ((setLifetimes opts).getLast?.map Lifetime.expiryMs).or o.expiry := by
  fun_induction setOptions opts o with
  | case1 =>
      cases h
      rfl
  | case2 opt rest o name hname ih =>
      rw [ih h, setLifetimes_cons (ne_of_eq_of_ne hname (by decide))
        (ne_of_eq_of_ne hname (by decide))]
  | case3 opt rest o name _ hname ih =>
      rw [ih h, setLifetimes_cons (ne_of_eq_of_ne hname (by decide))
        (ne_of_eq_of_ne hname (by decide))]
  | case7 opt o _ _ _ hname v rest n hv _ ih =>
      rw [ih h, setLifetimes_cons_cons (.inl hname) hv, getLast?_cons_or, if_pos hname]
      rfl
  | case11 opt o _ _ _ hex hname v rest n hv _ ih =>
      rw [ih h, setLifetimes_cons_cons (.inr hname) hv, getLast?_cons_or, if_neg hex]
      rfl
  | _ => cases h

/-- The option loop takes positive lifetimes only. -/
theorem setLifetimes_pos {opts : List Bytes} {o o' : SetOptions}
    (h : setOptions opts o = .ok o') : ∀ l ∈ setLifetimes opts, l.value > 0 := by
  fun_induction setOptions opts o with
  | case1 => exact fun l hl => absurd hl List.not_mem_nil
  | case2 opt rest o name hname ih =>
      rw [setLifetimes_cons (ne_of_eq_of_ne hname (by decide))
        (ne_of_eq_of_ne hname (by decide))]
      exact ih h
  | case3 opt rest o name _ hname ih =>
      rw [setLifetimes_cons (ne_of_eq_of_ne hname (by decide))
        (ne_of_eq_of_ne hname (by decide))]
      exact ih h
  | case7 opt o _ _ _ hname v rest n hv hn ih =>
      rw [setLifetimes_cons_cons (.inl hname) hv]
      exact List.forall_mem_cons.mpr ⟨Int64.not_le.mp hn, ih h⟩
  | case11 opt o _ _ _ _ hname v rest n hv hn ih =>
      rw [setLifetimes_cons_cons (.inr hname) hv]
      exact List.forall_mem_cons.mpr ⟨Int64.not_le.mp hn, ih h⟩
  | _ => cases h

/-- A `SET` that replies `OK` has stored. -/
theorem get_execute_of_set {ctx : CmdContext} (hname : normalize ctx.cmd.name = ascii "SET")
    (hok : (execute ctx).1 = RespCodec.ok) : ∃ o, setOptions (ctx.cmd.args.drop 2) {} = .ok o ∧
      (execute ctx).2.get (ctx.arg 0) =
        some ((RedisObject.createString (ctx.cmd.args.getD 1 [])).withExpire
          (o.expiry.map (addMilliseconds ctx.now))) := by
  have hf : findHandler (normalize ctx.cmd.name) = some setCmd := by
    rw [hname]
    rfl
  have hexec : execute ctx = CmdHandler.on setCmd ctx ctx.db := execute_of_findHandler hf
  have hspec := setCmd_performs ctx
  rw [hexec] at hok ⊢
  have hidle : ∀ reply, isError reply = true →
      ¬ Performs (CmdHandler.on setCmd ctx) ctx.now (ctx.arg 0) (.idle reply) := by
    intro reply herror hidle
    rw [hidle ctx.db] at hok
    rw [show reply = RespCodec.ok from hok] at herror
    cases herror
  unfold setAction at hspec
  split at hspec
  · exact absurd hspec (hidle _ (isError_error _))
  cases ho : setOptions (ctx.cmd.args.drop 2) {} with
  | error reply =>
      rw [ho] at hspec
      exact absurd hspec (hidle _ (setOptions_error ho))
  | ok o =>
      simp only [ho] at hspec
      split at hspec
      · exact absurd hspec (hidle _ (isError_error _))
      obtain ⟨hreply, hget⟩ := hspec ctx.db
      have hnull : RespCodec.ok ≠ RespCodec.nullBulkString := by decide
      rw [hok] at hreply
      refine ⟨o, rfl, ?_⟩
      rw [hget, if_pos rfl]
      revert hreply
      dsimp only
      split
      · exact fun h => absurd h hnull
      · split
        · exact fun h => absurd h hnull
        · exact fun _ => rfl

/-- An `EXPIRE` or a `PEXPIRE` that replies 1 has stored, or deleted. -/
theorem get_execute_of_expire {ctx : CmdContext} {arity : Bytes}
    {add : TimePoint → Int64 → TimePoint}
    (hf : findHandler (normalize ctx.cmd.name) = some (expireWith (RespCodec.error arity) add))
    (hreply : (execute ctx).1 = RespCodec.integer 1) {n : Int64}
    (hn : parseInt (ctx.cmd.args.getD 1 []) = some n) (hpos : n > 0) :
    ∃ obj, (execute ctx).2.get (ctx.arg 0) = some obj ∧
      obj.expireAt = some (add ctx.now n) := by
  have hexec : execute ctx = CmdHandler.on (expireWith (RespCodec.error arity) add) ctx ctx.db :=
    execute_of_findHandler hf
  have hspec := expireWith_performs (RespCodec.error arity) add ctx
  rw [hexec] at hreply ⊢
  unfold expireAction at hspec
  split at hspec
  · rw [hspec ctx.db] at hreply
    cases hreply
  · simp only [hn, if_pos hpos] at hspec
    obtain ⟨hr, hget⟩ := hspec ctx.db
    rw [hget, if_pos rfl]
    rw [hreply] at hr
    cases hl : ctx.db.live ctx.now (ctx.arg 0) with
    | none =>
        rw [hl] at hr
        exact absurd hr (show RespCodec.integer 1 ≠ RespCodec.integer 0 by decide)
    | some obj => exact ⟨_, rfl, rfl⟩

/-- **What is stored**: the time of the clock plus the converted lifetime. -/
theorem get_execute_of_accepts {ctx : CmdContext} {l : Lifetime} (h : ctx.Accepts l) :
    ∃ obj, (execute ctx).2.get (ctx.arg 0) = some obj ∧
      obj.expireAt = some (ctx.now + l.converted) := by
  obtain ⟨hasks, hpos, hreply⟩ := h
  unfold RespCommand.lifetimes at hasks
  dsimp only at hasks
  by_cases hset : normalize ctx.cmd.name = ascii "SET"
  · rw [if_pos hset] at hasks hreply
    obtain ⟨o, ho, hget⟩ := get_execute_of_set hset hreply
    refine ⟨_, hget, ?_⟩
    rw [setOptions_expiry ho, hasks]
    cases l with
    | mk unit value =>
        cases unit with
        | milliseconds => rfl
        | seconds =>
            have hmul : value * 1000 * 1000000 = value * 1000000000 := Int64.mul_assoc _ _ _
            simp only [RedisObject.expireAt_withExpire, Option.map_some, Option.some_or,
              Lifetime.expiryMs, if_true, addMilliseconds, hmul]
            rfl
  rw [if_neg hset] at hasks hreply
  have hparse : ∀ {unit : TimeUnit},
      ((parseInt (ctx.cmd.args.getD 1 [])).map (Lifetime.mk unit)).toList.getLast? = some l →
        parseInt (ctx.cmd.args.getD 1 []) = some l.value ∧ l.unit = unit := by
    intro unit hlast
    cases hn : parseInt (ctx.cmd.args.getD 1 []) with
    | none =>
        rw [hn] at hlast
        cases hlast
    | some n =>
        simp only [hn, Option.map_some, Option.toList_some, List.getLast?_singleton,
          Option.some.injEq] at hlast
        rw [← hlast]
        exact ⟨rfl, rfl⟩
  by_cases hexpire : normalize ctx.cmd.name = ascii "EXPIRE"
  · rw [if_pos hexpire] at hasks
    obtain ⟨hn, hunit⟩ := hparse hasks
    rw [Lifetime.converted, hunit]
    exact @get_execute_of_expire ctx _ addSeconds (by rw [hexpire]; rfl) hreply _ hn hpos
  rw [if_neg hexpire] at hasks
  by_cases hpexpire : normalize ctx.cmd.name = ascii "PEXPIRE"
  · rw [if_pos hpexpire] at hasks
    obtain ⟨hn, hunit⟩ := hparse hasks
    rw [Lifetime.converted, hunit]
    exact @get_execute_of_expire ctx _ addMilliseconds (by rw [hpexpire]; rfl) hreply _ hn hpos
  · rw [if_neg hpexpire] at hasks
    contradiction

/-! ## When it is exact -/

/-- The deadline is exact: no step on the way to it overflows, and what is stored
is the time of the clock plus the lifetime. -/
structure ExactDeadline (ctx : CmdContext) (l : Lifetime) : Prop where
  /-- The factor 1000 of an `EX`, of one that a later option overrides, too. -/
  milliseconds : ∀ l' ∈ ctx.cmd.lifetimes, l'.unit = .seconds →
    (l'.value * 1000).toInt = l'.value.toInt * 1000
  converted : l.converted.toInt = l.nanoseconds
  stored : ∃ obj deadline, (execute ctx).2.get (ctx.arg 0) = some obj ∧
    obj.expireAt = some deadline ∧ deadline.toInt = ctx.now.toInt + l.nanoseconds ∧
      ctx.now < deadline

/-- A number above the least `int64_t` is kept if it is not too large. -/
theorem bmod_eq_self_iff {x : Int} (h : -2 ^ 63 ≤ x) : x.bmod (2 ^ 64) = x ↔ x < 2 ^ 63 := by
  constructor
  · intro hx
    have hlt := @Int.bmod_lt x (2 ^ 64) (by decide)
    rw [hx] at hlt
    exact hlt
  · exact fun hx => Int.bmod_eq_of_le (by omega) (by omega)

theorem toInt_mul_eq_iff {v k : Int64} (hv : 0 ≤ v.toInt) (hk : 0 ≤ k.toInt) :
    (v * k).toInt = v.toInt * k.toInt ↔ v.toInt * k.toInt < 2 ^ 63 := by
  have hnonneg : 0 ≤ v.toInt * k.toInt := Int.mul_nonneg hv hk
  rw [Int64.toInt_mul]
  exact bmod_eq_self_iff (by omega)

theorem toInt_add_mul_eq_iff {now v k : Int64} (hv : 0 ≤ v.toInt) (hk : 0 ≤ k.toInt) :
    (now + v * k).toInt = now.toInt + v.toInt * k.toInt ↔
      now.toInt + v.toInt * k.toInt < 2 ^ 63 := by
  have hnonneg : 0 ≤ v.toInt * k.toInt := Int.mul_nonneg hv hk
  have hnow := Int64.le_toInt now
  rw [Int64.toInt_add, Int64.toInt_mul, Int.add_bmod_bmod]
  exact bmod_eq_self_iff (by omega)

theorem CmdContext.Accepts.lifetimes_pos {ctx : CmdContext} {l : Lifetime} (h : ctx.Accepts l) :
    ∀ l' ∈ ctx.cmd.lifetimes, l'.value > 0 := by
  obtain ⟨hasks, hpos, hreply⟩ := h
  unfold RespCommand.lifetimes at hasks ⊢
  dsimp only at hasks ⊢
  by_cases hset : normalize ctx.cmd.name = ascii "SET"
  · rw [if_pos hset] at hreply ⊢
    obtain ⟨o, ho, -⟩ := get_execute_of_set hset hreply
    exact setLifetimes_pos ho
  · -- the only lifetime is the last one
    rw [if_neg hset] at hasks ⊢
    have hsingle : ∀ {o : Option Lifetime}, o.toList.getLast? = some l →
        ∀ l' ∈ o.toList, l'.value > 0 := by
      intro o hlast l' hl'
      cases o with
      | none => cases hlast
      | some l₀ =>
          rw [List.mem_singleton.mp hl']
          cases hlast
          exact hpos
    split at hasks
    · next hexpire =>
      rw [if_pos hexpire]
      exact hsingle hasks
    · next hexpire =>
      rw [if_neg hexpire]
      split at hasks
      · next hpexpire =>
        rw [if_pos hpexpire]
        exact hsingle hasks
      · contradiction

/-- **Accepted lifetimes and exact deadlines.**  The deadline of an accepted
lifetime is exact if and only if the lifetime and the deadline fit into 64 bits
as nanoseconds, and every `EX` of the command as milliseconds. -/
theorem exactDeadline_iff {ctx : CmdContext} {l : Lifetime} (h : ctx.Accepts l) :
    ExactDeadline ctx l ↔
      (∀ l' ∈ ctx.cmd.lifetimes, l'.unit = .seconds → l'.value.toInt * 1000 < 2 ^ 63) ∧
        l.nanoseconds < 2 ^ 63 ∧ ctx.now.toInt + l.nanoseconds < 2 ^ 63 := by
  have hnonneg : ∀ {v : Int64}, v > 0 → 0 < v.toInt := fun hv => Int64.lt_iff_toInt_lt.mp hv
  have hunit : 0 < l.unit.nanoseconds.toInt := by cases l.unit <;> decide
  have hvalue := hnonneg h.positive
  have hmillis : ∀ l' ∈ ctx.cmd.lifetimes, ((l'.value * 1000).toInt = l'.value.toInt * 1000 ↔
      l'.value.toInt * 1000 < 2 ^ 63) := fun l' hl' =>
    @toInt_mul_eq_iff l'.value 1000 (hnonneg (h.lifetimes_pos l' hl')).le (by decide)
  have hconverted : l.converted.toInt = l.nanoseconds ↔ l.nanoseconds < 2 ^ 63 :=
    toInt_mul_eq_iff hvalue.le hunit.le
  have hsum : (ctx.now + l.converted).toInt = ctx.now.toInt + l.nanoseconds ↔
      ctx.now.toInt + l.nanoseconds < 2 ^ 63 := toInt_add_mul_eq_iff hvalue.le hunit.le
  obtain ⟨obj, hget, hexpire⟩ := get_execute_of_accepts h
  constructor
  · rintro ⟨hms, hns, obj', deadline, hget', hexpire', hexact, -⟩
    rw [hget] at hget'
    cases hget'
    rw [hexpire] at hexpire'
    cases hexpire'
    exact ⟨fun l' hl' hu => (hmillis l' hl').mp (hms l' hl' hu), hconverted.mp hns,
      hsum.mp hexact⟩
  · rintro ⟨hms, hns, hexact⟩
    refine ⟨fun l' hl' hu => (hmillis l' hl').mpr (hms l' hl' hu), hconverted.mpr hns, obj, _,
      hget, hexpire, hsum.mpr hexact, ?_⟩
    have hpos : 0 < l.nanoseconds := Int.mul_pos hvalue hunit
    rw [Int64.lt_iff_toInt_lt, hsum.mpr hexact]
    omega

/-- A `SET` with ten seconds to live. -/
def tenSeconds : CmdContext :=
  ⟨∅, ⟨ascii "SET", [ascii "k", ascii "v", ascii "EX", ascii "10"]⟩, 5, fun _ _ => 0⟩

theorem exactDeadline_iff_tenSeconds : ExactDeadline tenSeconds ⟨.seconds, 10⟩ :=
  (@exactDeadline_iff tenSeconds ⟨.seconds, 10⟩ ⟨rfl, by decide, by decide +kernel⟩).mpr
    ⟨by decide, by decide, by decide⟩

/-- A `SET` with the longest lifetime that `ParseInt` reads. -/
def longestLife : CmdContext :=
  ⟨∅, ⟨ascii "SET", [ascii "k", ascii "v", ascii "EX", ascii "9223372036854775807"]⟩, 5,
    fun _ _ => 0⟩

/-- The longest lifetime is accepted, and over before it has begun. -/
theorem exactDeadline_longestLife :
    longestLife.Accepts ⟨.seconds, 9223372036854775807⟩ ∧
      ¬ ExactDeadline longestLife ⟨.seconds, 9223372036854775807⟩ ∧
      ((execute longestLife).2.get (ascii "k")).map RedisObject.expireAt =
        some (some (5 - 1000000000)) := by
  refine ⟨⟨rfl, by decide, by decide +kernel⟩, fun hexact => ?_, by decide +kernel⟩
  exact absurd hexact.converted (by decide)

end RedisLike
