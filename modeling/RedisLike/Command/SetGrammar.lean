import RedisLike.Command.Deadline
import RedisLike.Numeral

/-!
# RedisLike.Command.SetGrammar

The options of `SET`, as the comment of the handler writes them:
`[EX seconds|PX milliseconds] [NX|XX]`.

`setOptions_eq_ok_iff` says what the option loop takes: any list of options,
with numbers as `ParseInt` reads them.  `setCmd_grammar_iff` compares this with
the grammar and with what a `SET` should store.
-/

namespace RedisLike

/-- An option of `SET`. -/
inductive SetOption where
  | ex (seconds : Int)
  | px (milliseconds : Int)
  | nx
  | xx
deriving DecidableEq

namespace SetOption

/-- The nanoseconds of a lifetime. -/
def lifetime : SetOption → Option Int
  | ex n => some (n * 1000000000)
  | px n => some (n * 1000000)
  | _ => none

/-- What the option asks of a key that is `present` or not. -/
def allows (present : Bool) : SetOption → Bool
  | nx => !present
  | xx => present
  | _ => true

def isLifetime (opt : SetOption) : Bool := opt.lifetime.isSome

def isCondition : SetOption → Bool
  | nx => true
  | xx => true
  | _ => false

end SetOption

/-- The words of options, in any letter case, when `reads` says which numbers a
word stands for. -/
inductive SetWords (reads : Bytes → Int → Prop) : List Bytes → List SetOption → Prop
  | nil : SetWords reads [] []
  | ex {opt time : Bytes} {n : Int} {words : List Bytes} {opts : List SetOption}
      (hopt : normalize opt = ascii "EX") (htime : reads time n) (hpos : 0 < n)
      (hrest : SetWords reads words opts) : SetWords reads (opt :: time :: words) (.ex n :: opts)
  | px {opt time : Bytes} {n : Int} {words : List Bytes} {opts : List SetOption}
      (hopt : normalize opt = ascii "PX") (htime : reads time n) (hpos : 0 < n)
      (hrest : SetWords reads words opts) : SetWords reads (opt :: time :: words) (.px n :: opts)
  | nx {opt : Bytes} {words : List Bytes} {opts : List SetOption}
      (hopt : normalize opt = ascii "NX") (hrest : SetWords reads words opts) :
      SetWords reads (opt :: words) (.nx :: opts)
  | xx {opt : Bytes} {words : List Bytes} {opts : List SetOption}
      (hopt : normalize opt = ascii "XX") (hrest : SetWords reads words opts) :
      SetWords reads (opt :: words) (.xx :: opts)

/-- At most one lifetime and at most one condition. -/
structure AtMostOnce (opts : List SetOption) : Prop where
  lifetime : (opts.filter SetOption.isLifetime).length ≤ 1
  condition : (opts.filter SetOption.isCondition).length ≤ 1

/-- `[EX seconds|PX milliseconds] [NX|XX]`, in any order. -/
structure Documented (words : List Bytes) (opts : List SetOption) : Prop where
  words : SetWords Denotes words opts
  once : AtMostOnce opts

/-- What the loop takes for the options: it reads no number behind a NUL, and
counts nothing. -/
structure Taken (words : List Bytes) (opts : List SetOption) : Prop where
  words : SetWords (fun time n => Denotes (cStr time) n) words opts
  notBoth : ¬ (SetOption.nx ∈ opts ∧ SetOption.xx ∈ opts)

/-- The options let a `SET` store, when the key is `present` or not. -/
def permits (opts : List SetOption) (present : Bool) : Bool :=
  opts.all (SetOption.allows present)

/-- The deadline that the options ask for. -/
def deadlineAsked (now : TimePoint) (opts : List SetOption) : Option Int :=
  (opts.findSome? SetOption.lifetime).map (now.toInt + ·)

/-! ## The option loop -/

/-- The variables of the option loop behind one more option. -/
def SetOptions.add (o : SetOptions) : SetOption → SetOptions
  | .ex n => { o with expiry := some (Int64.ofInt (saturate n) * 1000) }
  | .px n => { o with expiry := some (Int64.ofInt (saturate n)) }
  | .nx => { o with nx := true }
  | .xx => { o with xx := true }

theorem pos_saturate_iff {n : Int} : ¬ Int64.ofInt (saturate n) ≤ 0 ↔ 0 < n := by
  obtain ⟨hmin, hmax⟩ := saturate_bounds n
  rw [Int64.not_le, Int64.lt_iff_toInt_lt, Int64.toInt_ofInt_of_le hmin (by omega)]
  unfold saturate int64Min int64Max
  show 0 < _ ↔ _
  omega

/-- **What the option loop takes**, and what it collects. -/
theorem setOptions_eq_ok_iff {words : List Bytes} {o o' : SetOptions} :
    setOptions words o = .ok o' ↔
      ∃ opts, SetWords (fun time n => Denotes (cStr time) n) words opts ∧
        o' = opts.foldl SetOptions.add o := by
  constructor
  · intro h
    fun_induction setOptions words o with
    | case1 o => exact ⟨[], .nil, (Except.ok.inj h).symm⟩
    | case2 opt rest o name hname ih =>
        obtain ⟨opts, hopts, rfl⟩ := ih h
        exact ⟨.nx :: opts, .nx hname hopts, rfl⟩
    | case3 opt rest o name _ hname ih =>
        obtain ⟨opts, hopts, rfl⟩ := ih h
        exact ⟨.xx :: opts, .xx hname hopts, rfl⟩
    | case7 opt o name _ _ hname time rest v hv hpos ih =>
        obtain ⟨opts, hopts, rfl⟩ := ih h
        obtain ⟨n, hn, rfl⟩ := parseInt_eq_some_iff.mp hv
        exact ⟨.ex n :: opts, .ex hname hn (pos_saturate_iff.mp hpos) hopts, rfl⟩
    | case11 opt o name _ _ _ hname time rest v hv hpos ih =>
        obtain ⟨opts, hopts, rfl⟩ := ih h
        obtain ⟨n, hn, rfl⟩ := parseInt_eq_some_iff.mp hv
        exact ⟨.px n :: opts, .px hname hn (pos_saturate_iff.mp hpos) hopts, rfl⟩
    | _ => contradiction
  · rintro ⟨opts, hopts, rfl⟩
    induction hopts generalizing o with
    | nil => rfl
    | @ex opt time n words opts hopt htime hpos _ ih =>
        have hv := parseInt_eq_some_iff.mpr ⟨n, htime, rfl⟩
        rw [setOptions, hopt, if_neg (by decide), if_neg (by decide), if_pos rfl]
        simp only [hv, if_neg (pos_saturate_iff.mpr hpos)]
        exact ih
    | @px opt time n words opts hopt htime hpos _ ih =>
        have hv := parseInt_eq_some_iff.mpr ⟨n, htime, rfl⟩
        rw [setOptions, hopt, if_neg (by decide), if_neg (by decide), if_neg (by decide),
          if_pos rfl]
        simp only [hv, if_neg (pos_saturate_iff.mpr hpos)]
        exact ih
    | nx hopt _ ih =>
        rw [setOptions.eq_def]
        dsimp only
        rw [hopt, if_pos rfl]
        exact ih
    | xx hopt _ ih =>
        rw [setOptions.eq_def]
        dsimp only
        rw [hopt, if_neg (by decide), if_pos rfl]
        exact ih

/-! ## What the loop collects -/

namespace SetOption

/-- `expiry_ms` behind the option. -/
def expiryMs : SetOption → Option Int64
  | ex n => some (Int64.ofInt (saturate n) * 1000)
  | px n => some (Int64.ofInt (saturate n))
  | _ => none

end SetOption

/-- A flag is set behind the loop if its option is in the list. -/
theorem flag_foldl_add {flag : SetOptions → Bool} {x : SetOption}
    (hadd : ∀ o y, flag (SetOptions.add o y) = (flag o || decide (x = y)))
    (opts : List SetOption) (o : SetOptions) :
    flag (opts.foldl SetOptions.add o) = (flag o || decide (x ∈ opts)) := by
  induction opts generalizing o with
  | nil => simp
  | cons y opts ih =>
      simp only [List.foldl_cons, ih, hadd, List.mem_cons, Bool.decide_or, Bool.or_assoc]

theorem nx_foldl_add (opts : List SetOption) (o : SetOptions) :
    (opts.foldl SetOptions.add o).nx = (o.nx || decide (.nx ∈ opts)) :=
  flag_foldl_add (fun o y => by cases y <;> simp [SetOptions.add]) opts o

theorem xx_foldl_add (opts : List SetOption) (o : SetOptions) :
    (opts.foldl SetOptions.add o).xx = (o.xx || decide (.xx ∈ opts)) :=
  flag_foldl_add (fun o y => by cases y <;> simp [SetOptions.add]) opts o

theorem permits_eq (opts : List SetOption) (present : Bool) :
    permits opts present =
      (!(decide (.nx ∈ opts) && present) && !(decide (.xx ∈ opts) && !present)) := by
  induction opts with
  | nil => simp [permits]
  | cons x opts ih =>
      rw [permits, List.all_cons, ← permits, ih]
      cases x <;> cases present <;> simp [SetOption.allows]

theorem expiry_add (o : SetOptions) (x : SetOption) :
    (o.add x).expiry = x.expiryMs.or o.expiry := by
  cases x <;> rfl

theorem isLifetime_eq (x : SetOption) : x.isLifetime = x.expiryMs.isSome := by
  cases x <;> rfl

/-- Without a lifetime the deadline stays as it is. -/
theorem expiry_foldl_add_of_none {opts : List SetOption} (o : SetOptions)
    (h : ∀ x ∈ opts, x.isLifetime = false) : (opts.foldl SetOptions.add o).expiry = o.expiry := by
  induction opts generalizing o with
  | nil => rfl
  | cons x opts ih =>
      have hx := h x List.mem_cons_self
      rw [isLifetime_eq, Option.isSome_eq_false_iff, Option.isNone_iff_eq_none] at hx
      rw [List.foldl_cons, ih _ fun y hy => h y (List.mem_cons_of_mem x hy), expiry_add, hx,
        Option.none_or]

/-- Of one lifetime at most, it is what is asked for and what is collected. -/
theorem expiry_foldl_add {opts : List SetOption} {o : SetOptions}
    (h : (opts.filter SetOption.isLifetime).length ≤ 1) (ho : o.expiry = none) :
    opts.findSome? SetOption.lifetime = none ∧ (opts.foldl SetOptions.add o).expiry = none ∨
      ∃ x ∈ opts, x.isLifetime = true ∧ opts.findSome? SetOption.lifetime = x.lifetime ∧
        (opts.foldl SetOptions.add o).expiry = x.expiryMs := by
  induction opts generalizing o with
  | nil => exact .inl ⟨rfl, ho⟩
  | cons x opts ih =>
      by_cases hx : x.isLifetime = true
      · -- the others are conditions
        have hrest : ∀ y ∈ opts, y.isLifetime = false := by
          rw [List.filter_cons_of_pos hx, List.length_cons] at h
          have hnil : opts.filter SetOption.isLifetime = [] :=
            List.eq_nil_of_length_eq_zero (by omega)
          simpa using List.filter_eq_nil_iff.mp hnil
        obtain ⟨l, hl⟩ := Option.isSome_iff_exists.mp hx
        have hms := isLifetime_eq x
        rw [hx] at hms
        refine .inr ⟨x, List.mem_cons_self, hx, by rw [List.findSome?_cons, hl], ?_⟩
        rw [List.foldl_cons, expiry_foldl_add_of_none _ hrest, expiry_add, ho, Option.or_none]
      · have hx' : x.isLifetime = false := by simpa using hx
        have hms := hx'
        rw [isLifetime_eq, Option.isSome_eq_false_iff, Option.isNone_iff_eq_none] at hms
        have hl : x.lifetime = none := by
          rwa [SetOption.isLifetime, Option.isSome_eq_false_iff, Option.isNone_iff_eq_none] at hx'
        rw [List.filter_cons_of_neg hx] at h
        rw [List.foldl_cons, List.findSome?_cons, hl]
        rcases @ih (o.add x) h (by rw [expiry_add, hms, ho]; rfl) with hnone | ⟨y, hy, hrest⟩
        · exact .inl hnone
        · exact .inr ⟨y, List.mem_cons_of_mem x hy, hrest⟩

/-- **An exact deadline** is one that fits into 64 bits. -/
theorem exact_add_saturate {now k : Int64} {n : Int} (hn : 0 < n) (hk : 2 ≤ k.toInt) :
    (now + Int64.ofInt (saturate n) * k).toInt = now.toInt + n * k.toInt ↔
      now.toInt + n * k.toInt ≤ int64Max := by
  obtain ⟨hmin, hmax⟩ := saturate_bounds n
  have hval : (Int64.ofInt (saturate n)).toInt = saturate n :=
    Int64.toInt_ofInt_of_le hmin (by omega)
  have hnonneg : 0 ≤ saturate n := by
    unfold saturate int64Min int64Max
    omega
  by_cases hle : n ≤ int64Max
  · have hsat : saturate n = n := saturate_eq_self (by unfold int64Min; omega) hle
    have hiff := @toInt_add_mul_eq_iff now (Int64.ofInt (saturate n)) k
      (by rw [hval]; exact hnonneg)
      (by omega)
    rw [hval, hsat] at hiff
    rw [hsat, hiff, int64Max]
    omega
  · -- neither side holds of a number that was saturated
    have hlarge : int64Max < now.toInt + n * k.toInt := by
      have hnow := now.le_toInt
      have hmul : 2 ^ 63 * 2 ≤ n * k.toInt :=
        Int.mul_le_mul (by unfold int64Max at hle; omega) hk (by decide) hn.le
      unfold int64Max
      omega
    have hlt := (now + Int64.ofInt (saturate n) * k).toInt_lt
    unfold int64Max at hlarge ⊢
    constructor <;> intro _ <;> omega

theorem addMilliseconds_exact {x : SetOption} {now : TimePoint} {l : Int} {ms : Int64}
    (hl : x.lifetime = some l) (hms : x.expiryMs = some ms) (hpos : 0 < l) :
    (addMilliseconds now ms).toInt = now.toInt + l ↔ now.toInt + l ≤ int64Max := by
  cases x with
  | ex n =>
      cases hl
      cases hms
      have hmul : Int64.ofInt (saturate n) * 1000 * 1000000 =
        Int64.ofInt (saturate n) * 1000000000 := Int64.mul_assoc _ _ _
      rw [addMilliseconds, hmul]
      exact @exact_add_saturate now 1000000000 n (by omega) (by decide)
  | px n =>
      cases hl
      cases hms
      exact @exact_add_saturate now 1000000 n (by omega) (by decide)
  | nx => cases hl
  | xx => cases hl

/-- The deadline that is stored is the one asked for, if that fits. -/
theorem deadline_exact_iff {opts : List SetOption} (now : TimePoint)
    (hpos : ∀ x ∈ opts, ∀ l, x.lifetime = some l → 0 < l) (h : AtMostOnce opts) :
    ((opts.foldl SetOptions.add {}).expiry.map (addMilliseconds now)).map Int64.toInt =
        deadlineAsked now opts ↔
      ∀ deadline ∈ deadlineAsked now opts, deadline ≤ int64Max := by
  obtain ⟨hl, hms⟩ | ⟨x, hx, hlife, hl, hms⟩ := @expiry_foldl_add opts {} h.lifetime rfl
  · rw [deadlineAsked, hl, hms]
    exact iff_of_true rfl nofun
  · obtain ⟨l, hl'⟩ := Option.isSome_iff_exists.mp hlife
    rw [isLifetime_eq] at hlife
    obtain ⟨ms, hms'⟩ := Option.isSome_iff_exists.mp hlife
    have hexact := @addMilliseconds_exact x now l ms hl' hms' (hpos x hx l hl')
    rw [deadlineAsked, hl, hms, hl', hms']
    simpa using hexact

/-! ## Words and options -/

section words

variable {reads reads' : Bytes → Int → Prop} {words : List Bytes} {opts opts' : List SetOption}

theorem SetWords.imp (h : SetWords reads words opts)
    (himp : ∀ word ∈ words, ∀ n, reads word n → reads' word n) : SetWords reads' words opts := by
  induction h with
  | nil => exact .nil
  | ex hopt htime hpos _ ih =>
      exact .ex hopt (himp _ (by simp) _ htime) hpos (ih fun w hw => himp w (by simp [hw]))
  | px hopt htime hpos _ ih =>
      exact .px hopt (himp _ (by simp) _ htime) hpos (ih fun w hw => himp w (by simp [hw]))
  | nx hopt _ ih => exact .nx hopt (ih fun w hw => himp w (by simp [hw]))
  | xx hopt _ ih => exact .xx hopt (ih fun w hw => himp w (by simp [hw]))

/-- Words are those of one list of options only. -/
theorem SetWords.unique (hreads : ∀ word n n', reads word n → reads word n' → n = n')
    (h : SetWords reads words opts) (h' : SetWords reads words opts') : opts = opts' := by
  induction h generalizing opts' with
  | nil =>
      cases h'
      rfl
  | ex hopt htime _ _ ih =>
      cases h' with
      | ex _ htime' _ hrest' => rw [hreads _ _ _ htime htime', ih hrest']
      | px hopt' | nx hopt' | xx hopt' => exact absurd (hopt.symm.trans hopt') (by decide)
  | px hopt htime _ _ ih =>
      cases h' with
      | px _ htime' _ hrest' => rw [hreads _ _ _ htime htime', ih hrest']
      | ex hopt' | nx hopt' | xx hopt' => exact absurd (hopt.symm.trans hopt') (by decide)
  | nx hopt _ ih =>
      cases h' with
      | nx _ hrest' => rw [ih hrest']
      | ex hopt' | px hopt' | xx hopt' => exact absurd (hopt.symm.trans hopt') (by decide)
  | xx hopt _ ih =>
      cases h' with
      | xx _ hrest' => rw [ih hrest']
      | ex hopt' | px hopt' | nx hopt' => exact absurd (hopt.symm.trans hopt') (by decide)

/-- A lifetime is positive. -/
theorem SetWords.pos (h : SetWords reads words opts) :
    ∀ x ∈ opts, ∀ l, x.lifetime = some l → 0 < l := by
  induction h with
  | nil => exact fun x hx => absurd hx List.not_mem_nil
  | ex _ _ hpos _ ih =>
      refine List.forall_mem_cons.mpr ⟨fun l hl => ?_, ih⟩
      cases hl
      omega
  | px _ _ hpos _ ih =>
      refine List.forall_mem_cons.mpr ⟨fun l hl => ?_, ih⟩
      cases hl
      omega
  | nx _ _ ih => exact List.forall_mem_cons.mpr ⟨nofun, ih⟩
  | xx _ _ ih => exact List.forall_mem_cons.mpr ⟨nofun, ih⟩

/-- The words of the grammar have no NUL. -/
theorem SetWords.zero_notMem (h : SetWords Denotes words opts) : ∀ word ∈ words, 0 ∉ word := by
  have hname : ∀ {opt name : Bytes}, normalize opt = name → 0 ∉ name → 0 ∉ opt :=
    fun hopt hnot hmem => hnot (hopt ▸ List.mem_map_of_mem hmem)
  have htime : ∀ {time : Bytes} {n : Int}, Denotes time n → 0 ∉ time :=
    fun hn => cStr_eq_self_iff.mp hn.cStr_eq
  induction h with
  | nil => exact fun w hw => absurd hw List.not_mem_nil
  | ex hopt hn _ _ ih =>
      simp only [List.forall_mem_cons]
      exact ⟨hname hopt (by decide), htime hn, ih⟩
  | px hopt hn _ _ ih =>
      simp only [List.forall_mem_cons]
      exact ⟨hname hopt (by decide), htime hn, ih⟩
  | nx hopt _ ih => exact List.forall_mem_cons.mpr ⟨hname hopt (by decide), ih⟩
  | xx hopt _ ih => exact List.forall_mem_cons.mpr ⟨hname hopt (by decide), ih⟩

end words

theorem Documented.taken {words : List Bytes} {opts : List SetOption} (h : Documented words opts) :
    Taken words opts := by
  refine ⟨h.words.imp fun word _ n hn => hn.cStr_eq.symm ▸ hn, fun hboth => ?_⟩
  have hnx : SetOption.nx ∈ opts.filter SetOption.isCondition :=
    List.mem_filter.mpr ⟨hboth.1, rfl⟩
  have hxx : SetOption.xx ∈ opts.filter SetOption.isCondition :=
    List.mem_filter.mpr ⟨hboth.2, rfl⟩
  obtain ⟨c, hc⟩ := List.length_eq_one_iff.mp
    (le_antisymm h.once.condition (List.length_pos_of_mem hnx))
  rw [hc, List.mem_singleton] at hnx hxx
  exact absurd (hnx.trans hxx.symm) (by decide)

/-! ## The command -/

/-- `SET` does what its comment says of these options: it accepts those of the
grammar, and stores or replies nil. -/
structure FollowsGrammar (ctx : CmdContext) (key val : Bytes) (words : List Bytes) : Prop where
  accepts : isError (setCmd ctx).1 = false ↔ ∃ opts, Documented words opts
  stores : ∀ opts, Documented words opts →
    permits opts (ctx.db.live ctx.now key).isSome = true →
    (setCmd ctx).1 = RespCodec.ok ∧ ∃ obj, (setCmd ctx).2.get key = some obj ∧
      obj.value = .string val ∧ obj.expireAt.map Int64.toInt = deadlineAsked ctx.now opts
  keeps : ∀ opts, Documented words opts →
    permits opts (ctx.db.live ctx.now key).isSome = false →
    (setCmd ctx).1 = RespCodec.nullBulkString ∧
      (setCmd ctx).2.live ctx.now key = ctx.db.live ctx.now key

section command

variable {db : Dict} {name key val : Bytes} {words : List Bytes} {now : TimePoint}
  {rng : Nat → Nat → Nat}

/-- What `SET` does with options that the loop does not take. -/
theorem setCmd_of_not_taken (h : ∀ opts, ¬ Taken words opts) :
    isError (setCmd ⟨db, ⟨name, key :: val :: words⟩, now, rng⟩).1 = true := by
  have hlen : ¬ (key :: val :: words).length < 2 := by simp
  unfold setCmd
  dsimp only
  rw [if_neg hlen, List.drop_succ_cons, List.drop_succ_cons, List.drop_zero]
  cases ho : setOptions words {} with
  | error reply => exact setOptions_error ho
  | ok o =>
      obtain ⟨opts, hopts, rfl⟩ := setOptions_eq_ok_iff.mp ho
      have hboth : SetOption.nx ∈ opts ∧ SetOption.xx ∈ opts :=
        not_not.mp fun hnot => h opts ⟨hopts, hnot⟩
      dsimp only
      rw [if_pos (by simp [nx_foldl_add, xx_foldl_add, hboth.1, hboth.2])]
      exact isError_error _

/-- What `SET` does with options that the loop takes. -/
theorem setAction_of_taken {opts : List SetOption} (h : Taken words opts) :
    setAction (key :: val :: words) now = .act fun e =>
      if permits opts e.isSome then
        (RespCodec.ok, some ((RedisObject.createString val).withExpire
          ((opts.foldl SetOptions.add {}).expiry.map (addMilliseconds now))))
      else (RespCodec.nullBulkString, e) := by
  have hlen : ¬ (key :: val :: words).length < 2 := by simp
  have ho : setOptions words {} = .ok (opts.foldl SetOptions.add {}) :=
    setOptions_eq_ok_iff.mpr ⟨opts, h.words, rfl⟩
  have hboth : ¬ (decide (.nx ∈ opts) && decide (.xx ∈ opts)) = true := by
    simpa using h.notBoth
  rw [setAction, if_neg hlen, List.drop_succ_cons, List.drop_succ_cons, List.drop_zero]
  simp only [ho, nx_foldl_add, xx_foldl_add, Bool.false_or, if_neg hboth, permits_eq]
  congr 1
  funext e
  cases decide (.nx ∈ opts) <;> cases decide (.xx ∈ opts) <;> cases e.isSome <;> rfl

/-- The reply and the entry behind a `SET` with such options. -/
theorem setCmd_of_taken {opts : List SetOption} (h : Taken words opts) :
    ((setCmd ⟨db, ⟨name, key :: val :: words⟩, now, rng⟩).1,
      (setCmd ⟨db, ⟨name, key :: val :: words⟩, now, rng⟩).2.get key) =
    if permits opts (db.live now key).isSome then
      (RespCodec.ok, some ((RedisObject.createString val).withExpire
        ((opts.foldl SetOptions.add {}).expiry.map (addMilliseconds now))))
    else (RespCodec.nullBulkString, db.live now key) := by
  have hspec := setCmd_performs ⟨db, ⟨name, key :: val :: words⟩, now, rng⟩
  rw [setAction_of_taken h] at hspec
  obtain ⟨hreply, hget⟩ := hspec db
  exact Prod.ext hreply ((hget key).trans (if_pos rfl))

theorem isError_of_taken {opts : List SetOption} (h : Taken words opts) :
    isError (setCmd ⟨db, ⟨name, key :: val :: words⟩, now, rng⟩).1 = false := by
  have hreply := congrArg Prod.fst (@setCmd_of_taken db name key val words now rng opts h)
  rw [apply_ite Prod.fst] at hreply
  rw [hreply, apply_ite isError]
  split
  · exact isError_ok
  · exact isError_nullBulkString

/-- **`SET` follows its grammar**, unless it takes a list of options that says
something twice or has a number with a NUL in it, or the deadline does not fit
into 64 bits. -/
theorem setCmd_grammar_iff (db : Dict) (name key val : Bytes) (words : List Bytes)
    (now : TimePoint) (rng : Nat → Nat → Nat) :
    FollowsGrammar ⟨db, ⟨name, key :: val :: words⟩, now, rng⟩ key val words ↔
      ∀ opts, Taken words opts → (∀ word ∈ words, 0 ∉ word) ∧ AtMostOnce opts ∧
        (permits opts (db.live now key).isSome = true →
          ∀ deadline ∈ deadlineAsked now opts, deadline ≤ int64Max) := by
  have hunique : ∀ (word : Bytes) (n n' : Int), Denotes (cStr word) n → Denotes (cStr word) n' →
      n = n' := fun _ _ _ hn hn' => hn.unique hn'
  constructor
  · intro h opts htaken
    have hrun := @setCmd_of_taken db name key val words now rng opts htaken
    -- it is accepted, so the options are those of the grammar
    obtain ⟨opts', hdoc⟩ := h.accepts.mp (isError_of_taken htaken)
    obtain rfl := htaken.words.unique hunique hdoc.taken.words
    refine ⟨hdoc.words.zero_notMem, hdoc.once, fun hpermits => ?_⟩
    obtain ⟨-, obj, hget, -, hdeadline⟩ := h.stores opts hdoc hpermits
    rw [if_pos hpermits] at hrun
    have hobj := hget.symm.trans (congrArg Prod.snd hrun)
    rw [Option.some.inj hobj] at hdeadline
    exact (deadline_exact_iff now hdoc.words.pos hdoc.once).mp hdeadline
  · intro h
    refine ⟨⟨fun hok => ?_, ?_⟩, fun opts hdoc hpermits => ?_, fun opts hdoc hpermits => ?_⟩
    · obtain ⟨opts, htaken⟩ : ∃ opts, Taken words opts := by
        by_contra hnot
        rw [setCmd_of_not_taken (not_exists.mp hnot)] at hok
        contradiction
      obtain ⟨hnul, honce, -⟩ := h opts htaken
      refine ⟨opts, htaken.words.imp fun word hword n hn => ?_, honce⟩
      rwa [cStr_eq_self_iff.mpr (hnul word hword)] at hn
    · rintro ⟨opts, hdoc⟩
      exact isError_of_taken hdoc.taken
    · have hrun := @setCmd_of_taken db name key val words now rng opts hdoc.taken
      rw [if_pos hpermits] at hrun
      refine ⟨congrArg Prod.fst hrun, _, congrArg Prod.snd hrun, rfl, ?_⟩
      exact (deadline_exact_iff now hdoc.words.pos hdoc.once).mpr
        ((h opts hdoc.taken).2.2 hpermits)
    · have hrun := @setCmd_of_taken db name key val words now rng opts hdoc.taken
      rw [if_neg (by rw [hpermits]; decide)] at hrun
      exact ⟨congrArg Prod.fst hrun, (congrArg (liveEntry now) (congrArg Prod.snd hrun)).trans
        (liveEntry_liveEntry now (db.get key))⟩

/-- `EX 10 PX 20` is taken, and the comment allows one of the two. -/
theorem not_followsGrammar_exPx : ¬ FollowsGrammar
    ⟨∅, ⟨ascii "SET", [ascii "k", ascii "v", ascii "EX", ascii "10", ascii "PX", ascii "20"]⟩, 0,
      fun _ _ => 0⟩ (ascii "k") (ascii "v")
    [ascii "EX", ascii "10", ascii "PX", ascii "20"] := by
  intro h
  obtain ⟨opts, hdoc⟩ := h.accepts.mp (by decide +kernel)
  have hten : Denotes (ascii "10") 10 :=
    ⟨⟨[], .none, ascii "10", nofun, by decide +kernel, by decide⟩, rfl, by decide⟩
  have htwenty : Denotes (ascii "20") 20 :=
    ⟨⟨[], .none, ascii "20", nofun, by decide +kernel, by decide⟩, rfl, by decide⟩
  obtain rfl := hdoc.words.unique (fun _ _ _ hn hn' => hn.unique hn')
    (.ex (by decide) hten (by decide) (.px (by decide) htwenty (by decide) .nil))
  exact absurd hdoc.once.lifetime (by decide)

end command

end RedisLike
