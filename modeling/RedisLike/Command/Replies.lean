import RedisLike.Command.Table
import RedisLike.Resp.Reply

/-!
# RedisLike.Command.Replies

Every handler replies one RESP value (`replies_of_findHandler`): a line with a
text of the server, or bulk strings and arrays, whose payloads may be anything.
Arrays hold bulk strings, so two levels are enough to read a reply.
-/

namespace RedisLike

/-- The handler replies one value. -/
def CmdHandler.Replies (handler : CmdHandler) : Prop := ∀ ctx, ReadsValue 2 (handler ctx).1

/-! ## Shapes of handlers -/

theorem readsValue_bulkArray (items : List Bytes) : ReadsValue 2 (bulkArray items) := by
  refine readsValue_array fun item hitem => ?_
  obtain ⟨s, -, rfl⟩ := List.mem_map.mp hitem
  exact readsValue_bulkString s 0

theorem readsValue_emptyArray : ReadsValue 2 RespCodec.emptyArray := readsValue_array nofun

theorem readsValue_wrongType : ReadsValue 2 wrongType := readsValue_error (by decide) 1

theorem readsValue_orReply {α : Type} {r : Option (RedisObject × α) × Dict} {absent : Bytes}
    {rest : RedisObject → α → Dict → Bytes × Dict} (habsent : ReadsValue 2 absent)
    (hrest : ∀ obj v db, ReadsValue 2 (rest obj v db).1) :
    ReadsValue 2 (orReply r absent rest).1 := by
  obtain ⟨found, db⟩ := r
  cases found with
  | none => exact habsent
  | some p => exact hrest p.1 p.2 db

theorem readsValue_readObject {α : Type} {as : ValueVariant → Option α} {ctx : CmdContext}
    {key absent : Bytes} {present : α → Bytes} (habsent : ReadsValue 2 absent)
    (hpresent : ∀ v, ReadsValue 2 (present v)) :
    ReadsValue 2 (readObject as ctx key absent present).1 :=
  readsValue_orReply habsent fun _ v _ => hpresent v

theorem readsValue_choice {c : Prop} [Decidable c] {a b : Bytes} (ha : ReadsValue 2 a)
    (hb : ReadsValue 2 b) : ReadsValue 2 (if c then a else b) := by
  split
  · exact ha
  · exact hb

theorem readsValue_ite {c : Prop} [Decidable c] {a b : Bytes × Dict} (ha : ReadsValue 2 a.1)
    (hb : ReadsValue 2 b.1) : ReadsValue 2 (if c then a else b).1 := by
  rw [apply_ite Prod.fst]
  exact readsValue_choice ha hb

/-! ## Strings and keys -/

theorem setOptions_replies {opts : List Bytes} {o : SetOptions} {reply : Bytes}
    (h : setOptions opts o = .error reply) : ReadsValue 2 reply := by
  have hsyntax : ReadsValue 2 (RespCodec.error (ascii "ERR syntax error")) :=
    readsValue_error (by decide) 1
  have htime : ReadsValue 2 (RespCodec.error (ascii "ERR invalid expire time in 'SET'")) :=
    readsValue_error (by decide) 1
  fun_induction setOptions opts o with
  | case1 => cases h
  | case2 _ _ _ _ _ ih => exact ih h
  | case3 _ _ _ _ _ _ ih => exact ih h
  | case4 => cases h; exact hsyntax
  | case5 => cases h; exact htime
  | case6 => cases h; exact htime
  | case7 => simp_all
  | case8 => cases h; exact hsyntax
  | case9 => cases h; exact htime
  | case10 => cases h; exact htime
  | case11 => simp_all
  | case12 => cases h; exact hsyntax

theorem setCmd_replies : CmdHandler.Replies setCmd := by
  intro ctx
  unfold setCmd
  refine readsValue_ite (readsValue_error (by decide) 1) ?_
  cases hopts : setOptions (ctx.cmd.args.drop 2) {} with
  | error reply => exact setOptions_replies hopts
  | ok o =>
      refine readsValue_ite (readsValue_error (by decide) 1) ?_
      refine readsValue_ite (readsValue_nullBulkString 1) ?_
      exact readsValue_ite (readsValue_nullBulkString 1)
        (readsValue_simpleString (by decide) 1)

theorem getCmd_replies : CmdHandler.Replies getCmd := fun _ =>
  readsValue_ite (readsValue_error (by decide) 1)
    (readsValue_readObject (readsValue_nullBulkString 1) fun s => readsValue_bulkString s 1)

theorem delCmd_replies : CmdHandler.Replies delCmd := fun _ =>
  readsValue_ite (readsValue_error (by decide) 1) (readsValue_integer _ 1)

theorem existsCmd_replies : CmdHandler.Replies existsCmd := fun _ =>
  readsValue_ite (readsValue_error (by decide) 1) (readsValue_integer _ 1)

theorem expireWith_replies {arity : Bytes} (add : TimePoint → Int64 → TimePoint)
    (h : ReadsValue 2 arity) : CmdHandler.Replies (expireWith arity add) := by
  intro ctx
  unfold expireWith
  refine readsValue_ite h ?_
  cases parseInt (ctx.arg 1) with
  | none => exact readsValue_error (by decide) 1
  | some n =>
      cases hget : (ctx.checkExpire (ctx.arg 0)).get (ctx.arg 0) with
      | none => simpa only [hget] using readsValue_integer 0 1
      | some obj =>
          simp only [hget]
          exact readsValue_ite (readsValue_integer 1 1) (readsValue_integer 1 1)

theorem inspectKey_replies {arity : Bytes} {reply : TimePoint → Option RedisObject → Bytes}
    (h : ReadsValue 2 arity) (hreply : ∀ now obj, ReadsValue 2 (reply now obj)) :
    CmdHandler.Replies (inspectKey arity reply) := fun _ =>
  readsValue_ite h (hreply _ _)

theorem typeCmd_replies : CmdHandler.Replies typeCmd := by
  refine inspectKey_replies (readsValue_error (by decide) 1) fun _ obj => ?_
  cases obj with
  | none => exact readsValue_simpleString (by decide) 1
  | some obj =>
      have hname : ∀ t : ObjType, cr ∉ t.name := by
        intro t
        cases t <;> decide +kernel
      exact readsValue_simpleString (hname obj.type) 1

theorem keysCmd_replies : CmdHandler.Replies keysCmd := fun _ =>
  readsValue_ite (readsValue_error (by decide) 1) (readsValue_bulkArray _)

/-! ## Hashes -/

theorem hSetCmd_replies : CmdHandler.Replies hSetCmd := fun _ =>
  readsValue_ite (readsValue_error (by decide) 1)
    (readsValue_orReply readsValue_wrongType fun _ _ _ => readsValue_integer _ 1)

theorem hGetCmd_replies : CmdHandler.Replies hGetCmd := by
  intro ctx
  unfold hGetCmd
  refine readsValue_ite (readsValue_error (by decide) 1)
    (readsValue_readObject (readsValue_nullBulkString 1) fun hash => ?_)
  cases hash.lookup (ctx.arg 1) with
  | none => exact readsValue_nullBulkString 1
  | some v => exact readsValue_bulkString v 1

theorem hDelCmd_replies : CmdHandler.Replies hDelCmd := fun _ =>
  readsValue_ite (readsValue_error (by decide) 1)
    (readsValue_orReply (readsValue_integer 0 1) fun _ _ _ => readsValue_integer _ 1)

theorem hExistsCmd_replies : CmdHandler.Replies hExistsCmd := fun _ =>
  readsValue_ite (readsValue_error (by decide) 1)
    (readsValue_readObject (readsValue_integer 0 1) fun _ => readsValue_integer _ 1)

theorem hKeysCmd_replies : CmdHandler.Replies hKeysCmd := fun _ =>
  readsValue_ite (readsValue_error (by decide) 1)
    (readsValue_readObject readsValue_emptyArray fun _ => readsValue_bulkArray _)

theorem hValsCmd_replies : CmdHandler.Replies hValsCmd := fun _ =>
  readsValue_ite (readsValue_error (by decide) 1)
    (readsValue_readObject readsValue_emptyArray fun _ => readsValue_bulkArray _)

theorem hGetAllCmd_replies : CmdHandler.Replies hGetAllCmd := fun _ =>
  readsValue_ite (readsValue_error (by decide) 1)
    (readsValue_readObject readsValue_emptyArray fun _ => readsValue_bulkArray _)

theorem hLenCmd_replies : CmdHandler.Replies hLenCmd := fun _ =>
  readsValue_ite (readsValue_error (by decide) 1)
    (readsValue_readObject (readsValue_integer 0 1) fun _ => readsValue_integer _ 1)

theorem hStrLenCmd_replies : CmdHandler.Replies hStrLenCmd := by
  intro ctx
  unfold hStrLenCmd
  refine readsValue_ite (readsValue_error (by decide) 1)
    (readsValue_readObject (readsValue_integer 0 1) fun hash => ?_)
  cases hash.lookup (ctx.arg 1) with
  | none => exact readsValue_integer 0 1
  | some v => exact readsValue_integer v.length 1

/-! ## Lists -/

theorem pushWith_replies {arity : Bytes} (push : RedisList → Bytes → RedisList)
    (h : ReadsValue 2 arity) : CmdHandler.Replies (pushWith arity push) := fun _ =>
  readsValue_ite h
    (readsValue_orReply readsValue_wrongType fun _ _ _ => readsValue_integer _ 1)

/-- The elements of a pop's reply are bulk strings. -/
theorem popLoop_bulkStrings (pop : RedisList → Option (Bytes × RedisList)) (count : Nat)
    (lst : RedisList) : ∀ item ∈ (popLoop pop count lst).1, ∃ x, item = RespCodec.bulkString x := by
  induction count generalizing lst with
  | zero => exact nofun
  | succ count ih =>
      rw [popLoop]
      cases pop lst with
      | none => exact nofun
      | some p =>
          intro item hitem
          rcases List.mem_cons.mp hitem with rfl | hitem
          · exact ⟨p.1, rfl⟩
          · exact ih p.2 item hitem

/-- The reply to a pop: an array of what was popped, or the only element. -/
theorem readsValue_popReply (withCount : Bool) {result : List Bytes}
    (h : ∀ item ∈ result, ∃ x, item = RespCodec.bulkString x) :
    ReadsValue 2 (popReply withCount result) := by
  cases withCount with
  | true =>
      refine readsValue_array fun item hitem => ?_
      obtain ⟨x, rfl⟩ := h item hitem
      exact readsValue_bulkString x 0
  | false =>
      cases result with
      | nil => exact readsValue_nullBulkString 1
      | cons item items =>
          obtain ⟨x, rfl⟩ := h item List.mem_cons_self
          exact readsValue_bulkString x 1

theorem popWith_replies {arity : Bytes} (pop : RedisList → Option (Bytes × RedisList))
    (h : ReadsValue 2 arity) : CmdHandler.Replies (popWith arity pop) := by
  have hrange : ReadsValue 2 (RespCodec.error (ascii "ERR value is out of range")) :=
    readsValue_error (by decide) 1
  intro ctx
  unfold popWith
  refine readsValue_ite h ?_
  extract_lets withCount count
  cases count with
  | none => exact hrange
  | some count =>
      refine readsValue_ite hrange (readsValue_orReply (readsValue_nullBulkString 1) ?_)
      exact fun _ lst _ => readsValue_popReply withCount (popLoop_bulkStrings pop _ lst)

theorem lLenCmd_replies : CmdHandler.Replies lLenCmd := fun _ =>
  readsValue_ite (readsValue_error (by decide) 1)
    (readsValue_readObject (readsValue_integer 0 1) fun _ => readsValue_integer _ 1)

/-- Two numbers, and what is done with them. -/
theorem readsValue_twoInts {a b : Option Int64} {text : Bytes} {db : Dict}
    {rest : Int64 → Int64 → Bytes × Dict} (htext : cr ∉ text)
    (hrest : ∀ start stop, ReadsValue 2 (rest start stop).1) :
    ReadsValue 2 (match a, b with
      | some start, some stop => rest start stop
      | _, _ => (RespCodec.error text, db)).1 := by
  cases a with
  | none => exact readsValue_error htext 1
  | some start =>
      cases b with
      | none => exact readsValue_error htext 1
      | some stop => exact hrest start stop

theorem lRangeCmd_replies : CmdHandler.Replies lRangeCmd := fun _ =>
  readsValue_ite (readsValue_error (by decide) 1)
    (readsValue_twoInts (by decide) fun _ _ =>
      readsValue_readObject readsValue_emptyArray fun _ => readsValue_bulkArray _)

theorem lIndexCmd_replies : CmdHandler.Replies lIndexCmd := by
  intro ctx
  unfold lIndexCmd
  refine readsValue_ite (readsValue_error (by decide) 1) ?_
  cases parseInt (ctx.arg 1) with
  | none => exact readsValue_error (by decide) 1
  | some idx =>
      refine readsValue_readObject (readsValue_nullBulkString 1) fun lst => ?_
      exact readsValue_choice (readsValue_nullBulkString 1)
        (readsValue_choice (readsValue_nullBulkString 1) (readsValue_bulkString _ 1))

/-! ## Sets -/

theorem sAddCmd_replies : CmdHandler.Replies sAddCmd := fun _ =>
  readsValue_ite (readsValue_error (by decide) 1)
    (readsValue_orReply readsValue_wrongType fun _ _ _ => readsValue_integer _ 1)

theorem sRemCmd_replies : CmdHandler.Replies sRemCmd := fun _ =>
  readsValue_ite (readsValue_error (by decide) 1)
    (readsValue_orReply (readsValue_integer 0 1) fun _ _ _ => readsValue_integer _ 1)

theorem sIsMemberCmd_replies : CmdHandler.Replies sIsMemberCmd := fun _ =>
  readsValue_ite (readsValue_error (by decide) 1)
    (readsValue_readObject (readsValue_integer 0 1) fun _ => readsValue_integer _ 1)

theorem sMembersCmd_replies : CmdHandler.Replies sMembersCmd := fun _ =>
  readsValue_ite (readsValue_error (by decide) 1)
    (readsValue_readObject readsValue_emptyArray fun _ => readsValue_bulkArray _)

theorem sCardCmd_replies : CmdHandler.Replies sCardCmd := fun _ =>
  readsValue_ite (readsValue_error (by decide) 1)
    (readsValue_readObject (readsValue_integer 0 1) fun _ => readsValue_integer _ 1)

theorem sPopLoop_bulkStrings (rng : Nat → Nat → Nat) (count i : Nat) (set : RedisSet) :
    ∀ item ∈ (sPopLoop rng count i set).1, ∃ x, item = RespCodec.bulkString x := by
  induction count generalizing i set with
  | zero => exact nofun
  | succ count ih =>
      intro item hitem
      rcases List.mem_cons.mp hitem with rfl | hitem
      · exact ⟨_, rfl⟩
      · exact ih _ _ item hitem

theorem sPopCmd_replies : CmdHandler.Replies sPopCmd := by
  intro ctx
  unfold sPopCmd
  refine readsValue_ite (readsValue_error (by decide) 1) ?_
  extract_lets withCount
  cases sPopArg ctx.cmd.args with
  | none => exact readsValue_error (by decide) 1
  | some count =>
      refine readsValue_orReply
        (readsValue_choice readsValue_emptyArray (readsValue_nullBulkString 1)) ?_
      exact fun _ set _ => readsValue_popReply withCount (sPopLoop_bulkStrings ctx.rng _ 0 set)

/-! ## Sorted sets -/

theorem zAddCmd_replies : CmdHandler.Replies zAddCmd := by
  intro ctx
  unfold zAddCmd
  refine readsValue_ite (readsValue_error (by decide) 1)
    (readsValue_orReply readsValue_wrongType fun _ sl _ => ?_)
  extract_lets r db
  cases r.1 with
  | none => exact readsValue_error (by decide) 1
  | some added => exact readsValue_integer added 1

theorem zRemCmd_replies : CmdHandler.Replies zRemCmd := fun _ =>
  readsValue_ite (readsValue_error (by decide) 1)
    (readsValue_orReply (readsValue_integer 0 1) fun _ _ _ => readsValue_integer _ 1)

theorem zScoreCmd_replies : CmdHandler.Replies zScoreCmd := by
  intro ctx
  unfold zScoreCmd
  refine readsValue_ite (readsValue_error (by decide) 1)
    (readsValue_readObject (readsValue_nullBulkString 1) fun sl => ?_)
  cases sl.getScore (ctx.arg 1) with
  | none => exact readsValue_nullBulkString 1
  | some score => exact readsValue_bulkString _ 1

theorem zRankCmd_replies : CmdHandler.Replies zRankCmd := by
  intro ctx
  unfold zRankCmd
  refine readsValue_ite (readsValue_error (by decide) 1)
    (readsValue_readObject (readsValue_nullBulkString 1) fun sl => ?_)
  cases sl.getRank (ctx.arg 1) with
  | none => exact readsValue_nullBulkString 1
  | some rank => exact readsValue_integer rank 1

theorem zRevRankCmd_replies : CmdHandler.Replies zRevRankCmd := by
  intro ctx
  unfold zRevRankCmd
  refine readsValue_ite (readsValue_error (by decide) 1)
    (readsValue_readObject (readsValue_nullBulkString 1) fun sl => ?_)
  cases sl.getRank (ctx.arg 1) with
  | none => exact readsValue_nullBulkString 1
  | some rank => exact readsValue_integer _ 1

/-- `WITHSCORES` doubles the count of the header as well. -/
theorem readsValue_membersReply (sl : SkipList) (withscores : Bool) (members : List Bytes) :
    ReadsValue 2 (membersReply sl withscores members) := readsValue_bulkArray _

theorem zRangeCmd_replies : CmdHandler.Replies zRangeCmd := fun _ =>
  readsValue_ite (readsValue_error (by decide) 1)
    (readsValue_twoInts (by decide) fun _ _ =>
      readsValue_readObject readsValue_emptyArray fun _ => readsValue_membersReply _ _ _)

theorem readsValue_zRevRange (sl : SkipList) (withscores : Bool) (start stop : Int) :
    ReadsValue 2 (zRevRange sl withscores start stop) :=
  readsValue_choice readsValue_emptyArray
    (readsValue_choice readsValue_emptyArray (readsValue_membersReply _ _ _))

theorem zRevRangeCmd_replies : CmdHandler.Replies zRevRangeCmd := fun _ =>
  readsValue_ite (readsValue_error (by decide) 1)
    (readsValue_twoInts (by decide) fun _ _ =>
      readsValue_readObject readsValue_emptyArray fun _ => readsValue_zRevRange _ _ _ _)

theorem zCardCmd_replies : CmdHandler.Replies zCardCmd := fun _ =>
  readsValue_ite (readsValue_error (by decide) 1)
    (readsValue_readObject (readsValue_integer 0 1) fun _ => readsValue_integer _ 1)

/-! ## The table -/

theorem pingCmd_replies : CmdHandler.Replies pingCmd := fun _ =>
  readsValue_choice (readsValue_bulkString (ascii "PONG") 1) (readsValue_bulkString _ 1)

theorem replies_of_mem {entry : Bytes × CmdHandler} (h : entry ∈ commandTable) :
    entry.2.Replies := by
  have hall : ∀ entry ∈ commandTable, entry.2.Replies := by
    simp only [commandTable, List.forall_mem_cons]
    exact ⟨pingCmd_replies, fun _ => readsValue_emptyArray,
      fun _ => readsValue_simpleString (by decide) 1, setCmd_replies, getCmd_replies,
      delCmd_replies, existsCmd_replies,
      expireWith_replies _ (readsValue_error (by decide) 1),
      inspectKey_replies (readsValue_error (by decide) 1) fun _ _ =>
        readsValue_integer _ 1,
      expireWith_replies _ (readsValue_error (by decide) 1),
      inspectKey_replies (readsValue_error (by decide) 1) fun _ _ =>
        readsValue_integer _ 1,
      typeCmd_replies, keysCmd_replies, hSetCmd_replies, hGetCmd_replies, hDelCmd_replies,
      hExistsCmd_replies, hKeysCmd_replies, hValsCmd_replies, hGetAllCmd_replies,
      hLenCmd_replies, hStrLenCmd_replies,
      pushWith_replies _ (readsValue_error (by decide) 1),
      pushWith_replies _ (readsValue_error (by decide) 1),
      popWith_replies _ (readsValue_error (by decide) 1),
      popWith_replies _ (readsValue_error (by decide) 1),
      lLenCmd_replies, lRangeCmd_replies, lIndexCmd_replies, sAddCmd_replies, sRemCmd_replies,
      sIsMemberCmd_replies, sMembersCmd_replies, sCardCmd_replies, sPopCmd_replies,
      zAddCmd_replies, zRemCmd_replies, zScoreCmd_replies, zRankCmd_replies, zRevRankCmd_replies,
      zRangeCmd_replies, zRevRangeCmd_replies, zCardCmd_replies, nofun⟩
  exact hall entry h

theorem replies_of_findHandler {name : Bytes} {handler : CmdHandler}
    (h : findHandler name = some handler) : handler.Replies := by
  have hmem : (name, handler) ∈ commandTable := mem_of_lookup_eq_some h
  exact replies_of_mem hmem

end RedisLike
