import RedisLike.Command.NonEmpty
import RedisLike.Lib.Distinct
import RedisLike.Server.Objects

/-!
# RedisLike.Server.Objects.Hash

A hash is a finite map.

`calls` says of the nine commands on hashes what they reply on a map from
fields to values and what they make of it.  The iteration order of the table of
the source is open, so `HKEYS`, `HVALS` and `HGETALL` may reply in any order.
-/

namespace RedisLike

namespace HashObject

/-- The map of a hash. -/
abbrev Fields := Bytes → Option Bytes

/-- The pairs of a map, in some order. -/
def Lists (l : List (Bytes × Bytes)) (m : Fields) : Prop :=
  (l.map Prod.fst).Nodup ∧ ∀ field val, (field, val) ∈ l ↔ m field = some val

/-- The fields of some arguments. -/
def fieldsOf : List Bytes → List Bytes
  | field :: _ :: rest => field :: fieldsOf rest
  | _ => []

/-- The map with the pairs of some arguments stored. -/
def setFields : List Bytes → Fields → Fields
  | field :: val :: rest, m => setFields rest (Function.update m field (some val))
  | _, m => m

/-! ## The calls -/

/-- `HSET`: the reply is the number of new fields. -/
def hSet : Call Fields := .checked (fun args => 3 ≤ args.length && args.length % 2 = 1)
  fun args m reply m' =>
    reply = RespCodec.integer
      (((fieldsOf (args.drop 1)).toFinset.filter fun field => m field = none).card : Nat) ∧
      m' = setFields (args.drop 1) m

/-- `HDEL`: the reply is the number of fields that were there. -/
def hDel : Call Fields := .checked (fun args => 2 ≤ args.length) fun args m reply m' =>
  reply = RespCodec.integer
    (((args.drop 1).toFinset.filter fun field => (m field).isSome).card : Nat) ∧
    m' = fun field => if field ∈ args.drop 1 then none else m field

/-- The commands that reply something of the value of a field. -/
def ofField (reply : Option Bytes → Bytes) : Call Fields :=
  .checked (fun args => 2 ≤ args.length) <| .reading fun args m r => r = reply (m (args.getD 1 []))

/-- `HGET`. -/
def hGet : Call Fields := ofField fun v => v.elim RespCodec.nullBulkString RespCodec.bulkString

/-- `HEXISTS`. -/
def hExists : Call Fields := ofField fun v => boolReply v.isSome

/-- `HSTRLEN`. -/
def hStrLen : Call Fields := ofField fun v => RespCodec.integer (v.elim 0 List.length : Nat)

/-- The commands that reply a list of the pairs. -/
def listing (reply : List (Bytes × Bytes) → Bytes) : Call Fields :=
  .checked (fun args => !args.isEmpty) <| .reading fun _ m r => ∃ l, Lists l m ∧ r = reply l

/-- `HKEYS`. -/
def hKeys : Call Fields := listing fun l => bulkArray (l.map Prod.fst)

/-- `HVALS`. -/
def hVals : Call Fields := listing fun l => bulkArray (l.map Prod.snd)

/-- `HGETALL`. -/
def hGetAll : Call Fields := listing fun l => bulkArray (l.flatMap fun kv => [kv.1, kv.2])

/-- `HLEN`. -/
def hLen : Call Fields := listing fun l => RespCodec.integer l.length

/-- The commands on hashes. -/
def calls : List (Bytes × Call Fields) :=
  [ (ascii "HSET", hSet), (ascii "HGET", hGet), (ascii "HDEL", hDel), (ascii "HEXISTS", hExists),
    (ascii "HKEYS", hKeys), (ascii "HVALS", hVals), (ascii "HGETALL", hGetAll),
    (ascii "HLEN", hLen), (ascii "HSTRLEN", hStrLen) ]

/-! ## Loops -/

theorem lookup_hSetLoop_setFields (args : List Bytes) (h : RedisHash) (added : Nat) :
    (hSetLoop args h added).2.lookup = setFields args h.lookup := by
  fun_induction hSetLoop args h added with
  | case1 field val rest hash added ih =>
      have hinsert : (hash.insert field val).lookup =
          Function.update hash.lookup field (some val) := by
        funext f
        rw [UnorderedMap.lookup_insert_eq, Function.update_apply]
      rw [ih, hinsert, setFields]
  | case2 args hash added hargs =>
      rw [setFields]
      exact fun field val rest heq => hargs field val rest heq

theorem hSetLoop_fst (args : List Bytes) (h : RedisHash) (added : Nat) :
    (hSetLoop args h added).1 = added +
      ((fieldsOf args).toFinset.filter fun field => h.lookup field = none).card := by
  fun_induction hSetLoop args h added with
  | case1 field val rest hash added ih =>
      have hfilter : ((fieldsOf rest).toFinset.filter fun f =>
          (hash.insert field val).lookup f = none) =
          (fieldsOf rest).toFinset.filter fun f => hash.lookup f = none ∧ f ≠ field :=
        Finset.filter_congr fun f _ => by
          rw [UnorderedMap.lookup_insert_eq]
          split <;> simp [*]
      rw [ih, hfilter, fieldsOf, List.toFinset_cons, Distinct.card_filter_insert, ← Nat.add_assoc]
      cases hash.lookup field <;> rfl
  | case2 args hash added hargs =>
      have hnil : fieldsOf args = [] := by
        rw [fieldsOf]
        exact fun field val rest heq => hargs field val rest heq
      rw [hnil]
      rfl

theorem hDelLoop_fst (args : List Bytes) (h : RedisHash) (count : Nat) :
    (hDelLoop args h count).1 =
      count + (args.toFinset.filter fun field => (h.lookup field).isSome).card := by
  refine @Distinct.loop_fst _ _ _ hDelLoop (fun field hash => hash.erase field)
    (fun hash field => (hash.lookup field).isSome = true) _ (fun _ => True) (fun _ _ => rfl)
    (fun _ _ _ _ => rfl) (fun _ _ _ => trivial) (fun field hash _ f => ?_) args h trivial count
  rw [UnorderedMap.lookup_erase_eq]
  split
  · next hf => simp [hf]
  · next hf => exact (and_iff_left hf).symm

theorem lookup_hDelLoop_eq (args : List Bytes) (h : RedisHash) (count : Nat) :
    (hDelLoop args h count).2.lookup =
      fun field => if field ∈ args then none else h.lookup field := by
  funext f
  induction args generalizing h count with
  | nil => rfl
  | cons field args ih =>
      rw [hDelLoop, ih, UnorderedMap.lookup_erase_eq]
      by_cases hf : f = field <;> by_cases hm : f ∈ args <;> simp [hf, hm]

/-! ## The object -/

/-- The pairs of a hash are those of its map. -/
theorem lists_pairs (h : RedisHash) : Lists h.pairs h.lookup :=
  ⟨h.nodup_map_fst_pairs, fun _ _ => UnorderedMap.mem_pairs⟩

/-- A hash stands for its lookups. -/
def rep : Representation RedisHash Fields where
  kind := hashes.kind
  Rep h m := h.lookup = m
  init := fun _ => none

theorem empty_iff_init (h : RedisHash) : h.empty = true ↔ h.lookup = rep.init :=
  UnorderedMap.empty_iff.trans funext_iff.symm

section refines

variable (ctx : CmdContext)

/-- A command that reads one field. -/
theorem ofField_refines {handler : CmdHandler} {err absent : Bytes}
    {present : Dict → RedisHash → Bytes} {reply : Option Bytes → Bytes} (herr : isError err = true)
    (hf : ∀ db, handler { ctx with db := db } = if ctx.cmd.args.length < 2 then (err, db)
      else readHash { ctx with db := db } absent (present db))
    (habsent : absent = reply none)
    (hpresent : ∀ db, present db = fun h => reply (h.lookup (ctx.arg 1))) :
    rep.RefinesAt (CmdHandler.on handler ctx) ctx.now (ctx.arg 0) (ofField reply ctx.cmd.args) := by
  refine Representation.refinesAt_readObject herr hf
    (fun db => (hpresent db).trans (hpresent ∅).symm) (Representation.le_iff_not_lt _ _) habsent
    fun h m hm _ => ?_
  rw [hpresent, ← show h.lookup = m from hm]
  rfl

theorem hGet_refines :
    rep.RefinesAt (CmdHandler.on hGetCmd ctx) ctx.now (ctx.arg 0) (hGet ctx.cmd.args) := by
  refine ofField_refines ctx (isError_error _) (fun db => rfl) rfl fun _ => funext fun h => ?_
  dsimp only [CmdContext.arg]
  cases h.lookup (ctx.cmd.args.getD 1 []) <;> rfl

theorem hExists_refines :
    rep.RefinesAt (CmdHandler.on hExistsCmd ctx) ctx.now (ctx.arg 0) (hExists ctx.cmd.args) :=
  ofField_refines ctx (isError_error _) (fun _ => rfl) rfl fun _ => rfl

theorem hStrLen_refines :
    rep.RefinesAt (CmdHandler.on hStrLenCmd ctx) ctx.now (ctx.arg 0) (hStrLen ctx.cmd.args) := by
  refine ofField_refines ctx (isError_error _) (fun db => rfl) rfl fun _ => funext fun h => ?_
  dsimp only [CmdContext.arg]
  cases h.lookup (ctx.cmd.args.getD 1 []) <;> rfl

/-- A command that lists the pairs. -/
theorem listing_refines {handler : CmdHandler} {err absent : Bytes}
    {reply : List (Bytes × Bytes) → Bytes} (herr : isError err = true)
    (hf : ∀ db, handler { ctx with db := db } = if ctx.cmd.args.isEmpty = true then (err, db)
      else readHash { ctx with db := db } absent fun h => reply h.pairs)
    (habsent : absent = reply []) :
    rep.RefinesAt (CmdHandler.on handler ctx) ctx.now (ctx.arg 0) (listing reply ctx.cmd.args) := by
  refine Representation.refinesAt_readObject herr hf (fun _ => rfl)
    (Representation.not_isEmpty_iff _) ⟨[], ?_, habsent⟩ fun h m hm _ => ?_
  · exact ⟨List.nodup_nil, fun _ _ => by simp [rep]⟩
  · exact ⟨h.pairs, (show h.lookup = m from hm) ▸ lists_pairs h, rfl⟩

theorem hKeys_refines :
    rep.RefinesAt (CmdHandler.on hKeysCmd ctx) ctx.now (ctx.arg 0) (hKeys ctx.cmd.args) :=
  listing_refines ctx (isError_error _) (fun _ => rfl) rfl

theorem hVals_refines :
    rep.RefinesAt (CmdHandler.on hValsCmd ctx) ctx.now (ctx.arg 0) (hVals ctx.cmd.args) :=
  listing_refines ctx (isError_error _) (fun _ => rfl) rfl

theorem hGetAll_refines :
    rep.RefinesAt (CmdHandler.on hGetAllCmd ctx) ctx.now (ctx.arg 0) (hGetAll ctx.cmd.args) :=
  listing_refines ctx (isError_error _) (fun _ => rfl) rfl

theorem hLen_refines :
    rep.RefinesAt (CmdHandler.on hLenCmd ctx) ctx.now (ctx.arg 0) (hLen ctx.cmd.args) := by
  refine listing_refines ctx
    (isError_error (ascii "ERR wrong number of arguments for 'HLEN'")) (fun db => ?_) rfl
  simp only [hLenCmd, UnorderedMap.size, UnorderedMap.pairs, List.length_map]
  rfl

theorem hSet_refines :
    rep.RefinesAt (CmdHandler.on hSetCmd ctx) ctx.now (ctx.arg 0) (hSet ctx.cmd.args) := by
  refine Representation.refinesAt_action (isError_error _) (hSetCmd_performs ctx) ?_
    fun hargs hspec => Representation.refinesAt_create hspec rfl fun h m hm => ?_
  · rw [Bool.and_eq_true, decide_eq_true_eq, decide_eq_true_eq]
    omega
  · obtain rfl : h.lookup = m := hm
    refine ⟨(hSetLoop (ctx.cmd.args.drop 1) h 0).2, _, rfl, rfl, mt (empty_iff_init _).mpr ?_,
      ?_, ?_⟩
    · exact Bool.eq_false_iff.mp (empty_hSetLoop (by rw [List.length_drop]; omega) h 0)
    · simp only [hSetLoop_fst, Nat.zero_add]
    · exact lookup_hSetLoop_setFields _ _ _

theorem hDel_refines :
    rep.RefinesAt (CmdHandler.on hDelCmd ctx) ctx.now (ctx.arg 0) (hDel ctx.cmd.args) := by
  refine Representation.refinesAt_action (isError_error _) (hDelCmd_performs ctx) ?_
    fun hargs hspec => Representation.refinesAt_remove hspec ?_ fun h m hm _ => ?_
  · rw [decide_eq_true_eq, not_lt]
  · exact ⟨by simp [rep], by simp [rep]⟩
  · obtain rfl : h.lookup = m := hm
    refine ⟨(hDelLoop (ctx.cmd.args.drop 1) h 0).2, _, rfl, rfl, empty_iff_init _, ?_, ?_⟩
    · simp only [hDelLoop_fst, Nat.zero_add]
    · exact lookup_hDelLoop_eq _ _ _

end refines

/-- Hashes. -/
def object : ObjectSpec RedisHash Fields where
  toRepresentation := rep
  calls := calls
  refines := by
    simp only [calls, List.forall_mem_cons, List.not_mem_nil, false_imp_iff, implies_true, and_true]
    exact ⟨⟨_, rfl, fun ctx _ _ => hSet_refines ctx⟩,
      ⟨_, rfl, fun ctx _ _ => hGet_refines ctx⟩,
      ⟨_, rfl, fun ctx _ _ => hDel_refines ctx⟩,
      ⟨_, rfl, fun ctx _ _ => hExists_refines ctx⟩,
      ⟨_, rfl, fun ctx _ _ => hKeys_refines ctx⟩,
      ⟨_, rfl, fun ctx _ _ => hVals_refines ctx⟩,
      ⟨_, rfl, fun ctx _ _ => hGetAll_refines ctx⟩,
      ⟨_, rfl, fun ctx _ _ => hLen_refines ctx⟩,
      ⟨_, rfl, fun ctx _ _ => hStrLen_refines ctx⟩⟩

/-- **A hash is a finite map, up to its deadline.**  Whatever else the server does,
the commands on a key that only hash commands, `EXPIRE`, `PEXPIRE` and `DEL` write
to reply as those on one finite map that is gone from its deadline on, and the
entry stands for that map. -/
theorem hash_history {key : Bytes} {ops : List Op} {db : Dict} (hclock : ClockForward ops)
    (hfree : db.get key = none) (hkeeps : object.Keeps key ops) :
    ∃ x, object.spec.Allowed (.gone fun _ => none) (object.history key db ops) x ∧
      ∀ now, Until now ops →
        object.Holds ((runOps db ops).live now key) (x.shown (fun _ => none) now) :=
  object.history_allowed hclock hfree hkeeps

/-- A run on the hash `h`: two fields by two clients, a deadline, a look at the fields, and one
behind the deadline. -/
def hashOps : List Op :=
  [ .command 5 ⟨⟨1, fun _ _ => 0⟩, ⟨ascii "hset", [ascii "h", ascii "a", ascii "x"]⟩⟩,
    .command 6 ⟨⟨2, fun _ _ => 0⟩, ⟨ascii "HSET", [ascii "h", ascii "b", ascii "y"]⟩⟩,
    .command 6 ⟨⟨2, fun _ _ => 0⟩, ⟨ascii "pexpire", [ascii "h", ascii "1"]⟩⟩,
    .command 5 ⟨⟨4, fun _ _ => 0⟩, ⟨ascii "HGETALL", [ascii "h"]⟩⟩,
    .expireCheck 1000002 fun _ => 0,
    .command 5 ⟨⟨1000002, fun _ _ => 0⟩, ⟨ascii "HLEN", [ascii "h"]⟩⟩ ]

theorem hash_history_two :
    ∃ x, object.spec.Allowed (.gone fun _ => none) (object.history (ascii "h") ∅ hashOps) x ∧
      ∀ now, Until now hashOps →
        object.Holds ((runOps ∅ hashOps).live now (ascii "h")) (x.shown (fun _ => none) now) :=
  hash_history (by decide) rfl (by decide)

end HashObject

end RedisLike
