import RedisLike.Command.NonEmpty
import RedisLike.Command.RandomDraws
import RedisLike.Lib.Distinct
import RedisLike.Server.Objects

/-!
# RedisLike.Server.Objects.Set

A set is a finite set.

`calls` says of the six commands on sets what they reply on a finite set of
members and what they make of it.  `SPOP` may choose any members, and
`SMEMBERS` any order.
-/

namespace RedisLike

namespace SetObject

/-- The members of a set. -/
abbrev Members := Finset Bytes

/-! ## The calls -/

/-- `SADD`: the reply is the number of new members. -/
def sAdd : Call Members := .checked (fun args => 2 ≤ args.length) fun args s reply s' =>
  reply = RespCodec.integer (((args.drop 1).toFinset.filter fun m => m ∉ s).card : Nat) ∧
    s' = s ∪ (args.drop 1).toFinset

/-- `SREM`: the reply is the number of members that were there. -/
def sRem : Call Members := .checked (fun args => 2 ≤ args.length) fun args s reply s' =>
  reply = RespCodec.integer (((args.drop 1).toFinset.filter fun m => m ∈ s).card : Nat) ∧
    s' = s \ (args.drop 1).toFinset

/-- `SISMEMBER`. -/
def sIsMember : Call Members := .checked (fun args => 2 ≤ args.length) <| .reading
  fun args s reply => reply = boolReply (decide (args.getD 1 [] ∈ s))

/-- `SMEMBERS`. -/
def sMembers : Call Members := .checked (fun args => !args.isEmpty) <| .reading
  fun _ s reply => ∃ l : List Bytes, l.Nodup ∧ l.toFinset = s ∧ reply = bulkArray l

/-- `SCARD`. -/
def sCard : Call Members := .checked (fun args => !args.isEmpty) <| .reading
  fun _ s reply => reply = RespCodec.integer s.card

/-- `SPOP`: different members, as many as asked for, or all. -/
def sPop : Call Members := .checked (fun args => !args.isEmpty && (sPopArg args).isSome)
  fun args s reply s' => ∃ l : List Bytes, l.Nodup ∧ l.toFinset ⊆ s ∧
    (l.length : Int) = min ((sPopArg args).getD 0) s.card ∧
    reply = membersPopped (2 ≤ args.length) l ∧ s' = s \ l.toFinset

/-- The commands on sets. -/
def calls : List (Bytes × Call Members) :=
  [ (ascii "SADD", sAdd), (ascii "SREM", sRem), (ascii "SISMEMBER", sIsMember),
    (ascii "SMEMBERS", sMembers), (ascii "SCARD", sCard), (ascii "SPOP", sPop) ]

/-! ## Loops -/

theorem sAddLoop_fst (args : List Bytes) (set : RedisSet) (added : Nat) :
    (sAddLoop args set added).1 = added + (args.toFinset.filter fun m => m ∉ set).card := by
  refine @Distinct.loop_fst _ _ _ sAddLoop (fun m set => set.insert m) (fun set m => m ∉ set) _
    (fun _ => True) (fun _ _ => rfl) (fun m args set n => ?_) (fun _ _ _ => trivial)
    (fun m set _ x => ?_) args set trivial added
  · rw [sAddLoop, ite_not]
  · rw [UnorderedSet.mem_insert, not_or, and_comm]

theorem sRemLoop_fst (args : List Bytes) (set : RedisSet) (removed : Nat) :
    (sRemLoop args set removed).1 = removed + (args.toFinset.filter fun m => m ∈ set).card := by
  refine @Distinct.loop_fst _ _ _ sRemLoop (fun m set => set.erase m) (fun set m => m ∈ set) _
    (fun _ => True) (fun _ _ => rfl) (fun _ _ _ _ => rfl) (fun _ _ _ => trivial)
    (fun m set _ x => ?_) args set trivial removed
  rw [UnorderedSet.mem_erase, and_comm]

theorem mem_sAddLoop {m : Bytes} (args : List Bytes) (set : RedisSet) (added : Nat) :
    m ∈ (sAddLoop args set added).2 ↔ m ∈ set ∨ m ∈ args := by
  induction args generalizing set added with
  | nil => simp [sAddLoop]
  | cons x args ih =>
      rw [sAddLoop, ih, UnorderedSet.mem_insert, List.mem_cons]
      tauto

theorem mem_sRemLoop {m : Bytes} (args : List Bytes) (set : RedisSet) (removed : Nat) :
    m ∈ (sRemLoop args set removed).2 ↔ m ∈ set ∧ m ∉ args := by
  induction args generalizing set removed with
  | nil => simp [sRemLoop]
  | cons x args ih =>
      rw [sRemLoop, ih, UnorderedSet.mem_erase, List.mem_cons]
      tauto

/-! ## The object -/

/-- The members of a set of the source. -/
def membersOf (set : RedisSet) : Members := set.elems.toFinset

@[simp] theorem mem_membersOf {m : Bytes} {set : RedisSet} : m ∈ membersOf set ↔ m ∈ set :=
  List.mem_toFinset

theorem card_membersOf (set : RedisSet) : (membersOf set).card = set.size :=
  List.toFinset_card_of_nodup set.nodup

/-- A set stands for its members. -/
def rep : Representation RedisSet Members where
  kind := sets.kind
  Rep set s := membersOf set = s
  init := ∅

theorem empty_iff_init (set : RedisSet) : set.empty = true ↔ membersOf set = rep.init := by
  rw [UnorderedSet.empty_iff, show rep.init = ∅ from rfl, Finset.eq_empty_iff_forall_notMem]
  simp only [mem_membersOf]

section refines

variable (ctx : CmdContext)

theorem sAdd_refines :
    rep.RefinesAt (CmdHandler.on sAddCmd ctx) ctx.now (ctx.arg 0) (sAdd ctx.cmd.args) := by
  refine Representation.refinesAt_action (isError_error _) (sAddCmd_performs ctx) ?_
    fun hargs hspec => Representation.refinesAt_create hspec rfl fun set s hs => ?_
  · rw [decide_eq_true_eq, not_lt]
  · obtain rfl : membersOf set = s := hs
    refine ⟨(sAddLoop (ctx.cmd.args.drop 1) set 0).2, _, rfl, rfl, mt (empty_iff_init _).mpr ?_,
      ?_, ?_⟩
    · exact Bool.eq_false_iff.mp
        (empty_sAddLoop (List.ne_nil_of_length_pos (by rw [List.length_drop]; omega)) set 0)
    · simp only [sAddLoop_fst, Nat.zero_add, mem_membersOf]
    · ext m
      rw [mem_membersOf, mem_sAddLoop, Finset.mem_union, mem_membersOf, List.mem_toFinset]

theorem sRem_refines :
    rep.RefinesAt (CmdHandler.on sRemCmd ctx) ctx.now (ctx.arg 0) (sRem ctx.cmd.args) := by
  refine Representation.refinesAt_action (isError_error _) (sRemCmd_performs ctx) ?_
    fun hargs hspec => Representation.refinesAt_remove hspec ?_ fun set s hs _ => ?_
  · rw [decide_eq_true_eq, not_lt]
  · exact ⟨by simp [rep], by simp [rep]⟩
  · obtain rfl : membersOf set = s := hs
    refine ⟨(sRemLoop (ctx.cmd.args.drop 1) set 0).2, _, rfl, rfl, empty_iff_init _, ?_, ?_⟩
    · simp only [sRemLoop_fst, Nat.zero_add, mem_membersOf]
    · ext m
      rw [mem_membersOf, mem_sRemLoop, Finset.mem_sdiff, mem_membersOf, List.mem_toFinset]

theorem sIsMember_refines :
    rep.RefinesAt (CmdHandler.on sIsMemberCmd ctx) ctx.now (ctx.arg 0)
      (sIsMember ctx.cmd.args) := by
  refine Representation.refinesAt_readObject (isError_error _) (fun _ => rfl) (fun _ => rfl)
    (Representation.le_iff_not_lt _ _) rfl fun set s hs _ => ?_
  obtain rfl : membersOf set = s := hs
  simp only [mem_membersOf]
  rfl

theorem sMembers_refines :
    rep.RefinesAt (CmdHandler.on sMembersCmd ctx) ctx.now (ctx.arg 0) (sMembers ctx.cmd.args) :=
  Representation.refinesAt_readObject (isError_error _) (fun _ => rfl) (fun _ => rfl)
    (Representation.not_isEmpty_iff _) ⟨[], List.nodup_nil, rfl, rfl⟩
    fun set _ hs _ => ⟨set.elems, set.nodup, hs, rfl⟩

theorem sCard_refines :
    rep.RefinesAt (CmdHandler.on sCardCmd ctx) ctx.now (ctx.arg 0) (sCard ctx.cmd.args) := by
  refine Representation.refinesAt_readObject (isError_error _) (fun _ => rfl) (fun _ => rfl)
    (Representation.not_isEmpty_iff _) rfl fun set s hs _ => ?_
  obtain rfl : membersOf set = s := hs
  rw [card_membersOf]

/-- The draws of `SPOP`, on the members. -/
theorem sPopDraw_members (rng : Nat → Nat → Nat) {count : Int} (hcount : 0 ≤ count)
    (set : RedisSet) : ∃ (l : List Bytes) (left : RedisSet),
      sPopDraw rng count set = (l.map RespCodec.bulkString, left) ∧
      l.Nodup ∧ l.toFinset ⊆ membersOf set ∧ (l.length : Int) = min count set.size ∧
      membersOf left = membersOf set \ l.toFinset := by
  have hmin : (if count > set.size then (set.size : Int) else count).toNat ≤ set.size := by
    split <;> omega
  obtain ⟨l, left, -, hloop, hpart, hlen⟩ := @sPopDraws_eq rng _ 0 set hmin
  refine ⟨l, left, hloop, hpart.nodup, fun m hm => ?_, ?_, ?_⟩
  · exact mem_membersOf.mpr (hpart.subset m (List.mem_toFinset.mp hm))
  · rw [hlen]
    split <;> omega
  · ext m
    rw [Finset.mem_sdiff, mem_membersOf, mem_membersOf, hpart.left, List.mem_toFinset]

theorem sPopArg_nonneg {args : List Bytes} {count : Int} (h : sPopArg args = some count) :
    0 ≤ count := by
  rw [sPopArg] at h
  split at h
  · dsimp only at h
    split at h
    · contradiction
    · next hbad =>
      cases h
      omega
  · cases h
    decide

theorem sPop_refines :
    rep.RefinesAt (CmdHandler.on sPopCmd ctx) ctx.now (ctx.arg 0) (sPop ctx.cmd.args) := by
  have hspec := sPopCmd_performs ctx
  rw [sPopAction] at hspec
  by_cases hempty : ctx.cmd.args.isEmpty = true
  · rw [if_pos hempty] at hspec
    exact Representation.refinesAt_refused (by rw [hempty]; rfl) (isError_error _) hspec
  rw [if_neg hempty] at hspec
  cases hcount : sPopArg ctx.cmd.args with
  | none =>
      rw [hcount] at hspec
      exact Representation.refinesAt_refused (by rw [hcount]; exact Bool.and_false _)
        (isError_error _) hspec
  | some count =>
      rw [hcount] at hspec
      refine Representation.refinesAt_accepted (by simpa [hcount] using hempty)
        (Representation.refinesAt_remove hspec ?_ fun set s hs _ => ?_)
      · refine ⟨[], List.nodup_nil, Finset.empty_subset _, ?_, ?_, rfl⟩
        · have := sPopArg_nonneg hcount
          simp [rep, hcount, this]
        · rw [membersPopped]
          rfl
      · obtain rfl : membersOf set = s := hs
        obtain ⟨l, left, hdraw, hnodup, hsub, hlen, hleft⟩ :=
          sPopDraw_members ctx.rng (sPopArg_nonneg hcount) set
        refine ⟨left, _, by rw [hdraw]; rfl, rfl, by rw [hdraw]; exact empty_iff_init left,
          l, hnodup, hsub, ?_, ?_, hleft⟩
        · rw [hlen, card_membersOf, hcount]
          rfl
        · rw [hdraw, membersPopped, bulkArray]
          cases l <;> rfl

end refines

/-- Sets. -/
def object : ObjectSpec RedisSet Members where
  toRepresentation := rep
  calls := calls
  refines := by
    simp only [calls, List.forall_mem_cons, List.not_mem_nil, false_imp_iff, implies_true, and_true]
    exact ⟨⟨_, rfl, fun ctx _ _ => sAdd_refines ctx⟩,
      ⟨_, rfl, fun ctx _ _ => sRem_refines ctx⟩,
      ⟨_, rfl, fun ctx _ _ => sIsMember_refines ctx⟩,
      ⟨_, rfl, fun ctx _ _ => sMembers_refines ctx⟩,
      ⟨_, rfl, fun ctx _ _ => sCard_refines ctx⟩,
      ⟨_, rfl, fun ctx _ _ => sPop_refines ctx⟩⟩

/-- **A set is a finite set, up to its deadline.**  Whatever else the server does, the
commands on a key that only set commands, `EXPIRE`, `PEXPIRE` and `DEL` write to reply
as those on one finite set that is gone from its deadline on, with some choice of the
members that `SPOP` takes, and the entry stands for that set. -/
theorem set_history {key : Bytes} {ops : List Op} {db : Dict} (hclock : ClockForward ops)
    (hfree : db.get key = none) (hkeeps : object.Keeps key ops) :
    ∃ x, object.spec.Allowed (.gone ∅) (object.history key db ops) x ∧
      ∀ now, Until now ops → object.Holds ((runOps db ops).live now key) (x.shown ∅ now) :=
  object.history_allowed hclock hfree hkeeps

/-- A run on the set `s`: two members, a deadline, a pop by another client, and a look at the
rest. -/
def setOps : List Op :=
  [ .command 5 ⟨⟨1, fun _ _ => 0⟩, ⟨ascii "sadd", [ascii "s", ascii "a", ascii "b"]⟩⟩,
    .command 5 ⟨⟨1, fun _ _ => 0⟩, ⟨ascii "EXPIRE", [ascii "s", ascii "10"]⟩⟩,
    .command 6 ⟨⟨2, fun _ _ => 1⟩, ⟨ascii "SPOP", [ascii "s"]⟩⟩,
    .command 5 ⟨⟨4, fun _ _ => 0⟩, ⟨ascii "SMEMBERS", [ascii "s"]⟩⟩ ]

theorem set_history_pop :
    ∃ x, object.spec.Allowed (.gone ∅) (object.history (ascii "s") ∅ setOps) x ∧
      ∀ now, Until now setOps →
        object.Holds ((runOps ∅ setOps).live now (ascii "s")) (x.shown ∅ now) :=
  set_history (by decide) rfl (by decide)

end SetObject

end RedisLike
