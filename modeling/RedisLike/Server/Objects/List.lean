import RedisLike.Command.NonEmpty
import RedisLike.Command.Ranges
import RedisLike.Command.Variadic
import RedisLike.Server.Objects

/-!
# RedisLike.Server.Objects.List

A list is a finite sequence with two ends.

`calls` says of the seven commands on lists what they reply on a sequence and
what they make of it.
-/

namespace RedisLike

namespace ListObject

/-- The elements of a list, from the left. -/
abbrev Elements := List Bytes

/-! ## The calls -/

/-- `LPUSH`: the last argument comes first. -/
def lPush : Call Elements := .checked (fun args => 2 ≤ args.length) fun args l reply l' =>
  l' = (args.drop 1).reverse ++ l ∧ reply = RespCodec.integer l'.length

/-- `RPUSH`. -/
def rPush : Call Elements := .checked (fun args => 2 ≤ args.length) fun args l reply l' =>
  l' = l ++ args.drop 1 ∧ reply = RespCodec.integer l'.length

/-- How many elements a pop asks for; `none` when the count is no such number. -/
def popCount (args : List Bytes) : Option Nat :=
  if args.length ≥ 2 then
    (parseInt (args.getD 1 [])).bind fun n => if n < 0 then none else some n.toInt.toNat
  else some 1

/-- The reply to a pop: nil when there was nothing, an array when there was a
count, else the only element. -/
def poppedReply (args : List Bytes) (l popped : Elements) : Bytes :=
  if l = [] then RespCodec.nullBulkString
  else popReply (args.length ≥ 2) (popped.map RespCodec.bulkString)

/-- The commands that pop: `popped` are the elements, `rest` is what is left. -/
def popping (popped rest : Nat → Elements → Elements) : Call Elements :=
  .checked (fun args => !args.isEmpty && (popCount args).isSome) fun args l reply l' =>
    l' = rest ((popCount args).getD 0) l ∧
      reply = poppedReply args l (popped ((popCount args).getD 0) l)

/-- `LPOP`: elements from the left. -/
def lPop : Call Elements := popping List.take List.drop

/-- `RPOP`: elements from the right, the last one first. -/
def rPop : Call Elements :=
  popping (fun n l => l.reverse.take n) fun n l => l.take (l.length - n)

/-- `LLEN`. -/
def lLen : Call Elements := .checked (fun args => !args.isEmpty) <| .reading
  fun _ l reply => reply = RespCodec.integer l.length

/-- `LRANGE`. -/
def lRange : Call Elements :=
  .checked (fun args => 3 ≤ args.length && (rangeArgs args).isSome) <| .reading
  fun args l reply => ∃ start stop, rangeArgs args = some (start, stop) ∧
    reply = bulkArray (slice l start.toInt stop.toInt)

/-- `LINDEX`: the only element of a slice, or nil. -/
def lIndex : Call Elements :=
  .checked (fun args => 2 ≤ args.length && (parseInt (args.getD 1 [])).isSome) <| .reading
  fun args l reply => ∃ idx, parseInt (args.getD 1 []) = some idx ∧
    reply = (slice l idx.toInt idx.toInt).head?.elim RespCodec.nullBulkString RespCodec.bulkString

/-- The commands on lists. -/
def calls : List (Bytes × Call Elements) :=
  [ (ascii "LPUSH", lPush), (ascii "RPUSH", rPush), (ascii "LPOP", lPop), (ascii "RPOP", rPop),
    (ascii "LLEN", lLen), (ascii "LRANGE", lRange), (ascii "LINDEX", lIndex) ]

/-! ## Loops -/

theorem foldl_pushFront (args l : List Bytes) :
    args.foldl (fun lst v => v :: lst) l = args.reverse ++ l := by
  induction args generalizing l with
  | nil => rfl
  | cons v args ih => rw [List.foldl_cons, ih, List.reverse_cons, List.append_assoc]; rfl

theorem foldl_pushBack (args l : List Bytes) :
    args.foldl (fun lst v => lst ++ [v]) l = l ++ args := by
  induction args generalizing l with
  | nil => exact (List.append_nil l).symm
  | cons v args ih => rw [List.foldl_cons, ih, List.append_assoc]; rfl

theorem popLoop_popFront (n : Nat) (l : RedisList) :
    popLoop popFront n l = ((l.take n).map RespCodec.bulkString, l.drop n) := by
  induction n generalizing l with
  | zero => rfl
  | succ n ih =>
      cases l with
      | nil => rfl
      | cons x l =>
          rw [popLoop, popFront]
          dsimp only
          rw [ih]
          rfl

theorem popLoop_popBack (n : Nat) (l : RedisList) :
    popLoop popBack n l =
      ((l.reverse.take n).map RespCodec.bulkString, l.take (l.length - n)) := by
  induction n generalizing l with
  | zero => rw [popLoop, List.take_zero, Nat.sub_zero, List.take_length]; rfl
  | succ n ih =>
      induction l using List.reverseRecOn with
      | nil => simp [popLoop, popBack]
      | append_singleton l x _ =>
          have hpop : popBack (l ++ [x]) = some (x, l) := by simp [popBack]
          rw [popLoop, hpop]
          dsimp only
          rw [ih, List.reverse_append, List.length_append]
          simp

/-! ## The object -/

/-- A list stands for itself. -/
def rep : Representation RedisList Elements where
  kind := lists
  Rep lst l := lst = l
  init := []

section refines

variable (ctx : CmdContext)

/-- The commands that push. -/
theorem push_refines {arity : Bytes} {push : RedisList → Bytes → RedisList}
    {pushed : List Bytes → Elements → Elements} (harity : isError arity = true)
    (hpush : ∀ args l, args.foldl push l = pushed args l)
    (hlength : ∀ lst v, (push lst v).length = lst.length + 1) :
    rep.RefinesAt (CmdHandler.on (pushWith arity push) ctx) ctx.now (ctx.arg 0)
      (Call.checked (fun args => 2 ≤ args.length) (fun args l reply l' =>
        l' = pushed (args.drop 1) l ∧ reply = RespCodec.integer l'.length) ctx.cmd.args) := by
  refine Representation.refinesAt_action harity (pushWith_performs arity push ctx)
    (Representation.le_iff_not_lt _ _)
    fun hargs hspec => Representation.refinesAt_create hspec rfl fun lst l hl => ?_
  obtain rfl : lst = l := hl
  refine ⟨(ctx.cmd.args.drop 1).foldl push lst, _, rfl, rfl, ?_, hpush _ _, rfl⟩
  have hlen := length_foldl_push hlength (ctx.cmd.args.drop 1) lst
  refine List.ne_nil_of_length_pos ?_
  rw [hlen, List.length_drop]
  omega

theorem lPush_refines :
    rep.RefinesAt (CmdHandler.on lPushCmd ctx) ctx.now (ctx.arg 0) (lPush ctx.cmd.args) :=
  push_refines ctx (isError_error _) foldl_pushFront fun _ _ => rfl

theorem rPush_refines :
    rep.RefinesAt (CmdHandler.on rPushCmd ctx) ctx.now (ctx.arg 0) (rPush ctx.cmd.args) :=
  push_refines ctx (isError_error _) (fun args l => foldl_pushBack args l) fun _ _ => by simp

theorem popCount_eq (args : List Bytes) :
    popCount args = (if args.length ≥ 2 then parseInt (args.getD 1 []) else some 1).bind
      fun n => if n < 0 then none else some n.toInt.toNat := by
  rw [popCount]
  split <;> rfl

/-- The commands that pop. -/
theorem pop_refines {arity : Bytes} {pop : RedisList → Option (Bytes × RedisList)}
    {popped rest : Nat → Elements → Elements} (harity : isError arity = true)
    (hpop : ∀ n l, popLoop pop n l = ((popped n l).map RespCodec.bulkString, rest n l))
    (hnil : ∀ n, rest n [] = []) :
    rep.RefinesAt (CmdHandler.on (popWith arity pop) ctx) ctx.now (ctx.arg 0)
      (popping popped rest ctx.cmd.args) := by
  have hspec := popWith_performs arity pop ctx
  rw [popAction] at hspec
  by_cases hempty : ctx.cmd.args.isEmpty = true
  · rw [if_pos hempty] at hspec
    exact Representation.refinesAt_refused (by rw [hempty]; rfl) harity hspec
  rw [if_neg hempty] at hspec
  have hcount := popCount_eq ctx.cmd.args
  cases hn : (if ctx.cmd.args.length ≥ 2 then parseInt (ctx.cmd.args.getD 1 []) else some 1) with
  | none =>
      rw [hn] at hspec hcount
      exact Representation.refinesAt_refused (by rw [hcount]; exact Bool.and_false _)
        (isError_error _) hspec
  | some n =>
      rw [hn, Option.bind_some] at hcount
      rw [hn] at hspec
      dsimp only at hspec
      by_cases hneg : n < 0
      · rw [if_pos hneg] at hspec hcount
        exact Representation.refinesAt_refused (by rw [hcount]; exact Bool.and_false _)
          (isError_error _) hspec
      · rw [if_neg hneg] at hspec hcount
        refine Representation.refinesAt_accepted (by simpa [hcount] using hempty)
          (Representation.refinesAt_remove hspec ?_ fun lst l hl hfilled => ?_)
        · exact ⟨(hnil _).symm, rfl⟩
        · obtain rfl : lst = l := hl
          refine ⟨rest n.toInt.toNat lst, _, by rw [hpop]; rfl, rfl,
            by rw [hpop]; exact List.isEmpty_iff, ?_, ?_⟩
          · rw [hcount]
            rfl
          · rw [poppedReply, if_neg (show ¬ lst = [] from hfilled), hpop, hcount]
            rfl

theorem lPop_refines :
    rep.RefinesAt (CmdHandler.on lPopCmd ctx) ctx.now (ctx.arg 0) (lPop ctx.cmd.args) :=
  pop_refines ctx (isError_error _) popLoop_popFront fun _ => List.drop_nil

theorem rPop_refines :
    rep.RefinesAt (CmdHandler.on rPopCmd ctx) ctx.now (ctx.arg 0) (rPop ctx.cmd.args) :=
  pop_refines ctx (isError_error _) popLoop_popBack fun _ => List.take_nil

theorem lLen_refines :
    rep.RefinesAt (CmdHandler.on lLenCmd ctx) ctx.now (ctx.arg 0) (lLen ctx.cmd.args) := by
  refine Representation.refinesAt_readObject (isError_error _) (fun _ => rfl) (fun _ => rfl)
    (Representation.not_isEmpty_iff _) rfl fun lst l hl _ => ?_
  rw [← show lst = l from hl]

theorem lRange_refines :
    rep.RefinesAt (CmdHandler.on lRangeCmd ctx) ctx.now (ctx.arg 0) (lRange ctx.cmd.args) := by
  refine @Representation.refinesAt_parsed _ _ rep _ lRangeCmd ctx rangeArgs 3 _ _ _
    RespCodec.emptyArray (fun v lst => bulkArray (listRange lst v.1.toInt v.2.toInt))
    (isError_error (ascii "ERR wrong number of arguments for 'LRANGE'"))
    (isError_error (ascii "ERR value is not an integer")) (fun db => ?_) (fun v hv => ?_)
    fun v hv lst l hl _ => ?_
  · rw [lRangeCmd, rangeArgs]
    dsimp only [CmdContext.arg]
    cases parseInt (ctx.cmd.args.getD 1 []) <;> cases parseInt (ctx.cmd.args.getD 2 []) <;> rfl
  · refine ⟨v.1, v.2, hv, ?_⟩
    rw [show rep.init = [] from rfl, slice_nil]
    rfl
  · exact ⟨v.1, v.2, hv, by rw [listRange_eq_slice, show lst = l from hl]⟩

theorem lIndex_refines :
    rep.RefinesAt (CmdHandler.on lIndexCmd ctx) ctx.now (ctx.arg 0) (lIndex ctx.cmd.args) := by
  refine @Representation.refinesAt_parsed _ _ rep _ lIndexCmd ctx
    (fun args => parseInt (args.getD 1 [])) 2 _ _ _ RespCodec.nullBulkString
    (fun idx lst => (slice lst idx.toInt idx.toInt).head?.elim RespCodec.nullBulkString
      RespCodec.bulkString)
    (isError_error (ascii "ERR wrong number of arguments for 'LINDEX'"))
    (isError_error (ascii "ERR value is not an integer")) (fun db => ?_) (fun idx hidx => ?_)
    fun idx hidx lst l hl _ => ?_
  · rw [lIndexCmd]
    dsimp only [CmdContext.arg]
    cases parseInt (ctx.cmd.args.getD 1 []) with
    | none => rfl
    | some idx =>
        simp only [head?_slice_self, elim_getElem?_eq, ite_add_eq_fromEnd]
        rfl
  · refine ⟨idx, hidx, ?_⟩
    rw [show rep.init = [] from rfl, slice_nil]
    rfl
  · exact ⟨idx, hidx, by rw [show lst = l from hl]⟩

end refines

/-- Lists. -/
def object : ObjectSpec RedisList Elements where
  toRepresentation := rep
  calls := calls
  refines := by
    simp only [calls, List.forall_mem_cons, List.not_mem_nil, false_imp_iff, implies_true, and_true]
    exact ⟨⟨_, rfl, fun ctx _ _ => lPush_refines ctx⟩,
      ⟨_, rfl, fun ctx _ _ => rPush_refines ctx⟩,
      ⟨_, rfl, fun ctx _ _ => lPop_refines ctx⟩,
      ⟨_, rfl, fun ctx _ _ => rPop_refines ctx⟩,
      ⟨_, rfl, fun ctx _ _ => lLen_refines ctx⟩,
      ⟨_, rfl, fun ctx _ _ => lRange_refines ctx⟩,
      ⟨_, rfl, fun ctx _ _ => lIndex_refines ctx⟩⟩

/-- **A list is a finite sequence, up to its deadline.**  Whatever else the server does,
the commands on a key that only list commands, `EXPIRE`, `PEXPIRE` and `DEL` write to
reply as those on one finite sequence that is gone from its deadline on, and the
entry stands for that sequence. -/
theorem list_history {key : Bytes} {ops : List Op} {db : Dict} (hclock : ClockForward ops)
    (hfree : db.get key = none) (hkeeps : object.Keeps key ops) :
    ∃ x, object.spec.Allowed (.gone []) (object.history key db ops) x ∧
      ∀ now, Until now ops → object.Holds ((runOps db ops).live now key) (x.shown [] now) :=
  object.history_allowed hclock hfree hkeeps

/-- A run on the list `q`: two elements come, and one goes. -/
def listOps : List Op :=
  [ .command 5 ⟨⟨1, fun _ _ => 0⟩, ⟨ascii "rpush", [ascii "q", ascii "a", ascii "b"]⟩⟩,
    .accept 6,
    .command 6 ⟨⟨2, fun _ _ => 0⟩, ⟨ascii "LPOP", [ascii "q"]⟩⟩ ]

theorem list_history_pop :
    ∃ x, object.spec.Allowed (.gone []) (object.history (ascii "q") ∅ listOps) x ∧
      ∀ now, Until now listOps →
        object.Holds ((runOps ∅ listOps).live now (ascii "q")) (x.shown [] now) :=
  list_history (by decide) rfl (by decide)

/-! ## Queues -/

/-- A command at its time, with its reply. -/
abbrev Event := (TimePoint × RespCommand) × Bytes

/-- The elements that a command has pushed. -/
def pushedBy (c : Event) : List Bytes :=
  if (normalize c.1.2.name = ascii "LPUSH" ∨ normalize c.1.2.name = ascii "RPUSH") ∧
      isError c.2 = false then c.1.2.args.drop 1 else []

/-- The elements that the reply to a command has popped. -/
def poppedBy (c : Event) : List Bytes :=
  if (normalize c.1.2.name = ascii "LPOP" ∨ normalize c.1.2.name = ascii "RPOP") ∧
      isError c.2 = false then elementsOf c.2 else []

theorem pushedBy_of_name {c : Event}
    (h : normalize c.1.2.name ∉ [ascii "LPUSH", ascii "RPUSH"]) : pushedBy c = [] :=
  if_neg fun hc => h (by simpa using hc.1)

theorem poppedBy_of_name {c : Event}
    (h : normalize c.1.2.name ∉ [ascii "LPOP", ascii "RPOP"]) : poppedBy c = [] :=
  if_neg fun hc => h (by simpa using hc.1)

/-- Nobody deletes the list, or gives it a deadline. -/
def Queue (h : List Event) : Prop :=
  ∀ c ∈ h, normalize c.1.2.name ∉ [ascii "DEL", ascii "EXPIRE", ascii "PEXPIRE"]

instance (h : List Event) : Decidable (Queue h) :=
  inferInstanceAs (Decidable
    (∀ c ∈ h, normalize c.1.2.name ∉ [ascii "DEL", ascii "EXPIRE", ascii "PEXPIRE"]))

/-- Elements come at the right and go at the left. -/
def Fifo (h : List Event) : Prop :=
  ∀ c ∈ h, normalize c.1.2.name ≠ ascii "LPUSH" ∧ normalize c.1.2.name ≠ ascii "RPOP"

theorem elementsOf_poppedReply (args : List Bytes) (l popped : Elements)
    (hnil : l = [] → popped = []) (hone : ¬ args.length ≥ 2 → popped.length ≤ 1) :
    isError (poppedReply args l popped) = false ∧
      elementsOf (poppedReply args l popped) = popped := by
  unfold poppedReply
  split
  · next hl =>
    rw [hnil hl]
    exact ⟨rfl, elementsOf_nullBulkString⟩
  · unfold popReply
    by_cases hcount : args.length ≥ 2
    · simp only [hcount, decide_true, if_true]
      exact ⟨rfl, elementsOf_bulkArray popped⟩
    · simp only [hcount, decide_false, Bool.false_eq_true, if_false]
      have hlen := hone hcount
      rcases popped with _ | ⟨x, _ | ⟨y, popped⟩⟩
      · exact ⟨rfl, elementsOf_nullBulkString⟩
      · exact ⟨rfl, elementsOf_bulkString x⟩
      · simp at hlen

/-- A pop that is accepted. -/
theorem popping_cases {popped rest : Nat → Elements → Elements} {args l l' : List Bytes}
    {reply : Bytes} (h : popping popped rest args l reply l') (hnil : ∀ n, popped n [] = [])
    (hlen : ∀ n l, (popped n l).length ≤ n) :
    isError reply = true ∧ l' = l ∨
      isError reply = false ∧ ∃ n, l' = rest n l ∧ elementsOf reply = popped n l := by
  refine (Call.checked_cases h).imp id fun ⟨_, hrest, hreply⟩ => ?_
  have hone : ¬ args.length ≥ 2 → (popCount args).getD 0 = 1 := fun hcount => by
    rw [popCount, if_neg hcount]
    rfl
  obtain ⟨haccepted, helements⟩ := elementsOf_poppedReply args l (popped ((popCount args).getD 0) l)
    (fun hl => by rw [hl, hnil]) (fun hcount => (hone hcount).symm ▸ hlen 1 l)
  rw [hreply]
  exact ⟨haccepted, _, hrest, helements⟩

/-- **One command** of a queue: what comes and what goes. -/
theorem spec_conserves {c : Event} {x x' : ObjectState Elements} (hx : x.deadline = none)
    (h : object.spec x c.1 c.2 x')
    (hname : normalize c.1.2.name ∉ [ascii "DEL", ascii "EXPIRE", ascii "PEXPIRE"]) :
    x'.deadline = none ∧ (poppedBy c ++ x'.state).Perm (x.state ++ pushedBy c) ∧
      (normalize c.1.2.name ≠ ascii "LPUSH" → normalize c.1.2.name ≠ ascii "RPOP" →
        poppedBy c ++ x'.state = x.state ++ pushedBy c) := by
  obtain ⟨hx', hstep⟩ := object.spec_untimed rfl hx h hname
  refine ⟨hx', ?_⟩
  have hunchanged : x'.state = x.state → pushedBy c = [] → poppedBy c = [] →
      (poppedBy c ++ x'.state).Perm (x.state ++ pushedBy c) ∧
        (normalize c.1.2.name ≠ ascii "LPUSH" → normalize c.1.2.name ≠ ascii "RPOP" →
          poppedBy c ++ x'.state = x.state ++ pushedBy c) := by
    intro hstate hpush hpop
    rw [hstate, hpush, hpop, List.nil_append, List.append_nil]
    exact ⟨.refl _, fun _ _ => rfl⟩
  have hrefused : isError c.2 = true ∧ x'.state = x.state →
      poppedBy c ++ x'.state = x.state ++ pushedBy c := by
    rintro ⟨herr, hstate⟩
    simp [poppedBy, pushedBy, herr, hstate]
  obtain ⟨hinspect, rfl⟩ | ⟨call, hmem, hcall⟩ := hstep
  · have hnames : normalize c.1.2.name ∉
        [ascii "LPUSH", ascii "RPUSH"] ++ [ascii "LPOP", ascii "RPOP"] := by
      simp only [List.mem_cons, List.not_mem_nil, or_false] at hinspect
      rcases hinspect with hn | hn | hn <;> rw [hn] <;> decide
    rw [List.mem_append, not_or] at hnames
    exact hunchanged rfl (pushedBy_of_name hnames.1) (poppedBy_of_name hnames.2)
  simp only [object, calls, List.mem_cons, Prod.mk.injEq, List.not_mem_nil, or_false] at hmem
  have hreads : ∀ {ok rel}, call = Call.checked ok (.reading rel) → x'.state = x.state := by
    rintro ok rel rfl
    exact (Call.checked_cases hcall).elim And.right fun hread => hread.2.2
  rcases hmem with ⟨hn, rfl⟩ | ⟨hn, rfl⟩ | ⟨hn, rfl⟩ | ⟨hn, rfl⟩ | ⟨hn, rfl⟩ | ⟨hn, rfl⟩ | ⟨hn, rfl⟩
  · -- `LPUSH`
    refine ⟨?_, fun hne => absurd hn hne⟩
    obtain hbad | ⟨-, hstate, hreply⟩ := Call.checked_cases hcall
    · exact .of_eq (hrefused hbad)
    · rw [poppedBy_of_name (by rw [hn]; decide), pushedBy, if_pos ⟨.inl hn, hreply ▸ rfl⟩,
        List.nil_append, hstate]
      exact ((List.reverse_perm _).append_right x.state).trans List.perm_append_comm
  · -- `RPUSH`
    have heq : poppedBy c ++ x'.state = x.state ++ pushedBy c := by
      obtain hbad | ⟨-, hstate, hreply⟩ := Call.checked_cases hcall
      · exact hrefused hbad
      · rw [poppedBy_of_name (by rw [hn]; decide), pushedBy, if_pos ⟨.inr hn, hreply ▸ rfl⟩,
          List.nil_append, hstate]
    exact ⟨.of_eq heq, fun _ _ => heq⟩
  · -- `LPOP`
    have heq : poppedBy c ++ x'.state = x.state ++ pushedBy c := by
      obtain hbad | ⟨hacc, n, hstate, helements⟩ := popping_cases hcall
        (fun _ => List.take_nil) fun n l => List.length_take_le n l
      · exact hrefused hbad
      · rw [poppedBy, if_pos ⟨.inl hn, hacc⟩, helements, pushedBy_of_name (by rw [hn]; decide),
          hstate, List.take_append_drop, List.append_nil]
    exact ⟨.of_eq heq, fun _ _ => heq⟩
  · -- `RPOP`
    refine ⟨?_, fun _ hne => absurd hn hne⟩
    obtain hbad | ⟨hacc, n, hstate, helements⟩ := popping_cases hcall
      (fun _ => List.take_nil) fun n l => List.length_take_le n l.reverse
    · exact .of_eq (hrefused hbad)
    · rw [poppedBy, if_pos ⟨.inr hn, hacc⟩, helements, pushedBy_of_name (by rw [hn]; decide),
        hstate, List.append_nil, List.take_reverse]
      refine ((List.reverse_perm _).append_right _).trans (List.perm_append_comm.trans ?_)
      rw [List.take_append_drop]
  all_goals
    exact hunchanged (hreads rfl) (pushedBy_of_name (by rw [hn]; decide))
      (poppedBy_of_name (by rw [hn]; decide))

/-- A whole history of a queue. -/
theorem allowed_conserves {h : List Event} {x x' : ObjectState Elements}
    (hallowed : object.spec.Allowed x h x') (hx : x.deadline = none) (hqueue : Queue h) :
    x'.deadline = none ∧ (h.flatMap poppedBy ++ x'.state).Perm (x.state ++ h.flatMap pushedBy) ∧
      (Fifo h → h.flatMap poppedBy ++ x'.state = x.state ++ h.flatMap pushedBy) := by
  induction hallowed with
  | nil x =>
      have heq := (List.append_nil x.state).symm
      exact ⟨hx, .of_eq heq, fun _ => heq⟩
  | @cons x x₁ x' at_ reply h hcall _ ih =>
      obtain ⟨hname, hqueue⟩ := List.forall_mem_cons.mp hqueue
      obtain ⟨hx₁, hperm, hfifo⟩ := spec_conserves hx hcall hname
      obtain ⟨hx', hperm', hfifo'⟩ := ih hx₁ hqueue
      rw [List.flatMap_cons, List.flatMap_cons, List.append_assoc, ← List.append_assoc x.state]
      refine ⟨hx', (hperm'.append_left _).trans ?_, fun hall => ?_⟩
      · rw [← List.append_assoc]
        exact hperm.append_right _
      · obtain ⟨⟨hpush, hpop⟩, hall⟩ := List.forall_mem_cons.mp hall
        rw [hfifo' hall, ← List.append_assoc, hfifo hpush hpop]

/-- **A queue loses nothing and invents nothing.**  While nobody deletes the list or
gives it a deadline, the elements popped, with those that are left, are the elements
pushed; and they are in the order of the pushes when all of them come at the right
and go at the left. -/
theorem list_queue {key : Bytes} {ops : List Op} {db : Dict} (hclock : ClockForward ops)
    (hfree : db.get key = none) (hkeeps : object.Keeps key ops)
    (hqueue : Queue (object.history key db ops)) :
    ∃ l, (∀ now, Until now ops → object.Holds ((runOps db ops).live now key) ⟨l, none⟩) ∧
      ((object.history key db ops).flatMap poppedBy ++ l).Perm
        ((object.history key db ops).flatMap pushedBy) ∧
      (Fifo (object.history key db ops) →
        (object.history key db ops).flatMap poppedBy ++ l =
          (object.history key db ops).flatMap pushedBy) := by
  obtain ⟨⟨l, deadline⟩, hallowed, hholds⟩ := list_history hclock hfree hkeeps
  obtain ⟨rfl, hperm, hfifo⟩ := allowed_conserves hallowed rfl hqueue
  exact ⟨l, hholds, hperm, hfifo⟩

theorem list_queue_pop :
    ∃ l, (∀ now, Until now listOps →
        object.Holds ((runOps ∅ listOps).live now (ascii "q")) ⟨l, none⟩) ∧
      ((object.history (ascii "q") ∅ listOps).flatMap poppedBy ++ l).Perm
        ((object.history (ascii "q") ∅ listOps).flatMap pushedBy) := by
  obtain ⟨l, hholds, hperm, -⟩ :=
    @list_queue (ascii "q") listOps ∅ (by decide) rfl (by decide) (by decide)
  exact ⟨l, hholds, hperm⟩

end ListObject

end RedisLike
