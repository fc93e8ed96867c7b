import RedisLike.Resp.Reply
import RedisLike.Command.Singles

/-!
# RedisLike.Command.Variadic

Variadic commands are the sequence of their single forms.

The loop of a handler is the run of its own single steps (`LoopsOver`), and by
`RedisLike.Command.Singles` so is the command.  `variadic_spec` has all of them.
-/

namespace RedisLike

open Batch KeyAction

/-! ## Loops -/

section loops

variable {σ : Type} {items : List Item} {width : Nat}

theorem loopsOver_of_append {loop : List Bytes → σ → Nat → Nat × σ}
    (hnil : ∀ s n, loop [] s n = (n, s))
    (happend : ∀ x ∈ items, ∀ args s n,
      loop (x.1 ++ args) s n = loop args (loop x.1 s 0).2 (n + (loop x.1 s 0).1)) :
    LoopsOver items loop :=
  @loop_eq_runEach Item σ (fun items => loop (items.flatMap Prod.fst)) _ items hnil
    fun x hx ys s n => happend x hx (ys.flatMap Prod.fst) s n

/-- A loop over single arguments, which counts some of them. -/
theorem loopsOver_single {loop : List Bytes → σ → Nat → Nat × σ} {next : Bytes → σ → σ}
    {count : Bytes → σ → Nat} (hnil : ∀ s n, loop [] s n = (n, s))
    (hcons : ∀ a args s n, loop (a :: args) s n = loop args (next a s) (n + count a s))
    (hwidth : ∀ x ∈ items, x.1.length = 1) : LoopsOver items loop := by
  refine loopsOver_of_append hnil fun x hx args s n => ?_
  obtain ⟨a, ha⟩ := List.length_eq_one_iff.mp (hwidth x hx)
  simp [ha, hcons, hnil]

theorem loopsOver_hSetLoop (hwidth : ∀ x ∈ items, x.1.length = 2) :
    LoopsOver items hSetLoop := by
  refine loopsOver_of_append (fun _ _ => rfl) fun x hx args hash added => ?_
  obtain ⟨field, val, hargs⟩ := List.length_eq_two.mp (hwidth x hx)
  simp only [hargs, List.cons_append, List.nil_append, hSetLoop]
  split <;> rfl

variable (hwidth : ∀ x ∈ items, x.1.length = 1)

include hwidth

theorem loopsOver_hDelLoop : LoopsOver items hDelLoop :=
  @loopsOver_single _ _ _ (fun field hash => hash.erase field)
    (fun field hash => if (hash.lookup field).isSome then 1 else 0) (fun _ _ => rfl)
    (fun field args hash count => by rw [hDelLoop]; split <;> rfl) hwidth

theorem loopsOver_sAddLoop : LoopsOver items sAddLoop :=
  @loopsOver_single _ _ _ (fun member set => set.insert member)
    (fun member set => if member ∈ set then 0 else 1) (fun _ _ => rfl)
    (fun member args set added => by rw [sAddLoop]; split <;> rfl) hwidth

theorem loopsOver_sRemLoop : LoopsOver items sRemLoop :=
  @loopsOver_single _ _ _ (fun member set => set.erase member)
    (fun member set => if member ∈ set then 1 else 0) (fun _ _ => rfl)
    (fun member args set removed => by rw [sRemLoop]; split <;> rfl) hwidth

theorem loopsOver_zRemLoop : LoopsOver items zRemLoop :=
  @loopsOver_single _ _ _ (fun member sl => (sl.delete member).2)
    (fun member sl => if (sl.delete member).1 then 1 else 0) (fun _ _ => rfl)
    (fun member args sl removed => by rw [zRemLoop]; split <;> rfl) hwidth

theorem loopsOver_delLoop : LoopsOver items delLoop :=
  @loopsOver_single _ _ _ (fun key db => (db.del key).2)
    (fun key db => if (db.del key).1 then 1 else 0) (fun _ _ => rfl)
    (fun key keys db count => by rw [delLoop]; split <;> rfl) hwidth

theorem loopsOver_existsLoop (now : TimePoint) : LoopsOver items (existsLoop now) :=
  @loopsOver_single _ _ _ (fun key db => (lazyCheck db key now).2)
    (fun key db => if (lazyCheck db key now).2.existsKey key then 1 else 0) (fun _ _ => rfl)
    (fun key keys db count => by rw [existsLoop]; split <;> rfl) hwidth

end loops

/-! ## Hashes and sets -/

section commands

variable {db : Dict} {now : TimePoint} {name key : Bytes} {items : List Item}

theorem hSet_sumsUp (hname : normalize name = ascii "HSET") (hlive : db.LiveOfType now key .hash)
    (hwidth : ∀ x ∈ items, x.1.length = 2) (hne : items ≠ []) : SumsUp now name [key] items db := by
  refine @Kind.sumsUp_create_loop _ hashes.kind now name key items db 2
    (fun args _ _ => hSetAction args) ∅ (by rw [hname]; rfl) _ (loopsOver_hSetLoop hwidth) ?_
    (by decide) hwidth hlive hne
  rintro args rng ⟨hargs, hdvd⟩
  have hpos := List.length_pos_iff.mpr hargs
  rw [hSetAction, if_neg (by rw [List.length_cons]; omega)]
  rfl

theorem sAdd_sumsUp (hname : normalize name = ascii "SADD") (hlive : db.LiveOfType now key .set)
    (hwidth : ∀ x ∈ items, x.1.length = 1) (hne : items ≠ []) : SumsUp now name [key] items db := by
  refine @Kind.sumsUp_create_loop _ sets.kind now name key items db 1
    (fun args _ _ => sAddAction args) ∅ (by rw [hname]; rfl) _ (loopsOver_sAddLoop hwidth) ?_
    (by decide) hwidth hlive hne
  rintro args rng ⟨hargs, -⟩
  have hpos := List.length_pos_iff.mpr hargs
  rw [sAddAction, if_neg (by rw [List.length_cons]; omega)]
  rfl

theorem hDel_sumsUp (hname : normalize name = ascii "HDEL") (hlive : db.LiveOfType now key .hash)
    (hfilled : db.NoEmpty) (hwidth : ∀ x ∈ items, x.1.length = 1) (hne : items ≠ []) :
    SumsUp now name [key] items db := by
  refine @Kind.sumsUp_remove_loop _ hashes.kind now name key items db
    (fun args _ _ => hDelAction args) (fun _ => True) ∅ (by rw [hname]; rfl) _
    (loopsOver_hDelLoop hwidth) UnorderedMap.empty ?_ hwidth (fun _ _ _ _ => trivial) ?_ hlive
    trivial rfl (fun _ _ _ => trivial) ?_ hne
  · intro args rng hargs
    have hpos := List.length_pos_iff.mpr hargs
    rw [hDelAction, if_neg (by rw [List.length_cons]; omega)]
    rfl
  · intro x hx hash _ hempty
    obtain ⟨field, hargs⟩ := List.length_eq_one_iff.mp (hwidth x hx)
    obtain rfl : hash = ∅ := AList.ext (List.isEmpty_iff.mp hempty)
    rw [hargs]
    rfl
  · intro obj hash hobj hvalue
    have := (hfilled key).liveEntry now obj hobj
    rwa [hvalue] at this

theorem sRem_sumsUp (hname : normalize name = ascii "SREM") (hlive : db.LiveOfType now key .set)
    (hfilled : db.NoEmpty) (hwidth : ∀ x ∈ items, x.1.length = 1) (hne : items ≠ []) :
    SumsUp now name [key] items db := by
  refine @Kind.sumsUp_remove_loop _ sets.kind now name key items db
    (fun args _ _ => sRemAction args) (fun _ => True) ∅ (by rw [hname]; rfl) _
    (loopsOver_sRemLoop hwidth) UnorderedSet.empty ?_ hwidth (fun _ _ _ _ => trivial) ?_ hlive
    trivial rfl (fun _ _ _ => trivial) ?_ hne
  · intro args rng hargs
    have hpos := List.length_pos_iff.mpr hargs
    rw [sRemAction, if_neg (by rw [List.length_cons]; omega)]
    rfl
  · intro x hx set _ hempty
    obtain ⟨member, hargs⟩ := List.length_eq_one_iff.mp (hwidth x hx)
    have hmem := UnorderedSet.empty_iff.mp hempty member
    have herase : set.erase member = set := by
      have := List.erase_of_not_mem (UnorderedSet.mem_def.not.mp hmem)
      obtain ⟨elems, nodup⟩ := set
      simpa [UnorderedSet.erase] using this
    simp [hargs, sRemLoop, hmem, herase]
  · intro obj set hobj hvalue
    have := (hfilled key).liveEntry now obj hobj
    rwa [hvalue] at this

theorem zRem_sumsUp (hname : normalize name = ascii "ZREM") (hlive : db.LiveOfType now key .zset)
    (hwf : db.WellFormed) (hfilled : db.NoEmpty) (hwidth : ∀ x ∈ items, x.1.length = 1)
    (hne : items ≠ []) : SumsUp now name [key] items db := by
  refine @Kind.sumsUp_remove_loop _ sortedSets.kind now name key items db
    (fun args _ _ => zRemAction args) SkipList.Valid SkipList.new (by rw [hname]; rfl) _
    (loopsOver_zRemLoop hwidth) (fun sl => decide (sl.size = 0)) ?_ hwidth ?_ ?_ hlive
    SkipList.valid_new rfl ?_ ?_ hne
  · intro args rng hargs
    have hpos := List.length_pos_iff.mpr hargs
    rw [zRemAction, if_neg (by rw [List.length_cons]; omega)]
    rfl
  · intro x _ sl hv
    exact (zRemLoop_spec x.1 0 hv).1
  · intro x hx sl hv hempty
    obtain ⟨member, hargs⟩ := List.length_eq_one_iff.mp (hwidth x hx)
    have hscore := hv.size_eq_zero_iff.mp (of_decide_eq_true hempty)
    simp [hargs, zRemLoop, SkipList.delete_of_absent (congrFun hscore member)]
  · intro obj sl hobj
    exact hwf key _ (liveEntry_eq_some.mp hobj).1
  · intro obj sl hobj hvalue
    have := (hfilled key).liveEntry now obj hobj
    rwa [hvalue] at this

end commands

/-! ## Sorted sets

The single commands draw other heights than the variadic one, so the lists they
leave have the same scores in other towers. -/

/-- Well-formed lists with the same scores. -/
structure SkipList.Alike (sl sl' : SkipList) : Prop where
  left : sl.Valid
  right : sl'.Valid
  scores : sl.getScore = sl'.getScore

theorem SkipList.Alike.insert {sl sl' : SkipList} (h : sl.Alike sl') {score : Double}
    (hs : score.isNaN = false) (member : Bytes) (level level' : Level) :
    (sl.insert score member level).2.Alike (sl'.insert score member level').2 where
  left := insert_valid h.left member level hs
  right := insert_valid h.right member level' hs
  scores := by rw [getScore_insert h.left, getScore_insert h.right, h.scores]

/-- A score and a member. -/
def IsScorePair (args : List Bytes) : Prop :=
  args.length = 2 ∧ ∃ s, parseDouble (args.getD 0 []) = some s ∧ s.isNaN = false

/-- `ZADD` of one pair, on the list. -/
def zAddStep (x : Item) (sl : SkipList) : Nat × SkipList :=
  ((zAddLoop x.2 x.1 0 sl 0).1.getD 0, (zAddLoop x.2 x.1 0 sl 0).2)

theorem zAddLoop_pair {text member : Bytes} {s : Double} (hs : parseDouble text = some s)
    (rng : Nat → Nat → Nat) (rest : List Bytes) (i : Nat) (sl : SkipList) (added : Nat) :
    zAddLoop rng (text :: member :: rest) i sl added =
      zAddLoop rng rest (i + 1) (sl.insert s member (randomLevel (rng i))).2
        (if (sl.getScore member).isSome then added else added + 1) := by
  rw [zAddLoop, hs]

theorem zAddLoop_items {items : List Item} (hitems : ∀ x ∈ items, IsScorePair x.1)
    (rng : Nat → Nat → Nat) (i : Nat) {sl sl' : SkipList} (h : sl.Alike sl') (added : Nat) :
    (zAddLoop rng (items.flatMap Prod.fst) i sl added).1 =
        some (added + (runEach zAddStep items sl').1.sum) ∧
      (zAddLoop rng (items.flatMap Prod.fst) i sl added).2.Alike
        (runEach zAddStep items sl').2 := by
  induction items generalizing i sl sl' added with
  | nil => exact ⟨rfl, h⟩
  | cons x items ih =>
      rw [List.forall_mem_cons] at hitems
      obtain ⟨⟨hlen, s, hs, hnan⟩, hitems⟩ := hitems
      obtain ⟨args, words⟩ := x
      obtain ⟨text, member, rfl⟩ := List.length_eq_two.mp hlen
      change parseDouble text = some s at hs
      have hstep : zAddStep ([text, member], words) sl' =
          (if (sl.getScore member).isSome then 0 else 1,
            (sl'.insert s member (randomLevel (words 0))).2) := by
        rw [zAddStep, zAddLoop_pair hs, h.scores]
        split <;> rfl
      obtain ⟨hcount, hlast⟩ := ih hitems (i + 1)
        (h.insert hnan member (randomLevel (rng i)) (randomLevel (words 0)))
        (if (sl.getScore member).isSome then added else added + 1)
      simp only [List.flatMap_cons, List.cons_append, List.nil_append, zAddLoop_pair hs,
        runEach_cons, hstep]
      refine ⟨?_, hlast⟩
      rw [hcount]
      simp only [List.sum_cons]
      split <;> simp [Nat.add_assoc]

section commands

variable {db : Dict} {now : TimePoint} {name key : Bytes} {items : List Item}

theorem zAdd_sumsUp (hname : normalize name = ascii "ZADD") (hlive : db.LiveOfType now key .zset)
    (hwf : db.WellFormed) (hitems : ∀ x ∈ items, IsScorePair x.1) (hne : items ≠ []) :
    SumsUp now name [key] items db := by
  have hwidth : ∀ x ∈ items, x.1.length = 2 := fun x hx => (hitems x hx).1
  refine @Kind.sumsUp_created _ sortedSets.kind now name key items db 2
    (fun args _ rng => zAddAction args rng) zAddStep SkipList.Valid SkipList.new
    (by rw [hname]; rfl)
    (fun rng args sl =>
      ((zAddLoop rng args 0 sl 0).1.elim notValidFloat fun added => RespCodec.integer added,
        .zset (zAddLoop rng args 0 sl 0).2)) ?_ (by decide) hwidth ?_ ?_ hlive SkipList.valid_new
    ?_ hne
  · rintro args rng ⟨hargs, hdvd⟩
    have hpos := List.length_pos_iff.mpr hargs
    rw [zAddAction, if_neg (by rw [List.length_cons]; omega)]
    congr 1
    funext sl
    rw [List.drop_one, List.tail_cons]
    cases (zAddLoop rng args 0 sl 0).1 <;> rfl
  · intro x hx sl hv
    obtain ⟨hcount, hlast⟩ := @zAddLoop_items [x] (by simpa using hitems x hx) x.2 0 sl sl
      ⟨hv, hv, rfl⟩ 0
    simp only [List.flatMap_cons, List.flatMap_nil, List.append_nil] at hcount hlast
    refine ⟨?_, hlast.right⟩
    simp only [zAddStep, hcount]
    rfl
  · intro rng sl hv
    obtain ⟨hcount, hlast⟩ := @zAddLoop_items items hitems rng 0 sl sl ⟨hv, hv, rfl⟩ 0
    rw [zero_add] at hcount
    simp only [hcount]
    exact ⟨rfl, SkipList.same_of_getScore_eq hlast.left hlast.right hlast.scores⟩
  · intro obj sl hobj
    exact hwf key _ (liveEntry_eq_some.mp hobj).1

/-! ## Keys -/

/-- `DEL` and `EXISTS` have no key of their own: a loop over the arguments is all
they do. -/
theorem sumsUp_loop {loop : List Bytes → Dict → Nat → Nat × Dict}
    (hexec : ∀ args rng db, args ≠ [] → execute ⟨db, ⟨name, args⟩, now, rng⟩ =
      (RespCodec.integer (loop args db 0).1, (loop args db 0).2))
    (hloop : LoopsOver items loop) (hwidth : ∀ x ∈ items, x.1.length = 1) (hne : items ≠ []) :
    SumsUp now name [] items db := by
  intro rng
  obtain ⟨hreplies, heach⟩ := @runEach_sim _ _ _ _ _ (fun x db => loop x.1 db 0)
    (executeItem now name []) (fun n : Nat => RespCodec.integer n) Eq items
    (fun x hx db d hd => by
      subst hd
      rw [executeItem, List.nil_append, hexec _ _ _ (fits_item one_pos (hwidth x hx)).1]
      exact ⟨rfl, rfl⟩) db db rfl
  have hall : executeAll now name [] rng items db =
      (RespCodec.integer (runEach (fun x db => loop x.1 db 0) items db).1.sum,
        (runEach (fun x db => loop x.1 db 0) items db).2) := by
    rw [executeAll, List.nil_append, hexec _ _ _ (fits_items one_pos hwidth hne).1, hloop, zero_add]
  rw [hall, ← heach]
  exact ⟨fun k => rel_same_refl _, _, hreplies, rfl⟩

theorem del_sumsUp (hname : normalize name = ascii "DEL") (hwidth : ∀ x ∈ items, x.1.length = 1)
    (hne : items ≠ []) : SumsUp now name [] items db := by
  refine sumsUp_loop (fun args rng db hargs => ?_) (loopsOver_delLoop hwidth) hwidth hne
  have hf : findHandler (normalize name) = some delCmd := by rw [hname]; rfl
  rw [execute_of_findHandler hf, delCmd, if_neg (by simpa using hargs)]

theorem exists_sumsUp (hname : normalize name = ascii "EXISTS")
    (hwidth : ∀ x ∈ items, x.1.length = 1) (hne : items ≠ []) : SumsUp now name [] items db := by
  refine sumsUp_loop (fun args rng db hargs => ?_) (loopsOver_existsLoop hwidth now) hwidth hne
  have hf : findHandler (normalize name) = some existsCmd := by rw [hname]; rfl
  rw [execute_of_findHandler hf, existsCmd, if_neg (by simpa using hargs)]

end commands

/-! ## Lists -/

section lists

variable {db : Dict} {now : TimePoint} {name key : Bytes} {items : List Item}

theorem push_repliesLast {arity : Bytes} {push : RedisList → Bytes → RedisList}
    (hact : writeActions.lookup (normalize name) = some fun args _ _ => pushAction arity push args)
    (hlive : db.LiveOfType now key .list) (hwidth : ∀ x ∈ items, x.1.length = 1)
    (hne : items ≠ []) : RepliesLast now name [key] items db := by
  intro rng
  have hperf : ∀ args rng, args ≠ [] →
      Performs (fun db => execute ⟨db, ⟨name, key :: args⟩, now, rng⟩) now key
        (.create lists.as (.create (lists.wrap [])) fun lst =>
          (RespCodec.integer (args.foldl push lst).length, .list (args.foldl push lst))) := by
    intro args rng hargs
    have h := performs_execute hact (key :: args) now rng
    have hpos := List.length_pos_iff.mpr hargs
    rw [pushAction, if_neg (by rw [List.length_cons]; omega)] at h
    exact h
  obtain ⟨lst, -, hreply, hreplies, hsame⟩ := @Kind.created_spec _ _ lists now name key items db
    (executeAll now name [key] rng items)
    (fun x lst => ((x.1.foldl push lst).length, x.1.foldl push lst))
    (fun n : Nat => RespCodec.integer n) (fun _ => True) [] _ _
    (hperf _ rng (fits_items one_pos hwidth hne).1)
    (fun x hx => hperf _ x.2 (fits_item one_pos (hwidth x hx)).1)
    (fun _ _ _ _ => ⟨rfl, trivial⟩) hlive trivial (fun _ _ _ => trivial) hne
  have hlast : (runEach (fun x lst => ((x.1.foldl push lst).length, x.1.foldl push lst))
      items lst).2 = (items.flatMap Prod.fst).foldl push lst := by
    rw [runEach_snd, List.foldl_flatMap]
  refine ⟨hsame (by rw [hlast]; exact .refl _), ?_⟩
  rw [hreplies, List.getLast?_map,
    @getLast?_runEach Item RedisList Nat _ List.length items hne lst fun _ _ _ => rfl, hlast, hreply]
  rfl

/-- The strings in a reply to a pop. -/
def RespValue.elements : RespValue → List Bytes
  | .bulk (some s) => [s]
  | .array items => items.filterMap fun
    | .bulk s => s
    | _ => none
  | _ => []

/-- The elements that a client reads in a reply. -/
def elementsOf (reply : Bytes) : List Bytes :=
  match RespValue.read 2 reply with
  | some (v, _) => v.elements
  | none => []

theorem elementsOf_nullBulkString : elementsOf RespCodec.nullBulkString = [] := by decide +kernel

theorem elementsOf_bulkString (s : Bytes) : elementsOf (RespCodec.bulkString s) = [s] := by
  have hread := read_bulkString s 1 []
  rw [List.append_nil] at hread
  rw [elementsOf, hread]
  rfl

theorem elementsOf_bulkArray (items : List Bytes) : elementsOf (bulkArray items) = items := by
  rw [elementsOf, bulkArray, read_bulkStrings]
  simp [RespValue.elements, List.filterMap_map]

/-- One pop: the element, and the rest. -/
def popStep (pop : RedisList → Option (Bytes × RedisList)) (lst : RedisList) :
    Option Bytes × RedisList :=
  match pop lst with
  | none => (none, lst)
  | some (x, rest) => (some x, rest)

/-- The reply to one pop. -/
def elementReply : Option Bytes → Bytes
  | none => RespCodec.nullBulkString
  | some x => RespCodec.bulkString x

theorem elementsOf_elementReply (x : Option Bytes) : elementsOf (elementReply x) = x.toList := by
  cases x with
  | none => exact elementsOf_nullBulkString
  | some x => exact elementsOf_bulkString x

theorem flatMap_elementsOf (l : List (Option Bytes)) :
    (l.map elementReply).flatMap elementsOf = l.reduceOption := by
  induction l with
  | nil => rfl
  | cons x l ih => cases x <;> simp [elementsOf_elementReply, ih]

/-- The loop of a pop is the run of its single pops. -/
theorem popLoop_eq_runEach (pop : RedisList → Option (Bytes × RedisList)) (items : List Item)
    (lst : RedisList) :
    popLoop pop items.length lst =
      ((runEach (fun _ => popStep pop) items lst).1.reduceOption.map RespCodec.bulkString,
        (runEach (fun _ => popStep pop) items lst).2) := by
  induction items generalizing lst with
  | nil => rfl
  | cons x items ih =>
      rw [List.length_cons, popLoop]
      cases hpop : pop lst with
      | none =>
          have hidle : popStep pop lst = (none, lst) := by rw [popStep, hpop]
          rw [runEach_idle fun _ _ => hidle, List.reduceOption_replicate_none]
          rfl
      | some p =>
          obtain ⟨a, rest⟩ := p
          have hstep : popStep pop lst = (some a, rest) := by rw [popStep, hpop]
          simp [ih, hstep]

/-- The pops of `n` elements at once, against `n` single ones: they return the same
elements, and leave the same key space.  Without a single pop nobody looks at the
deadline of the key, while the pop of no element does. -/
def PopsOff (now : TimePoint) (name key count : Bytes) (items : List Item) (db : Dict) : Prop :=
  ∀ rng,
    elementsOf (execute ⟨db, ⟨name, [key, count]⟩, now, rng⟩).1 =
        (runEach (executeItem now name [key]) items db).1.flatMap elementsOf ∧
      (items ≠ [] ∨ ¬ db.HasExpired now key →
        (execute ⟨db, ⟨name, [key, count]⟩, now, rng⟩).2.Same
          (runEach (executeItem now name [key]) items db).2) ∧
      (items = [] → db.HasExpired now key → ∀ k,
        (execute ⟨db, ⟨name, [key, count]⟩, now, rng⟩).2.get k =
          if k = key then none else db.get k)

variable {arity : Bytes} {pop : RedisList → Option (Bytes × RedisList)}

/-- The action of a pop with a count, and of one without. -/
theorem popAction_count {count : Bytes} {n : Int64} (hcount : parseInt count = some n)
    (hn : 0 ≤ n) : popAction arity pop [key, count] =
      .remove lists.as RespCodec.nullBulkString fun lst =>
        (RespCodec.array (popLoop pop n.toInt.toNat lst).1,
          lists.wrap (popLoop pop n.toInt.toNat lst).2,
          (popLoop pop n.toInt.toNat lst).2.isEmpty) := by
  have hneg : ¬ n < 0 := Int64.not_lt.mpr hn
  simp [popAction, hcount, hneg, popReply]
  rfl

theorem popAction_one : popAction arity pop [key] =
    .remove lists.as RespCodec.nullBulkString fun lst =>
      (elementReply (popStep pop lst).1, lists.wrap (popStep pop lst).2,
        (popStep pop lst).2.isEmpty) := by
  have hneg : ¬ (1 : Int64) < 0 := by decide
  have hstep : ∀ lst, popLoop pop 1 lst =
      ((popStep pop lst).1.toList.map RespCodec.bulkString, (popStep pop lst).2) := by
    intro lst
    rw [popLoop, popStep]
    cases pop lst <;> rfl
  have haction : popAction arity pop [key] =
      .remove lists.as RespCodec.nullBulkString fun lst =>
        (popReply false (popLoop pop 1 lst).1, lists.wrap (popLoop pop 1 lst).2,
          (popLoop pop 1 lst).2.isEmpty) := by
    simp [popAction, hneg]
    rfl
  rw [haction]
  congr 1
  funext lst
  rw [hstep]
  cases (popStep pop lst).1 <;> rfl

/-- The pop of no element is a look at the key. -/
theorem get_popNone {f : Dict → Bytes × Dict}
    (hperf : Performs f now key (.remove lists.as RespCodec.nullBulkString fun lst =>
      (RespCodec.array (popLoop pop 0 lst).1, lists.wrap (popLoop pop 0 lst).2,
        (popLoop pop 0 lst).2.isEmpty)))
    (hlive : db.LiveOfType now key .list)
    (hvalue : ∀ obj (lst : RedisList), db.live now key = some obj → obj.value = lists.wrap lst →
      lst.isEmpty = false) :
    elementsOf (f db).1 = [] ∧
      ∀ k, (f db).2.get k = if k = key then db.live now key else db.get k := by
  obtain ⟨obj, lst, -, -, hentry⟩ :=
    @Kind.exists_removed _ lists db now key List.isEmpty hlive [] rfl hvalue
  have hperf' : Performs f now key (.act (KeyAction.remove lists.as RespCodec.nullBulkString
    fun lst => (RespCodec.array (popLoop pop 0 lst).1, lists.wrap (popLoop pop 0 lst).2,
      (popLoop pop 0 lst).2.isEmpty)).run) := hperf
  obtain ⟨hreply, hget⟩ := hperf' db
  rw [hentry, lists.run_kept] at hreply hget
  rw [hreply, hentry]
  by_cases hempty : List.isEmpty lst = true
  · simp only [hempty, if_true, Kind.kept] at hget ⊢
    exact ⟨elementsOf_nullBulkString, hget⟩
  · simp only [hempty, if_false, popLoop, Kind.kept, Bool.false_eq_true] at hget ⊢
    exact ⟨elementsOf_bulkArray [], hget⟩

/-- `LPOP` and `RPOP` with a count, against that many single pops. -/
theorem pop_popsOff
    (hact : writeActions.lookup (normalize name) = some fun args _ _ => popAction arity pop args)
    (hpop : pop [] = none) (hlive : db.LiveOfType now key .list) (hfilled : db.NoEmpty)
    {count : Bytes} {n : Int64} (hcount : parseInt count = some n) (hn : 0 ≤ n)
    (hitems : ∀ x ∈ items, x.1 = []) (hlen : items.length = n.toInt.toNat) :
    PopsOff now name key count items db := by
  intro rng
  have hperfAll : Performs (fun db => execute ⟨db, ⟨name, [key, count]⟩, now, rng⟩) now key
      (.remove lists.as RespCodec.nullBulkString fun lst =>
        (RespCodec.array (popLoop pop items.length lst).1,
          lists.wrap (popLoop pop items.length lst).2,
          (popLoop pop items.length lst).2.isEmpty)) := by
    rw [hlen, ← popAction_count hcount hn]
    exact performs_execute hact [key, count] now rng
  have hperfOne : ∀ x ∈ items, Performs (executeItem now name [key] x) now key
      (.remove lists.as RespCodec.nullBulkString fun lst =>
        (elementReply (popStep pop lst).1, lists.wrap (popStep pop lst).2,
          (popStep pop lst).2.isEmpty)) := by
    intro x hx
    have h := performs_execute hact [key] now x.2
    rw [popAction_one] at h
    unfold executeItem
    rwa [hitems x hx]
  have hidle : ∀ lst : RedisList, lst.isEmpty = true → popStep pop lst = (none, lst) := by
    intro lst hempty
    rw [List.isEmpty_iff.mp hempty, popStep, hpop]
  have hvalue : ∀ obj (lst : RedisList), db.live now key = some obj → obj.value = lists.wrap lst →
      lst.isEmpty = false := by
    intro obj lst hobj hvalue
    have := (hfilled key).liveEntry now obj hobj
    rwa [hvalue] at this
  by_cases hne : items = []
  · subst hne
    obtain ⟨helements, hget⟩ := get_popNone hperfAll hlive hvalue
    refine ⟨helements, fun h => ?_, fun _ he k => ?_⟩
    · have hentry := Dict.live_eq_get (h.resolve_left fun hnil => hnil rfl)
      intro k
      rw [hget k]
      by_cases hk : k = key
      · rw [if_pos hk, hentry, hk]
        exact rel_same_refl _
      · rw [if_neg hk]
        exact rel_same_refl _
    · rw [hget k, Dict.live_of_hasExpired he]
  · obtain ⟨obj, lst, -, -, hreply, hreplies, hsame⟩ := @Kind.removed_spec _ _ lists now name key
      items db _ (fun _ => popStep pop) elementReply (fun _ => True) [] List.isEmpty _ _ none _ _
      hperfAll hperfOne (fun _ _ _ _ => ⟨rfl, trivial⟩) (fun _ _ lst _ => hidle lst) rfl hlive
      trivial rfl (fun _ _ _ => trivial) hvalue hne
    refine ⟨?_, fun _ => hsame (by rw [popLoop_eq_runEach]), fun hnil => absurd hnil hne⟩
    rw [hreplies, flatMap_elementsOf, hreply]
    split
    · next hempty =>
      rw [runEach_idle fun _ _ => hidle lst hempty, List.reduceOption_replicate_none]
      exact elementsOf_nullBulkString
    · rw [popLoop_eq_runEach]
      exact elementsOf_bulkArray _

end lists

/-! ## All commands -/

/-- The commands that count what their items do to one key: the type of its object,
and what an item is. -/
def countingCommands : List (Bytes × ObjType × (List Bytes → Prop)) :=
  [ (ascii "HSET", .hash, fun item => item.length = 2),
    (ascii "HDEL", .hash, fun item => item.length = 1),
    (ascii "SADD", .set, fun item => item.length = 1),
    (ascii "SREM", .set, fun item => item.length = 1),
    (ascii "ZADD", .zset, IsScorePair),
    (ascii "ZREM", .zset, fun item => item.length = 1) ]

/-- **Variadic commands are the sequence of their single forms**, on a key that is
missing, expired or of the right type; sorted sets must be well formed. -/
theorem variadic_spec {db : Dict} (hfilled : db.NoEmpty) (now : TimePoint) (name : Bytes) :
    (∀ c ∈ countingCommands, normalize name = c.1 → (c.2.1 = .zset → db.WellFormed) →
      ∀ key, db.LiveOfType now key c.2.1 →
      ∀ items : List Item, items ≠ [] → (∀ x ∈ items, c.2.2 x.1) →
        SumsUp now name [key] items db) ∧
    (normalize name = ascii "DEL" ∨ normalize name = ascii "EXISTS" →
      ∀ items : List Item, items ≠ [] → (∀ x ∈ items, x.1.length = 1) →
        SumsUp now name [] items db) ∧
    (normalize name = ascii "LPUSH" ∨ normalize name = ascii "RPUSH" →
      ∀ key, db.LiveOfType now key .list →
      ∀ items : List Item, items ≠ [] → (∀ x ∈ items, x.1.length = 1) →
        RepliesLast now name [key] items db) ∧
    (normalize name = ascii "LPOP" ∨ normalize name = ascii "RPOP" →
      ∀ key, db.LiveOfType now key .list →
      ∀ count n, parseInt count = some n → 0 ≤ n →
      ∀ items : List Item, (∀ x ∈ items, x.1 = []) → items.length = n.toInt.toNat →
        PopsOff now name key count items db) := by
  refine ⟨?_, ?_, ?_, ?_⟩
  · simp only [countingCommands, List.forall_mem_cons, List.not_mem_nil, false_imp_iff,
      implies_true, and_true]
    exact ⟨fun hname _ key hlive items hne h => hSet_sumsUp hname hlive h hne,
      fun hname _ key hlive items hne h => hDel_sumsUp hname hlive hfilled h hne,
      fun hname _ key hlive items hne h => sAdd_sumsUp hname hlive h hne,
      fun hname _ key hlive items hne h => sRem_sumsUp hname hlive hfilled h hne,
      fun hname hwf key hlive items hne h => zAdd_sumsUp hname hlive (hwf trivial) h hne,
      fun hname hwf key hlive items hne h => zRem_sumsUp hname hlive (hwf trivial) hfilled h hne⟩
  · rintro (hname | hname) items hne h
    · exact del_sumsUp hname h hne
    · exact exists_sumsUp hname h hne
  · rintro (hname | hname) key hlive items hne h
    · exact push_repliesLast (by rw [hname]; rfl) hlive h hne
    · exact push_repliesLast (by rw [hname]; rfl) hlive h hne
  · rintro (hname | hname) key hlive count n hcount hn items h hlen
    · exact pop_popsOff (by rw [hname]; rfl) rfl hlive hfilled hcount hn h hlen
    · exact pop_popsOff (by rw [hname]; rfl) rfl hlive hfilled hcount hn h hlen

/-- A key space with one object. -/
def oneObject (obj : RedisObject) : Dict := (∅ : Dict).set (ascii "k") obj

theorem get_oneObject {obj obj' : RedisObject} {key : Bytes}
    (h : (oneObject obj).get key = some obj') : obj' = obj := by
  rw [oneObject, Dict.get_set, Dict.get_empty] at h
  split at h
  · exact (Option.some.inj h).symm
  · contradiction

/-- A set with one member. -/
def setEntry : Dict := oneObject (.create (.set ⟨[ascii "a"], by decide⟩))

theorem liveOfType_setEntry {key : Bytes} (hkey : key ≠ ascii "k") (type : ObjType) :
    setEntry.LiveOfType 0 key type := by
  intro obj h
  have hget := (liveEntry_eq_some.mp h).1
  rw [setEntry, oneObject, Dict.get_set, if_neg hkey, Dict.get_empty] at hget
  contradiction

/-- Three removals, of which one finds its member, and the key is gone by then; two pops of
nothing; and two scores for one member. -/
theorem variadic_spec_srem :
    SumsUp 0 (ascii "srem") [ascii "k"]
        [([ascii "a"], fun _ _ => 0), ([ascii "a"], fun _ _ => 1), ([ascii "z"], fun _ _ => 2)]
        setEntry ∧
      PopsOff 0 (ascii "lpop") (ascii "l") (ascii "2") [([], fun _ _ => 0), ([], fun _ _ => 1)]
        setEntry ∧
      SumsUp 0 (ascii "zadd") [ascii "z"]
        [([ascii "1", ascii "m"], fun _ _ => 0), ([ascii "2", ascii "m"], fun _ _ => 1)]
        setEntry := by
  have hwf : setEntry.WellFormed := by
    intro key obj h
    rw [get_oneObject h]
    trivial
  have hfilled : setEntry.NoEmpty := by
    intro key obj h
    rw [get_oneObject h]
    rfl
  refine ⟨?_, ?_, ?_⟩
  · refine (variadic_spec hfilled 0 (ascii "srem")).1
      (ascii "SREM", .set, fun item => item.length = 1) (by simp [countingCommands]) (by decide)
      nofun (ascii "k") ?_ _ (by simp) (by simp)
    intro obj h
    rw [get_oneObject (liveEntry_eq_some.mp h).1]
    rfl
  · exact (variadic_spec hfilled 0 (ascii "lpop")).2.2.2 (.inl (by decide)) (ascii "l")
      (liveOfType_setEntry (by decide) _) (ascii "2") 2 (by decide +kernel) (by decide) _ (by simp)
      (by decide)
  · refine (variadic_spec hfilled 0 (ascii "zadd")).1 (ascii "ZADD", .zset, IsScorePair)
      (by simp [countingCommands]) (by decide) (fun _ => hwf) (ascii "z")
      (liveOfType_setEntry (by decide) _) _ (by simp) ?_
    simp only [List.forall_mem_cons, List.not_mem_nil, false_imp_iff, implies_true, and_true]
    exact ⟨⟨rfl, _, rfl, by decide +kernel⟩, ⟨rfl, _, rfl, by decide +kernel⟩⟩

/-- A list that has expired at instant 0. -/
def expiredListEntry : Dict :=
  oneObject ((RedisObject.create (.list [ascii "a"])).withExpire (some 0))

/-- The pop of no element deletes an expired key, and no pop at all does not. -/
theorem not_same_lpop_zero :
    expiredListEntry.WellFormed ∧ expiredListEntry.NoEmpty ∧
      expiredListEntry.LiveOfType 1 (ascii "k") .list ∧
      ¬ (execute ⟨expiredListEntry, ⟨ascii "LPOP", [ascii "k", ascii "0"]⟩, 1,
          fun _ _ => 0⟩).2.Same
        (runEach (executeItem 1 (ascii "LPOP") [ascii "k"]) [] expiredListEntry).2 := by
  refine ⟨?_, ?_, ?_, ?_⟩
  · intro key obj h
    rw [get_oneObject h]
    trivial
  · intro key obj h
    rw [get_oneObject h]
    rfl
  · intro obj h
    rw [get_oneObject (liveEntry_eq_some.mp h).1]
    rfl
  · intro hsame
    have hkey := rel_isSome_eq (hsame (ascii "k"))
    revert hkey
    decide +kernel

end RedisLike
