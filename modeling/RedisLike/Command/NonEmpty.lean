import RedisLike.Command.Cells

/-!
# RedisLike.Command.NonEmpty

No empty aggregates.

A key of type hash, list, set or sorted set is there to hold elements: a command
that creates one puts something into it, and one that takes the last element out
deletes the key (`noEmpty_execute`, `get_execute_of_takesAll`).  The exception
is a command that fails: `ZADD` creates its list before it reads the scores.
-/

namespace RedisLike

open LastWriter

/-! ## Empty values -/

/-- `hash->empty()` and the like; a string is no aggregate. -/
def ValueVariant.isEmpty : ValueVariant → Bool
  | string _ => false
  | hash h => h.empty
  | list l => List.isEmpty l
  | set s => s.empty
  | zset sl => decide (sl.size = 0)

/-- The entry, when there is one, is no empty aggregate. -/
def Filled (e : Option RedisObject) : Prop := ∀ obj, e = some obj → obj.value.isEmpty = false

/-- No hash, list, set or sorted set is empty. -/
def Dict.NoEmpty (db : Dict) : Prop := ∀ key, Filled (db.get key)

theorem filled_none : Filled none := by
  intro obj h
  cases h

theorem filled_some {obj : RedisObject} (h : obj.value.isEmpty = false) : Filled (some obj) := by
  rintro _ ⟨⟩
  exact h

theorem Filled.liveEntry {e : Option RedisObject} (h : Filled e) (now : TimePoint) :
    Filled (liveEntry now e) := fun obj hobj => h obj (liveEntry_eq_some.mp hobj).1

/-! ## The loops that store -/

theorem empty_hSetLoop {args : List Bytes} (hargs : 2 ≤ args.length) (hash : RedisHash)
    (added : Nat) : (hSetLoop args hash added).2.empty = false := by
  rw [Bool.eq_false_iff, ne_eq, UnorderedMap.empty_iff]
  intro hnone
  rcases args with _ | ⟨field, _ | ⟨val, rest⟩⟩
  · exact absurd hargs (by simp)
  · exact absurd hargs (by simp)
  · obtain ⟨c, hc⟩ := @exists_storeAll_ne_none _ _ sameBytes _ hash.lookup
      (fieldWrites (field :: val :: rest)) (List.cons_ne_nil _ _)
      fun _ => ne_none_of_mem_fieldWrites
    rw [← lookup_hSetLoop _ hash added] at hc
    exact hc (hnone c)

theorem empty_sAddLoop {args : List Bytes} (hargs : args ≠ []) (set : RedisSet) (added : Nat) :
    (sAddLoop args set added).2.empty = false := by
  rw [Bool.eq_false_iff, ne_eq, UnorderedSet.empty_iff]
  intro hnone
  obtain ⟨c, hc⟩ := @exists_storeAll_ne_none _ _ samePresence _ (presence set)
    (memberWrites args) (by simpa [memberWrites] using hargs) fun _ => ne_none_of_mem_memberWrites
  rw [← presence_sAddLoop args set added] at hc
  exact hc (by simp [presence, hnone c])

theorem length_foldl_push {push : RedisList → Bytes → RedisList}
    (hpush : ∀ lst v, (push lst v).length = lst.length + 1) (args : List Bytes)
    (lst : RedisList) : (args.foldl push lst).length = lst.length + args.length := by
  induction args generalizing lst with
  | nil => rfl
  | cons v args ih =>
      rw [List.foldl_cons, ih, hpush, List.length_cons]
      omega

/-- `Insert` leaves a node, unless it finds the score of a list without one. -/
theorem SkipList.size_insert_pos {sl : SkipList} {member : Bytes}
    (h : sl.getScore member = none ∨ 0 < sl.size) (score : Double) (level : Level) :
    0 < (sl.insert score member level).2.size := by
  unfold insert
  cases hs : sl.scoreMap.lookup member with
  | none => exact Nat.succ_pos _
  | some old =>
      have hpos : 0 < sl.size := h.resolve_left (by rw [getScore, hs]; simp)
      dsimp only
      split
      · exact hpos
      · exact Nat.succ_pos _

theorem size_zAddLoop_pos (rng : Nat → Nat → Nat) (args : List Bytes) (i : Nat) {sl : SkipList}
    (added : Nat) (h : 0 < sl.size) : 0 < (zAddLoop rng args i sl added).2.size := by
  fun_induction zAddLoop rng args i sl added with
  | case1 => exact h
  | case2 text member rest i sl added score hs existed ih =>
      exact ih (SkipList.size_insert_pos (.inr h) score _)
  | case3 => exact h

/-- A `ZADD` that runs to its end has added a pair. -/
theorem size_zAddLoop_of_isSome {rng : Nat → Nat → Nat} {args : List Bytes} {sl : SkipList}
    (hargs : 2 ≤ args.length) (hsl : (∀ m, sl.getScore m = none) ∨ 0 < sl.size)
    (hok : (zAddLoop rng args 0 sl 0).1 ≠ none) : 0 < (zAddLoop rng args 0 sl 0).2.size := by
  rcases args with _ | ⟨text, _ | ⟨member, rest⟩⟩
  · exact absurd hargs (by simp)
  · exact absurd hargs (by simp)
  · rw [zAddLoop] at hok ⊢
    cases hs : parseDouble text with
    | none => simp [hs] at hok
    | some score =>
        exact size_zAddLoop_pos rng rest _ _
          (SkipList.size_insert_pos (hsl.imp_left fun h => h member) score _)

/-! ## Actions that keep the entry filled -/

namespace KeyAction

/-- The action leaves no empty aggregate where it found none, unless it fails. -/
def KeepsFilled : KeyAction → Prop
  | idle _ => True
  | act g => ∀ e, Filled e → isError (g e).1 = false → Filled (g e).2

theorem keepsFilled_idle (reply : Bytes) : (idle reply).KeepsFilled := trivial

theorem KeepsFilled.ite {c : Prop} [Decidable c] {reply : Bytes} {action : KeyAction}
    (h : action.KeepsFilled) : (if c then idle reply else action).KeepsFilled := by
  split
  · exact keepsFilled_idle reply
  · exact h

theorem ReadOnly.keepsFilled {action : KeyAction} (h : action.ReadOnly) : action.KeepsFilled := by
  cases action with
  | idle reply => trivial
  | act g =>
      intro e he _
      rwa [h e]

section shapes

variable {α : Type} {as : ValueVariant → Option α}

/-- `create`, when its step leaves something in a fresh value and in one that is
not empty. -/
theorem keepsFilled_create {fresh : RedisObject} {step : α → Bytes × ValueVariant}
    (h : ∀ v, as fresh.value = some v ∨ (∃ x, as x = some v ∧ x.isEmpty = false) →
      isError (step v).1 = false → (step v).2.isEmpty = false) :
    (create as fresh step).KeepsFilled := by
  intro e he hok
  cases hv : as (e.getD fresh).value with
  | none =>
      simp only [hv] at hok
      cases hok
  | some v =>
      simp only [hv] at hok ⊢
      refine filled_some (h v ?_ hok)
      cases e with
      | none => exact .inl hv
      | some obj => exact .inr ⟨obj.value, hv, he obj rfl⟩

/-- `remove`, when its flag is the emptiness of the value left. -/
theorem keepsFilled_remove {absent : Bytes} {step : α → Bytes × ValueVariant × Bool}
    (h : ∀ v, (step v).2.2 = (step v).2.1.isEmpty) : (remove as absent step).KeepsFilled := by
  intro e he _
  cases e with
  | none => exact filled_none
  | some obj =>
      cases hv : as obj.value with
      | none => simpa only [hv] using he
      | some v =>
          simp only [hv, h v]
          by_cases hempty : (step v).2.1.isEmpty = true
          · rw [if_pos hempty]
            exact filled_none
          · rw [if_neg hempty]
            exact filled_some (Bool.eq_false_iff.mpr hempty)

end shapes

end KeyAction

section filled

open KeyAction

theorem setAction_keepsFilled (args : List Bytes) (now : TimePoint) :
    (setAction args now).KeepsFilled := by
  unfold setAction
  refine KeepsFilled.ite ?_
  cases setOptions (args.drop 2) {} with
  | error reply => exact keepsFilled_idle reply
  | ok o =>
      refine KeepsFilled.ite fun e he _ => ?_
      dsimp only
      split
      · exact he
      · split
        · exact he
        · exact filled_some rfl

theorem expireAction_keepsFilled (arity : Bytes) (add : TimePoint → Int64 → TimePoint)
    (args : List Bytes) (now : TimePoint) : (expireAction arity add args now).KeepsFilled := by
  unfold expireAction
  refine KeepsFilled.ite ?_
  cases parseInt (args.getD 1 []) with
  | none => exact keepsFilled_idle _
  | some n =>
      intro e he _
      cases e with
      | none => exact filled_none
      | some obj =>
          dsimp only
          split
          · exact filled_some (he obj rfl)
          · exact filled_none

theorem hSetAction_keepsFilled (args : List Bytes) : (hSetAction args).KeepsFilled := by
  unfold hSetAction
  split
  · exact keepsFilled_idle _
  · next h =>
    refine keepsFilled_create fun hash _ _ => empty_hSetLoop ?_ hash 0
    rw [List.length_drop]
    omega

theorem hDelAction_keepsFilled (args : List Bytes) : (hDelAction args).KeepsFilled :=
  KeepsFilled.ite (keepsFilled_remove fun _ => rfl)

theorem pushAction_keepsFilled (arity : Bytes) {push : RedisList → Bytes → RedisList}
    (hpush : ∀ lst v, (push lst v).length = lst.length + 1) (args : List Bytes) :
    (pushAction arity push args).KeepsFilled := by
  unfold pushAction
  split
  · exact keepsFilled_idle _
  · next h =>
    refine keepsFilled_create fun lst _ _ => List.isEmpty_eq_false_iff.mpr fun hnil => ?_
    have hlength := length_foldl_push hpush (args.drop 1) lst
    rw [hnil, List.length_drop, List.length_nil] at hlength
    omega

theorem popAction_keepsFilled (arity : Bytes) (pop : RedisList → Option (Bytes × RedisList))
    (args : List Bytes) : (popAction arity pop args).KeepsFilled := by
  unfold popAction
  refine KeepsFilled.ite ?_
  cases (if args.length ≥ 2 then parseInt (args.getD 1 []) else some 1) with
  | none => exact keepsFilled_idle _
  | some count => exact KeepsFilled.ite (keepsFilled_remove fun _ => rfl)

theorem sAddAction_keepsFilled (args : List Bytes) : (sAddAction args).KeepsFilled := by
  unfold sAddAction
  split
  · exact keepsFilled_idle _
  · next h =>
    refine keepsFilled_create fun set _ _ => empty_sAddLoop ?_ set 0
    rw [ne_eq, List.drop_eq_nil_iff]
    omega

theorem sRemAction_keepsFilled (args : List Bytes) : (sRemAction args).KeepsFilled :=
  KeepsFilled.ite (keepsFilled_remove fun _ => rfl)

theorem sPopAction_keepsFilled (args : List Bytes) (rng : Nat → Nat → Nat) :
    (sPopAction args rng).KeepsFilled := by
  unfold sPopAction
  refine KeepsFilled.ite ?_
  cases sPopArg args with
  | none => exact keepsFilled_idle _
  | some count => exact keepsFilled_remove fun _ => rfl

theorem zAddAction_keepsFilled (args : List Bytes) (rng : Nat → Nat → Nat) :
    (zAddAction args rng).KeepsFilled := by
  unfold zAddAction
  split
  · exact keepsFilled_idle _
  · next h =>
    refine keepsFilled_create fun sl hsl hok => decide_eq_false (Nat.ne_of_gt ?_)
    refine size_zAddLoop_of_isSome ?_ ?_ fun hnone => ?_
    · rw [List.length_drop]
      omega
    · rcases hsl with hnew | ⟨v, hv, hempty⟩
      · cases hnew
        exact .inl fun m => rfl
      · rw [asZSet_eq_some.mp hv] at hempty
        exact .inr (Nat.pos_of_ne_zero (of_decide_eq_false hempty))
    · rw [hnone] at hok
      cases hok

theorem zRemAction_keepsFilled (args : List Bytes) : (zRemAction args).KeepsFilled :=
  KeepsFilled.ite (keepsFilled_remove fun _ => rfl)

end filled

/-- No writing command leaves an empty aggregate, unless it fails. -/
theorem writeActions_keepsFilled :
    ∀ p ∈ writeActions, ∀ args now rng, (p.2 args now rng).KeepsFilled := by
  simp only [writeActions, List.forall_mem_cons, List.not_mem_nil, false_imp_iff, implies_true,
    and_true]
  exact ⟨fun args now _ => setAction_keepsFilled args now,
    fun args now _ => expireAction_keepsFilled _ _ args now,
    fun args now _ => expireAction_keepsFilled _ _ args now,
    fun args _ _ => hSetAction_keepsFilled args, fun args _ _ => hDelAction_keepsFilled args,
    fun args _ _ => pushAction_keepsFilled _ (fun _ _ => List.length_cons) args,
    fun args _ _ => pushAction_keepsFilled _ (fun _ _ => List.length_append) args,
    fun args _ _ => popAction_keepsFilled _ _ args, fun args _ _ => popAction_keepsFilled _ _ args,
    fun args _ _ => sAddAction_keepsFilled args, fun args _ _ => sRemAction_keepsFilled args,
    fun args _ rng => sPopAction_keepsFilled args rng,
    fun args _ rng => zAddAction_keepsFilled args rng,
    fun args _ _ => zRemAction_keepsFilled args⟩

/-! ## All commands -/

theorem Performs.noEmpty {f : Dict → Bytes × Dict} {now : TimePoint} {key : Bytes} {a : KeyAction}
    (hf : Performs f now key a) (ha : a.KeepsFilled) {db : Dict} (h : db.NoEmpty)
    (hok : isError (f db).1 = false) : (f db).2.NoEmpty := by
  cases a with
  | idle reply =>
      rw [hf db]
      exact h
  | act g =>
      obtain ⟨hreply, hget⟩ := hf db
      intro k
      rw [hget k]
      by_cases hk : k = key
      · rw [if_pos hk]
        exact ha _ ((h key).liveEntry now) (hreply ▸ hok)
      · rw [if_neg hk]
        exact h k

/-- A loop that only deletes entries. -/
theorem Dict.NoEmpty.of_get_or {db db' : Dict} (h : db.NoEmpty)
    (hget : ∀ k, db'.get k = db.get k ∨ db'.get k = none) : db'.NoEmpty := by
  intro k
  rcases hget k with hk | hk
  · exact hk ▸ h k
  · exact hk ▸ filled_none

theorem Dict.live_or (db : Dict) (now : TimePoint) (k : Bytes) :
    db.live now k = db.get k ∨ db.live now k = none := by
  rw [live]
  cases hl : liveEntry now (db.get k) with
  | none => exact .inr rfl
  | some obj => exact .inl (liveEntry_eq_some.mp hl).1.symm

/-- **No command leaves an empty aggregate behind**, unless it fails. -/
theorem noEmpty_execute {ctx : CmdContext} (h : ctx.db.NoEmpty)
    (hok : isError (execute ctx).1 = false) : (execute ctx).2.NoEmpty := by
  cases hf : findHandler (normalize ctx.cmd.name) with
  | none =>
      rw [execute_of_not_found hf]
      exact h
  | some handler =>
      rw [execute_of_findHandler hf] at hok ⊢
      obtain ⟨act, hact, ha⟩ | ⟨-, hr | ⟨-, rfl⟩ | ⟨-, rfl⟩ | ⟨-, rfl⟩⟩ := findHandler_spec hf
      · exact (ha ctx).noEmpty (writeActions_keepsFilled _ (mem_of_lookup_eq_some hact) _ _ _)
          h hok
      · obtain ⟨a, ha, hro⟩ := hr ctx
        exact ha.noEmpty hro.keepsFilled h hok
      · dsimp only [delCmd]
        split
        · exact h
        · refine h.of_get_or fun k => ?_
          rw [get_delLoop]
          split
          · exact .inr rfl
          · exact .inl rfl
      · dsimp only [existsCmd]
        split
        · exact h
        · refine h.of_get_or fun k => ?_
          rw [get_existsLoop]
          split
          · exact ctx.db.live_or ctx.now k
          · exact .inl rfl
      · dsimp only [keysCmd]
        split
        · exact h
        · exact h.of_get_or fun k =>
            (get_keysLoop_or ctx.now (ctx.arg 0) ctx.db.keys ctx.db k).imp_right And.left

/-! ## The last element -/

/-- The number of pops that `LPOP` and `RPOP` are asked for, 1 without a count. -/
def popCount (args : List Bytes) : Option Int64 :=
  if args.length ≥ 2 then parseInt (args.getD 1 []) else some 1

/-- The command is a pop or a remove that takes every element of the value. -/
def RespCommand.TakesAll (cmd : RespCommand) : ValueVariant → Prop
  | .string _ => False
  | .hash h => normalize cmd.name = ascii "HDEL" ∧
      ∀ field, h.lookup field ≠ none → field ∈ cmd.args.drop 1
  | .list l => (normalize cmd.name = ascii "LPOP" ∨ normalize cmd.name = ascii "RPOP") ∧
      ∃ count, popCount cmd.args = some count ∧ (l.length : Int) ≤ count.toInt
  | .set s => normalize cmd.name = ascii "SREM" ∧ (∀ m ∈ s, m ∈ cmd.args.drop 1) ∨
      normalize cmd.name = ascii "SPOP" ∧
        ∃ count, sPopArg cmd.args = some count ∧ (s.size : Int) ≤ count
  | .zset sl => normalize cmd.name = ascii "ZREM" ∧
      sl.size ≤ (zRemLoop (cmd.args.drop 1) sl 0).1

theorem lookup_hDelLoop_of_mem {args : List Bytes} {hash : RedisHash} {field : Bytes}
    (h : hash.lookup field ≠ none → field ∈ args) (count : Nat) :
    (hDelLoop args hash count).2.lookup field = none := by
  rw [congrFun (lookup_hDelLoop args hash count) field]
  exact storeAll_clears h

theorem notMem_sRemLoop_of_mem {args : List Bytes} {set : RedisSet} {m : Bytes}
    (h : m ∈ set → m ∈ args) (removed : Nat) : m ∉ (sRemLoop args set removed).2 := by
  rw [← presence_eq_none, presence_sRemLoop]
  refine storeAll_clears fun hne => h ?_
  rwa [Ne, presence_eq_none, not_not] at hne

/-- A pop takes one element, if there is one. -/
def Pops (pop : RedisList → Option (Bytes × RedisList)) : Prop :=
  ∀ lst, match pop lst with
    | none => lst = []
    | some (_, rest) => rest.length + 1 = lst.length

theorem pops_popFront : Pops popFront := by
  intro lst
  cases lst <;> rfl

theorem pops_popBack : Pops popBack := by
  intro lst
  cases hl : lst.getLast? with
  | none => simpa [popBack, hl] using List.getLast?_eq_none_iff.mp hl
  | some x =>
      have hne : lst ≠ [] := by
        rintro rfl
        cases hl
      have hpos := List.length_pos_of_ne_nil hne
      simp only [popBack, hl, Option.map_some, List.length_dropLast]
      omega

theorem length_popLoop {pop : RedisList → Option (Bytes × RedisList)} (hpop : Pops pop)
    (count : Nat) (lst : RedisList) : (popLoop pop count lst).2.length = lst.length - count := by
  induction count generalizing lst with
  | zero => rfl
  | succ count ih =>
      have hlst := hpop lst
      rw [popLoop]
      cases hp : pop lst with
      | none =>
          rw [hp] at hlst
          simp [hlst]
      | some r =>
          rw [hp] at hlst
          simp only [ih]
          omega

theorem size_sPopLoop (rng : Nat → Nat → Nat) (count i : Nat) (set : RedisSet) :
    (sPopLoop rng count i set).2.size = set.size - count := by
  induction count generalizing i set with
  | zero => rfl
  | succ count ih =>
      rw [sPopLoop, ih]
      by_cases hempty : set.elems = []
      · simp [UnorderedSet.size, UnorderedSet.erase, hempty]
      · have hpos : 0 < set.size := List.length_pos_of_ne_nil hempty
        have hlt : rng i 0 % set.size < set.elems.length := Nat.mod_lt _ hpos
        have hmem : set.elems.getD (rng i 0 % set.size) [] ∈ set.elems := by
          rw [List.getD_eq_getElem _ _ hlt]
          exact List.getElem_mem hlt
        have herase : (set.erase (set.elems.getD (rng i 0 % set.size) [])).size =
            set.size - 1 := UnorderedSet.size_erase_of_mem hmem
        rw [herase]
        omega

/-- A pop of as many members as there are. -/
theorem sPopDraw_of_le (rng : Nat → Nat → Nat) {count : Int} {set : RedisSet}
    (h : (set.size : Int) ≤ count) : (sPopDraw rng count set).2.empty = true := by
  have hsize : (sPopDraw rng count set).2.size = 0 := by
    rw [sPopDraw, size_sPopLoop]
    split <;> omega
  exact List.isEmpty_iff.mpr (List.length_eq_zero_iff.mp hsize)

/-- `Delete` counts the node that it unlinks. -/
theorem SkipList.size_delete_cases (sl : SkipList) (m : Bytes) :
    (sl.delete m).1 = true ∧ (sl.delete m).2.size = sl.size - 1 ∨
      (sl.delete m).1 = false ∧ (sl.delete m).2.size = sl.size := by
  unfold delete
  split
  · exact .inr ⟨rfl, rfl⟩
  · dsimp only
    split
    · exact .inr ⟨rfl, rfl⟩
    · split
      · exact .inr ⟨rfl, rfl⟩
      · exact .inl ⟨rfl, rfl⟩

theorem size_zRemLoop (args : List Bytes) (sl : SkipList) (removed : Nat) :
    removed ≤ (zRemLoop args sl removed).1 ∧
      (zRemLoop args sl removed).2.size = sl.size - ((zRemLoop args sl removed).1 - removed) := by
  induction args generalizing sl removed with
  | nil => simp [zRemLoop]
  | cons m args ih =>
      rw [zRemLoop]
      obtain ⟨hle, hsize⟩ := ih (sl.delete m).2 (if (sl.delete m).1 then removed + 1 else removed)
      rcases sl.size_delete_cases m with ⟨hfound, hdel⟩ | ⟨hfound, hdel⟩
      · rw [hfound, if_pos rfl] at hle hsize ⊢
        rw [hsize, hdel]
        omega
      · rw [hfound, if_neg Bool.false_ne_true] at hle hsize ⊢
        rw [hsize, hdel]
        exact ⟨hle, rfl⟩

namespace KeyAction

/-- The action deletes the object, or fails without a look at it. -/
def Deletes (obj : RedisObject) : KeyAction → Prop
  | idle reply => isError reply = true
  | act g => (g (some obj)).2 = none

theorem Deletes.ite {obj : RedisObject} {c : Prop} [Decidable c] {msg : Bytes}
    {action : KeyAction} (h : action.Deletes obj) :
    (if c then idle (RespCodec.error msg) else action).Deletes obj := by
  split
  · exact isError_error msg
  · exact h

theorem deletes_remove {α : Type} {as : ValueVariant → Option α} {absent : Bytes}
    {step : α → Bytes × ValueVariant × Bool} {obj : RedisObject} {v : α}
    (hv : as obj.value = some v) (h : (step v).2.2 = true) :
    (remove as absent step).Deletes obj := by
  simp only [Deletes, remove, hv, h, if_true]

end KeyAction

/-- A command that takes all there is, and does not fail, deletes the key. -/
theorem get_execute_of_deletes {ctx : CmdContext} {handler : CmdHandler} {a : KeyAction}
    {obj : RedisObject} (hf : findHandler (normalize ctx.cmd.name) = some handler)
    (hspec : Performs (CmdHandler.on handler ctx) ctx.now (ctx.arg 0) a)
    (hlive : ctx.db.live ctx.now (ctx.arg 0) = some obj) (ha : a.Deletes obj)
    (hok : isError (execute ctx).1 = false) : (execute ctx).2.get (ctx.arg 0) = none := by
  have hexec : execute ctx = CmdHandler.on handler ctx ctx.db := execute_of_findHandler hf
  rw [hexec] at hok ⊢
  cases a with
  | idle reply =>
      rw [hspec ctx.db] at hok
      exact absurd (ha.symm.trans hok) (by decide)
  | act g =>
      rw [(hspec ctx.db).2, if_pos rfl, hlive]
      exact ha

section deletes

open KeyAction

variable {cmd : RespCommand} {obj : RedisObject}

theorem hDelAction_deletes {hash : RedisHash} (hv : obj.value = .hash hash)
    (h : ∀ field, hash.lookup field ≠ none → field ∈ cmd.args.drop 1) :
    (hDelAction cmd.args).Deletes obj :=
  Deletes.ite (deletes_remove (by rw [hv]; rfl) (UnorderedMap.empty_iff.mpr fun field =>
    lookup_hDelLoop_of_mem (h field) 0))

theorem sRemAction_deletes {set : RedisSet} (hv : obj.value = .set set)
    (h : ∀ m ∈ set, m ∈ cmd.args.drop 1) : (sRemAction cmd.args).Deletes obj :=
  Deletes.ite (deletes_remove (by rw [hv]; rfl) (UnorderedSet.empty_iff.mpr fun m =>
    notMem_sRemLoop_of_mem (h m) 0))

theorem zRemAction_deletes {sl : SkipList} (hv : obj.value = .zset sl)
    (h : sl.size ≤ (zRemLoop (cmd.args.drop 1) sl 0).1) : (zRemAction cmd.args).Deletes obj := by
  refine Deletes.ite (deletes_remove (by rw [hv]; rfl) (decide_eq_true ?_))
  obtain ⟨-, hsize⟩ := size_zRemLoop (cmd.args.drop 1) sl 0
  rw [hsize]
  omega

theorem popAction_deletes (msg : Bytes) {pop : RedisList → Option (Bytes × RedisList)}
    (hpop : Pops pop) {lst : RedisList} (hv : obj.value = .list lst) {count : Int64}
    (hcount : popCount cmd.args = some count) (h : (lst.length : Int) ≤ count.toInt) :
    (popAction (RespCodec.error msg) pop cmd.args).Deletes obj := by
  unfold popAction
  refine Deletes.ite ?_
  rw [popCount] at hcount
  simp only [hcount]
  refine Deletes.ite (deletes_remove (by rw [hv]; rfl) ?_)
  rw [List.isEmpty_iff, ← List.length_eq_zero_iff, length_popLoop hpop]
  omega

theorem sPopAction_deletes (rng : Nat → Nat → Nat) {set : RedisSet} (hv : obj.value = .set set)
    {count : Int} (hcount : sPopArg cmd.args = some count) (h : (set.size : Int) ≤ count) :
    (sPopAction cmd.args rng).Deletes obj := by
  unfold sPopAction
  refine Deletes.ite ?_
  simp only [hcount]
  exact deletes_remove (by rw [hv]; rfl) (sPopDraw_of_le rng h)

end deletes

/-- **Taking the last element deletes the key.** -/
theorem get_execute_of_takesAll {ctx : CmdContext} {obj : RedisObject}
    (hlive : ctx.db.live ctx.now (ctx.arg 0) = some obj) (htakes : ctx.cmd.TakesAll obj.value)
    (hok : isError (execute ctx).1 = false) : (execute ctx).2.get (ctx.arg 0) = none := by
  cases hv : obj.value with
  | string s =>
      rw [hv] at htakes
      exact htakes.elim
  | hash hash =>
      rw [hv] at htakes
      obtain ⟨hname, hall⟩ := htakes
      exact get_execute_of_deletes (by rw [hname]; rfl) (hDelCmd_performs ctx) hlive
        (hDelAction_deletes hv hall) hok
  | list lst =>
      rw [hv] at htakes
      obtain ⟨hname | hname, count, hcount, hle⟩ := htakes
      · exact get_execute_of_deletes (by rw [hname]; rfl) (popWith_performs _ _ ctx) hlive
          (popAction_deletes _ pops_popFront hv hcount hle) hok
      · exact get_execute_of_deletes (by rw [hname]; rfl) (popWith_performs _ _ ctx) hlive
          (popAction_deletes _ pops_popBack hv hcount hle) hok
  | set set =>
      rw [hv] at htakes
      rcases htakes with ⟨hname, hall⟩ | ⟨hname, count, hcount, hle⟩
      · exact get_execute_of_deletes (by rw [hname]; rfl) (sRemCmd_performs ctx) hlive
          (sRemAction_deletes hv hall) hok
      · exact get_execute_of_deletes (by rw [hname]; rfl) (sPopCmd_performs ctx) hlive
          (sPopAction_deletes ctx.rng hv hcount hle) hok
  | zset sl =>
      rw [hv] at htakes
      obtain ⟨hname, hle⟩ := htakes
      exact get_execute_of_deletes (by rw [hname]; rfl) (zRemCmd_performs ctx) hlive
        (zRemAction_deletes hv hle) hok

end RedisLike
