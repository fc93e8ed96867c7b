import RedisLike.Contents
import RedisLike.Lib.LastWriter
import RedisLike.Command.Effect

/-!
# RedisLike.Command.Cells

Hashes, sets and sorted sets as cells: the value of a field, the presence of a
member, the score of a member.

A `Collection` is one of the three types seen so.  The loops of `HSET`, `HDEL`,
`SADD`, `SREM`, `ZADD` and `ZREM` are last-writer writes to the cells, which
depend on the arguments alone (`lookup_hSetLoop` and the like).
-/

namespace RedisLike

open LastWriter

/-! ## Equivalent entries -/

/-- A value as the commands leave one behind: no empty collection, and no skip
list without its invariant. -/
def ValueVariant.Good : ValueVariant → Prop
  | hash h => h.empty = false
  | set s => s.empty = false
  | zset sl => sl.Valid ∧ sl.size ≠ 0
  | _ => True

theorem ValueVariant.Good.wellFormed {v : ValueVariant} (h : v.Good) : v.WellFormed := by
  cases v with
  | zset sl => exact h.1
  | _ => trivial

/-- A well-formed value with the contents of one that commands leave. -/
theorem ValueVariant.Good.of_same {v v' : ValueVariant} (h : v.Good) (hs : v'.Same v)
    (hw : v'.WellFormed) : v'.Good := by
  cases v <;> cases v'
  case string.string => trivial
  case list.list => trivial
  case hash.hash a a' =>
    refine Bool.eq_false_iff.mpr fun he => Bool.eq_false_iff.mp h ?_
    exact UnorderedMap.empty_iff.mpr fun f => (hs f).symm.trans (UnorderedMap.empty_iff.mp he f)
  case set.set a a' =>
    refine Bool.eq_false_iff.mpr fun he => Bool.eq_false_iff.mp h ?_
    exact UnorderedSet.empty_iff.mpr fun m hm => UnorderedSet.empty_iff.mp he m ((hs m).mpr hm)
  case zset.zset sl sl' =>
    refine ⟨hw, fun hsize => h.2 ?_⟩
    rw [h.1.size_eq_zero_iff, ← hs.2]
    exact (SkipList.Valid.size_eq_zero_iff hw).mp hsize
  all_goals exact hs.elim

/-- The same contents, in values as commands leave them, without a deadline. -/
structure RedisObject.Sim (obj obj' : RedisObject) : Prop where
  same : obj.value.Same obj'.value
  left : obj.value.Good
  right : obj'.value.Good
  permanent : obj.expireAt = none
  permanent' : obj'.expireAt = none

/-- Both missing, or two objects with the same contents. -/
def EntrySim : Option RedisObject → Option RedisObject → Prop := Option.Rel RedisObject.Sim

theorem EntrySim.none : EntrySim none none := Option.Rel.none

theorem EntrySim.permanent {e e' : Option RedisObject} (h : EntrySim e e') :
    Permanent e ∧ Permanent e' := by
  cases h with
  | none => exact ⟨permanent_none, permanent_none⟩
  | some h =>
      refine ⟨fun obj hobj => ?_, fun obj hobj => ?_⟩
      · cases hobj
        exact h.permanent
      · cases hobj
        exact h.permanent'

theorem EntrySim.good {e e' : Option RedisObject} (h : EntrySim e e') :
    ∀ obj, e = some obj → obj.value.Good := by
  cases h with
  | none => simp
  | some h =>
      rintro obj ⟨⟩
      exact h.left

theorem EntrySim.left_refl {e e' : Option RedisObject} (h : EntrySim e e') : EntrySim e e := by
  cases h with
  | none => exact EntrySim.none
  | some h => exact Option.Rel.some ⟨.refl _, h.left, h.left, h.permanent, h.permanent⟩

theorem EntrySim.rel_same {e e' : Option RedisObject} (h : EntrySim e e') :
    Option.Rel RedisObject.Same e' e := by
  cases h with
  | none => exact Option.Rel.none
  | some h =>
      refine Option.Rel.some (RedisObject.same_iff.mpr ⟨h.same.symm, ?_⟩)
      rw [h.permanent, h.permanent']

/-! ## Collections -/

/-- A type of value that is a set of cells. -/
structure Collection (α β : Type) where
  type : ObjType
  as : ValueVariant → Option α
  wrap : α → ValueVariant
  cells : α → Bytes → Option β
  empty : α → Bool
  /-- What `==` on the values of a cell tells apart. -/
  same : β → β → Bool
  /-- The invariant of the representation. -/
  Ok : α → Prop
  as_eq_some : ∀ v a, as v = some a ↔ v = wrap a
  exists_wrap : ∀ v, v.objType = type → ∃ a, v = wrap a
  objType_wrap : ∀ a, (wrap a).objType = type
  same_wrap : ∀ a a', Ok a → Ok a' → ((wrap a).Same (wrap a') ↔ cells a = cells a')
  good_wrap : ∀ a, (wrap a).Good ↔ Ok a ∧ empty a = false
  empty_iff : ∀ a, Ok a → (empty a = true ↔ cells a = fun _ => none)
  same_symm : ∀ x y, same x y = same y x
  same_trans : ∀ x y z, same x y = true → same y z = true → same x z = true

namespace Collection

variable {α β : Type} (C : Collection α β)

/-- What an entry of the type has in its cells: a missing one has nothing, and a
present one something. -/
inductive Holds : Option RedisObject → (Bytes → Option β) → Prop where
  | missing : Holds none fun _ => none
  | present (obj : RedisObject) (a : α) (hvalue : obj.value = C.wrap a) (hok : C.Ok a)
      (hempty : C.empty a = false) (hexpire : obj.expireAt = none) : Holds (some obj) (C.cells a)

variable {C} {e e' : Option RedisObject} {cells : Bytes → Option β}

theorem Holds.permanent (h : C.Holds e cells) : Permanent e := by
  cases h with
  | missing => exact permanent_none
  | present obj a hvalue hok hempty hexpire =>
      rintro obj' ⟨⟩
      exact hexpire

theorem Holds.eq_none_iff (h : C.Holds e cells) : e = none ↔ cells = fun _ => none := by
  cases h with
  | missing => simp
  | present obj a hvalue hok hempty hexpire =>
      rw [← C.empty_iff a hok, hempty]
      simp

theorem Holds.objType_eq {obj : RedisObject} (h : C.Holds (some obj) cells) :
    obj.value.objType = C.type := by
  cases h with
  | present obj a hvalue hok hempty hexpire => rw [hvalue, C.objType_wrap]

/-- An entry has one content. -/
theorem Holds.unique {cells' : Bytes → Option β} (h : C.Holds e cells) (h' : C.Holds e cells') :
    cells = cells' := by
  cases h with
  | missing =>
      cases h' with
      | missing => rfl
  | present obj a hvalue hok hempty hexpire =>
      cases h' with
      | present _ a' hvalue' hok' hempty' hexpire' =>
          have ha : C.as obj.value = some a := (C.as_eq_some _ _).mpr hvalue
          have ha' : C.as obj.value = some a' := (C.as_eq_some _ _).mpr hvalue'
          rw [Option.some.inj (ha.symm.trans ha')]

/-- Entries with the same cells are equivalent. -/
theorem Holds.sim (h : C.Holds e cells) (h' : C.Holds e' cells) : EntrySim e e' := by
  cases h with
  | missing =>
      rw [h'.eq_none_iff.mpr rfl]
      exact EntrySim.none
  | present obj a hvalue hok hempty hexpire =>
      generalize hcells : C.cells a = cells at h'
      cases h' with
      | missing =>
          rw [(C.empty_iff a hok).mpr hcells] at hempty
          contradiction
      | present obj' a' hvalue' hok' hempty' hexpire' =>
          refine Option.Rel.some ⟨?_, ?_, ?_, hexpire, hexpire'⟩
          · rw [hvalue, hvalue']
            exact (C.same_wrap a a' hok hok').mpr hcells
          · rw [hvalue]
            exact (C.good_wrap a).mpr ⟨hok, hempty⟩
          · rw [hvalue']
            exact (C.good_wrap a').mpr ⟨hok', hempty'⟩

/-- Equivalent entries of the type have the same cells. -/
theorem exists_holds (h : EntrySim e e') (htype : ∀ obj, e = some obj → obj.value.objType = C.type) :
    ∃ cells, C.Holds e cells ∧ C.Holds e' cells := by
  cases h with
  | none => exact ⟨_, .missing, .missing⟩
  | @some obj obj' h =>
      have hobj := htype obj rfl
      obtain ⟨a, ha⟩ := C.exists_wrap _ hobj
      obtain ⟨a', ha'⟩ := C.exists_wrap obj'.value (h.same.objType_eq ▸ hobj)
      obtain ⟨hok, hempty⟩ := (C.good_wrap a).mp (ha ▸ h.left)
      obtain ⟨hok', hempty'⟩ := (C.good_wrap a').mp (ha' ▸ h.right)
      have hcells : C.cells a = C.cells a' :=
        (C.same_wrap a a' hok hok').mp (by rw [← ha, ← ha']; exact h.same)
      refine ⟨C.cells a, .present obj a ha hok hempty h.permanent, ?_⟩
      rw [hcells]
      exact .present obj' a' ha' hok' hempty' h.permanent'

variable (C) in
/-- The action is the writes `ws` to the cells of an entry of the type. -/
def Writes (action : KeyAction) (ws : List (Bytes × Option β)) : Prop :=
  ∀ e cells, C.Holds e cells → C.Holds (action.after e) (storeAll C.same cells ws)

theorem writes_idle (reply : Bytes) : C.Writes (.idle reply) [] := fun _ _ h => h

/-- A command that stores. -/
theorem writes_create {fresh : RedisObject} {step : α → Bytes × ValueVariant} {f : α → α}
    {ws : List (Bytes × Option β)} {a₀ : α} (hfresh : fresh = RedisObject.create (C.wrap a₀))
    (hok₀ : C.Ok a₀) (hcells₀ : C.cells a₀ = fun _ => none) (hstep : ∀ a, (step a).2 = C.wrap (f a))
    (hf : ∀ a, C.Ok a → C.Ok (f a) ∧ C.cells (f a) = storeAll C.same (C.cells a) ws)
    (hne : ws ≠ []) (hstore : ∀ w ∈ ws, w.2 ≠ none) :
    C.Writes (.create C.as fresh step) ws := by
  have hafter : ∀ (e : Option RedisObject) (a : α), (e.getD fresh).value = C.wrap a → C.Ok a →
      (e.getD fresh).expireAt = none →
      C.Holds ((KeyAction.create C.as fresh step).after e) (storeAll C.same (C.cells a) ws) := by
    intro e a hvalue hok hexpire
    obtain ⟨hok', hcells'⟩ := hf a hok
    have has : C.as (e.getD fresh).value = some a := (C.as_eq_some _ _).mpr hvalue
    -- there is something in the cell of the last write
    have hempty : C.empty (f a) = false := by
      rw [Bool.eq_false_iff, ne_eq, C.empty_iff _ hok', hcells']
      intro hnone
      obtain ⟨c, hc⟩ := @exists_storeAll_ne_none _ _ C.same _ (C.cells a) ws hne hstore
      exact hc (congrFun hnone c)
    simp only [KeyAction.create, KeyAction.after, has, hstep]
    rw [← hcells']
    exact .present _ (f a) rfl hok' hempty hexpire
  rintro e cells (_ | ⟨obj, a, hvalue, hok, -, hexpire⟩)
  · rw [← hcells₀]
    exact hafter none a₀ (by rw [hfresh]; rfl) hok₀ (by rw [hfresh]; rfl)
  · exact hafter (some obj) a hvalue hok hexpire

/-- A command that takes cells out. -/
theorem writes_remove {absent : Bytes} {step : α → Bytes × ValueVariant × Bool} {f : α → α}
    {ws : List (Bytes × Option β)} (hstep : ∀ a, (step a).2 = (C.wrap (f a), C.empty (f a)))
    (hf : ∀ a, C.Ok a → C.Ok (f a) ∧ C.cells (f a) = storeAll C.same (C.cells a) ws)
    (hclear : ∀ w ∈ ws, w.2 = none) : C.Writes (.remove C.as absent step) ws := by
  rintro e cells (_ | ⟨obj, a, hvalue, hok, -, hexpire⟩)
  · have hnone : storeAll C.same (fun _ => none) ws = fun _ => none :=
      funext fun c => storeAll_clear C.same hclear rfl
    rw [hnone]
    exact .missing
  · obtain ⟨hok', hcells'⟩ := hf a hok
    have has : C.as obj.value = some a := (C.as_eq_some _ _).mpr hvalue
    simp only [KeyAction.remove, KeyAction.after, has, hstep]
    rw [← hcells']
    by_cases hempty : C.empty (f a) = true
    · rw [if_pos hempty, (C.empty_iff _ hok').mp hempty]
      exact .missing
    · rw [if_neg hempty]
      exact .present _ (f a) rfl hok' (by simpa using hempty) hexpire

end Collection

/-! ## Hashes -/

/-- The equality of byte strings. -/
def sameBytes (s t : Bytes) : Bool := decide (s = t)

theorem write_sameBytes (x : Option Bytes) (v : Bytes) : write sameBytes x (some v) = some v := by
  cases x with
  | none => rfl
  | some old => by_cases h : old = v <;> simp [write, sameBytes, h]

theorem lookup_insert_update (h : RedisHash) (field val : Bytes) :
    (h.insert field val).lookup =
      Function.update h.lookup field (write sameBytes (h.lookup field) (some val)) := by
  funext f
  rw [UnorderedMap.lookup_insert_eq, write_sameBytes, Function.update_apply]

theorem lookup_erase_update (h : RedisHash) (field : Bytes) :
    (h.erase field).lookup =
      Function.update h.lookup field (write sameBytes (h.lookup field) none) := by
  funext f
  rw [UnorderedMap.lookup_erase_eq, Function.update_apply]
  rfl

/-- The writes of `HSET`. -/
def fieldWrites : List Bytes → List (Bytes × Option Bytes)
  | field :: val :: rest => (field, some val) :: fieldWrites rest
  | _ => []

theorem ne_none_of_mem_fieldWrites {args : List Bytes} {w : Bytes × Option Bytes}
    (h : w ∈ fieldWrites args) : w.2 ≠ none := by
  fun_induction fieldWrites args with
  | case1 field val rest ih =>
      rcases List.mem_cons.mp h with rfl | h
      · exact Option.some_ne_none val
      · exact ih h
  | case2 => exact absurd h List.not_mem_nil

/-- The writes of `HDEL`, `SREM` and `ZREM`. -/
def clears {β : Type} (members : List Bytes) : List (Bytes × Option β) :=
  members.map fun m => (m, none)

theorem eq_none_of_mem_clears {β : Type} {members : List Bytes} {w : Bytes × Option β}
    (h : w ∈ clears members) : w.2 = none := by
  obtain ⟨m, -, rfl⟩ := List.mem_map.mp h
  rfl

/-- Clearing all that is filled leaves nothing. -/
theorem storeAll_clears {β : Type} {same : β → β → Bool} {cells : Bytes → Option β}
    {members : List Bytes} {c : Bytes} (h : cells c ≠ none → c ∈ members) :
    storeAll same cells (clears members) c = none := by
  by_cases hc : c ∈ members
  · refine storeAll_clear_of_mem same (fun _ => eq_none_of_mem_clears) ?_
    simpa [clears] using hc
  · exact storeAll_clear same (fun _ => eq_none_of_mem_clears) (not_not.mp fun hne => hc (h hne))

theorem lookup_hSetLoop (args : List Bytes) (h : RedisHash) (added : Nat) :
    (hSetLoop args h added).2.lookup = storeAll sameBytes h.lookup (fieldWrites args) := by
  fun_induction hSetLoop args h added with
  | case1 hash added field val rest ih =>
      rw [ih, lookup_insert_update]
      rfl
  | case2 args hash added hargs => simp [fieldWrites, storeAll]

theorem lookup_hDelLoop (args : List Bytes) (h : RedisHash) (count : Nat) :
    (hDelLoop args h count).2.lookup = storeAll sameBytes h.lookup (clears args) := by
  fun_induction hDelLoop args h count with
  | case1 => rfl
  | case2 hash count field rest ih =>
      rw [ih, lookup_erase_update]
      rfl

/-- Hashes: a cell is the value of a field. -/
def hashes : Collection RedisHash Bytes where
  type := .hash
  as := ValueVariant.asHash
  wrap := .hash
  cells := fun h => h.lookup
  empty := fun h => h.empty
  same := sameBytes
  Ok := fun _ => True
  as_eq_some v a := by cases v <;> simp [ValueVariant.asHash]
  exists_wrap v h := by
    cases v with
    | hash a => exact ⟨a, rfl⟩
    | _ => cases h
  objType_wrap _ := rfl
  same_wrap _ _ _ _ := funext_iff.symm
  good_wrap _ := (and_iff_right trivial).symm
  empty_iff _ _ := UnorderedMap.empty_iff.trans funext_iff.symm
  same_symm x y := by simp [sameBytes, eq_comm]
  same_trans x y z hxy hyz := by simp_all [sameBytes]

/-! ## Sets -/

/-- Whether a member is there. -/
def presence (s : RedisSet) (m : Bytes) : Option Unit := if m ∈ s then some () else none

theorem presence_eq_none {s : RedisSet} {m : Bytes} : presence s m = none ↔ m ∉ s := by
  by_cases h : m ∈ s <;> simp [presence, h]

/-- All there is to know of a present member. -/
def samePresence (_ _ : Unit) : Bool := true

theorem presence_insert_update (s : RedisSet) (m : Bytes) :
    presence (s.insert m) =
      Function.update (presence s) m (write samePresence (presence s m) (some ())) := by
  funext x
  rw [Function.update_apply]
  by_cases hx : x = m
  · subst hx
    by_cases hm : x ∈ s <;> simp [presence, hm, write]
  · simp [presence, hx]

theorem presence_erase_update (s : RedisSet) (m : Bytes) :
    presence (s.erase m) =
      Function.update (presence s) m (write samePresence (presence s m) none) := by
  funext x
  rw [Function.update_apply]
  by_cases hx : x = m <;> simp [presence, hx, write]

/-- The writes of `SADD`. -/
def memberWrites (members : List Bytes) : List (Bytes × Option Unit) :=
  members.map fun m => (m, some ())

theorem ne_none_of_mem_memberWrites {members : List Bytes} {w : Bytes × Option Unit}
    (h : w ∈ memberWrites members) : w.2 ≠ none := by
  obtain ⟨m, -, rfl⟩ := List.mem_map.mp h
  exact Option.some_ne_none ()

theorem presence_sAddLoop (args : List Bytes) (s : RedisSet) (added : Nat) :
    presence (sAddLoop args s added).2 = storeAll samePresence (presence s) (memberWrites args) := by
  fun_induction sAddLoop args s added with
  | case1 => rfl
  | case2 set added member rest ih =>
      rw [ih, presence_insert_update]
      rfl

theorem presence_sRemLoop (args : List Bytes) (s : RedisSet) (removed : Nat) :
    presence (sRemLoop args s removed).2 = storeAll samePresence (presence s) (clears args) := by
  fun_induction sRemLoop args s removed with
  | case1 => rfl
  | case2 set removed member rest ih =>
      rw [ih, presence_erase_update]
      rfl

/-- Sets: a cell is the presence of a member. -/
def sets : Collection RedisSet Unit where
  type := .set
  as := ValueVariant.asSet
  wrap := .set
  cells := presence
  empty := fun s => s.empty
  same := samePresence
  Ok := fun _ => True
  as_eq_some v a := by cases v <;> simp [ValueVariant.asSet]
  exists_wrap v h := by
    cases v with
    | set a => exact ⟨a, rfl⟩
    | _ => cases h
  objType_wrap _ := rfl
  same_wrap a a' _ _ := by
    refine Iff.trans (forall_congr' fun m => ?_) funext_iff.symm
    by_cases h : m ∈ a <;> by_cases h' : m ∈ a' <;> simp [presence, h, h']
  good_wrap _ := (and_iff_right trivial).symm
  empty_iff s _ := by
    rw [UnorderedSet.empty_iff, funext_iff]
    exact forall_congr' fun m => by simp [presence]
  same_symm _ _ := rfl
  same_trans _ _ _ _ _ := rfl

/-! ## Sorted sets -/

theorem Double.eq_symm (a b : Double) : a.eq b = b.eq a := by
  simp only [Double.eq]
  rw [Bool.and_comm (!a.isNaN), decide_eq_decide.mpr eq_comm]

theorem Double.eq_trans {a b c : Double} (hab : a.eq b = true) (hbc : b.eq c = true) :
    a.eq c = true := by
  simp only [Double.eq, Bool.and_eq_true, decide_eq_true_eq] at *
  exact ⟨⟨hab.1.1, hbc.1.2⟩, hab.2.trans hbc.2⟩

/-- An `Insert` is a write to the cell of its member. -/
theorem write_eq_keptScore (x : Option Double) (s : Double) :
    write Double.eq x (some s) = some (SkipList.keptScore x s) := by
  cases x with
  | none => rfl
  | some old => rw [write, SkipList.keptScore]; split <;> rfl

/-- The writes of `ZADD`: the pairs up to the first score that is no number. -/
def scoreWrites : List Bytes → List (Bytes × Option Double)
  | score :: member :: rest =>
    match parseDouble score with
    | none => []
    | some s => (member, some s) :: scoreWrites rest
  | _ => []

theorem ne_none_of_mem_scoreWrites {args : List Bytes} {w : Bytes × Option Double}
    (h : w ∈ scoreWrites args) : w.2 ≠ none := by
  fun_induction scoreWrites args with
  | case1 => exact absurd h List.not_mem_nil
  | case2 text member rest s hs ih =>
      rcases List.mem_cons.mp h with rfl | h
      · exact Option.some_ne_none s
      · exact ih h
  | case3 => exact absurd h List.not_mem_nil

/-- No score is a NaN. -/
def NoNaN (writes : List (Bytes × Option Double)) : Prop :=
  ∀ w ∈ writes, ∀ s, w.2 = some s → s.isNaN = false

theorem zAddLoop_spec (rng : Nat → Nat → Nat) (args : List Bytes) (i : Nat) {sl : SkipList}
    (added : Nat) (hv : sl.Valid) (hnan : NoNaN (scoreWrites args)) :
    (zAddLoop rng args i sl added).2.Valid ∧
      (zAddLoop rng args i sl added).2.getScore =
        storeAll Double.eq sl.getScore (scoreWrites args) := by
  fun_induction zAddLoop rng args i sl added with
  | case1 text member rest i sl added hs =>
      simp only [scoreWrites, hs]
      exact ⟨hv, rfl⟩
  | case2 text member rest i sl added score hs existed ih =>
      have hwrites : scoreWrites (text :: member :: rest) =
          (member, some score) :: scoreWrites rest := by simp [scoreWrites, hs]
      rw [hwrites] at hnan ⊢
      have hscore := hnan (member, some score) (by simp) score rfl
      obtain ⟨hvalid, hget⟩ := ih (SkipList.insert_valid hv member _ hscore)
        fun w hw => hnan w (List.mem_cons_of_mem _ hw)
      refine ⟨hvalid, ?_⟩
      rw [hget, SkipList.getScore_insert hv, ← write_eq_keptScore]
      rfl
  | case3 args i sl added hargs => simp [scoreWrites, storeAll, hv]

theorem zRemLoop_spec (args : List Bytes) {sl : SkipList} (removed : Nat) (hv : sl.Valid) :
    (zRemLoop args sl removed).2.Valid ∧
      (zRemLoop args sl removed).2.getScore =
        storeAll Double.eq sl.getScore (clears args) := by
  fun_induction zRemLoop args sl removed with
  | case1 => exact ⟨hv, rfl⟩
  | case2 member rest sl removed r ih =>
      obtain ⟨hvalid, hget⟩ := ih (SkipList.delete_valid hv member)
      refine ⟨hvalid, ?_⟩
      rw [hget, SkipList.getScore_delete hv]
      rfl

/-- Sorted sets: a cell is the score of a member. -/
def sortedSets : Collection SkipList Double where
  type := .zset
  as := ValueVariant.asZSet
  wrap := .zset
  cells := SkipList.getScore
  empty := fun sl => decide (sl.size = 0)
  same := Double.eq
  Ok := SkipList.Valid
  as_eq_some v a := asZSet_eq_some
  exists_wrap v h := by
    cases v with
    | zset a => exact ⟨a, rfl⟩
    | _ => cases h
  objType_wrap _ := rfl
  same_wrap a a' h h' := ⟨fun hsame => hsame.2, SkipList.same_of_getScore_eq h h'⟩
  good_wrap a := and_congr_right fun _ => decide_eq_false_iff_not.symm
  empty_iff a h := decide_eq_true_iff.trans h.size_eq_zero_iff
  same_symm := Double.eq_symm
  same_trans _ _ _ := Double.eq_trans

end RedisLike
