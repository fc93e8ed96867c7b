import RedisLike.SkipList.Delete

/-!
# RedisLike.SkipList.Refine

The skip list refines a map from members to scores.

`Valid` is the invariant for some order of nodes; `insert_valid` and
`delete_valid` keep it, and `getScore_insert` and `getScore_delete` say what
the two calls do to the map.  `run_isOrderedMap` is the refinement over whole
runs, from the empty list and for any outcome of the random levels.

Scores are compared with `==`, which does not tell `-0.0` from `0.0`: an
`Insert` of a score equal to the stored one keeps the stored one, so the list
and the reference map agree up to `==`.
-/

namespace RedisLike

open Chain

namespace SkipList

/-- The skip list is well formed. -/
def Valid (sl : SkipList) : Prop := ∃ nodes, Inv sl nodes

theorem Valid.inv {sl : SkipList} (h : sl.Valid) : Inv sl sl.chain := by
  obtain ⟨nodes, hn⟩ := h
  rw [hn.chain_eq]
  exact hn

/-! ## The operations on the map -/

theorem valid_new : new.Valid := by
  refine ⟨[], ?_⟩
  have hfwd : ∀ i a, new.heap.forward i a = none := by
    intro i a
    unfold Heap.forward Heap.node new
    by_cases ha : a = 0
    · by_cases hi : i < kMaxLevel <;> simp [ha, hi]
    · simp [ha]
  exact
  { nodup := by simp
    alloc := by intro a; simp [new]
    fresh := by intro a ha; simp [new] at ha ⊢; omega
    header_height := by simp [Heap.height, Heap.node, new]
    height := by simp
    notNaN := by simp
    sorted := List.Pairwise.nil
    linked := fun i _ => hfwd i _
    mirrored := by simp [Linked, prev, new]
    level_eq := rfl
    size_eq := rfl
    scores := by intro m s; simp [new] }

theorem delete_of_absent {sl : SkipList} {m : Bytes} (hm : sl.getScore m = none) :
    sl.delete m = (false, sl) := by
  unfold delete
  rw [show sl.scoreMap.lookup m = none from hm]

/-- `Delete` returns true exactly when the member was present. -/
theorem delete_fst {sl : SkipList} (h : sl.Valid) (m : Bytes) :
    (sl.delete m).1 = (sl.getScore m).isSome := by
  cases hs : sl.getScore m with
  | none => rw [delete_of_absent hs]; rfl
  | some s => exact (h.inv.delete_spec hs).1

theorem delete_valid {sl : SkipList} (h : sl.Valid) (m : Bytes) : (sl.delete m).2.Valid := by
  cases hs : sl.getScore m with
  | none => rw [delete_of_absent hs]; exact h
  | some s => exact (h.inv.delete_spec hs).2.2

theorem getScore_delete {sl : SkipList} (h : sl.Valid) (m : Bytes) :
    (sl.delete m).2.getScore = Function.update sl.getScore m none := by
  funext x
  cases hs : sl.getScore m with
  | none =>
      rw [delete_of_absent hs]
      by_cases hx : x = m
      · rw [hx, Function.update_self, hs]
      · rw [Function.update_of_ne hx]
  | some s =>
      rw [getScore, (h.inv.delete_spec hs).2.1, UnorderedMap.lookup_erase_eq]
      by_cases hx : x = m
      · rw [if_pos hx, hx, Function.update_self]
      · rw [if_neg hx, Function.update_of_ne hx, getScore]

theorem getScore_insertNode (sl : SkipList) (score : Double) (member : Bytes) (level : Level)
    (m : Bytes) : (sl.insertNode score member level).getScore m =
      if m = member then some score else sl.getScore m :=
  UnorderedMap.lookup_insert_eq m member score sl.scoreMap

/-- A `Delete` changes no score, also in a list that is not well formed. -/
theorem getScore_of_delete {sl : SkipList} {member m : Bytes} {s : Double}
    (h : (sl.delete member).2.getScore m = some s) : sl.getScore m = some s := by
  have herase : ∀ sl' : SkipList, sl'.scoreMap = sl.scoreMap.erase member →
      sl'.getScore m = some s → sl.getScore m = some s := by
    intro sl' hmap hs
    rw [getScore, hmap, UnorderedMap.lookup_erase_eq] at hs
    split at hs
    · contradiction
    · exact hs
  unfold delete at h
  split at h
  · exact h
  · dsimp only at h
    split at h
    · exact herase _ rfl h
    · split at h
      · exact herase _ rfl h
      · exact herase _ rfl h

/-- Every score is an old one or the new one, also in a list that is not well formed. -/
theorem getScore_of_insert {sl : SkipList} {score : Double} {member : Bytes} {level : Level}
    {m : Bytes} {s : Double} (h : (sl.insert score member level).2.getScore m = some s) :
    (m, s) = (member, score) ∨ sl.getScore m = some s := by
  have hnode : ∀ sl' : SkipList, (sl'.insertNode score member level).getScore m = some s →
      (m, s) = (member, score) ∨ sl'.getScore m = some s := by
    intro sl' hs
    rw [getScore_insertNode] at hs
    split at hs
    · next hm => exact .inl (Prod.ext hm (Option.some.inj hs).symm)
    · exact .inr hs
  unfold insert at h
  split at h
  · split at h
    · exact .inr h
    · exact (hnode _ h).imp_right getScore_of_delete
  · exact hnode _ h

/-- A new member, also in a list that is not well formed. -/
theorem getScore_insert_of_absent {sl : SkipList} {member : Bytes}
    (h : sl.getScore member = none) (score : Double) (level : Level) (m : Bytes) :
    (sl.insert score member level).2.getScore m =
      if m = member then some score else sl.getScore m := by
  rw [insert, show sl.scoreMap.lookup member = none from h]
  exact getScore_insertNode sl score member level m

/-- The score an `Insert` leaves: the stored one, when the new one equals it. -/
def keptScore (old : Option Double) (score : Double) : Double :=
  match old with
  | some old => if old.eq score then old else score
  | none => score

theorem insert_valid {sl : SkipList} (h : sl.Valid) {score : Double} (member : Bytes)
    (level : Level) (hs : score.isNaN = false) : (sl.insert score member level).2.Valid := by
  unfold insert
  cases hm : sl.scoreMap.lookup member with
  | none => exact h.inv.insertNode_spec level hs hm
  | some old =>
      simp only
      split
      · exact h
      · refine (delete_valid h member).inv.insertNode_spec level hs ?_
        have := congrFun (getScore_delete h member) member
        rwa [Function.update_self, getScore] at this

theorem getScore_insert {sl : SkipList} (h : sl.Valid) (score : Double) (member : Bytes)
    (level : Level) :
    (sl.insert score member level).2.getScore =
      Function.update sl.getScore member (some (keptScore (sl.getScore member) score)) := by
  funext x
  have hm : sl.scoreMap.lookup member = sl.getScore member := rfl
  unfold insert
  rw [hm]
  cases hs : sl.getScore member with
  | none =>
      simp only [getScore_insertNode, keptScore]
      by_cases hx : x = member
      · rw [if_pos hx, hx, Function.update_self]
      · rw [if_neg hx, Function.update_of_ne hx]
  | some old =>
      simp only [keptScore]
      by_cases ho : old.eq score = true
      · simp only [ho, if_true]
        by_cases hx : x = member
        · rw [hx, Function.update_self, hs]
        · rw [Function.update_of_ne hx]
      · have hn := getScore_insertNode (sl.delete member).2 score member level x
        rw [getScore_delete h] at hn
        simp only [ho, Bool.false_eq_true, if_false]
        by_cases hx : x = member
        · rw [hn, if_pos hx, hx, Function.update_self]
        · rw [hn, if_neg hx, Function.update_of_ne hx, Function.update_of_ne hx]

theorem next_delete (sl : SkipList) (m : Bytes) : (sl.delete m).2.next = sl.next := by
  unfold delete
  split
  · rfl
  · dsimp only
    split
    · rfl
    · split <;> rfl

/-- `Insert` links a new node, unless the member has that score. -/
theorem insert_spec (sl : SkipList) (score : Double) (m : Bytes) (level : Level) :
    (∃ old, sl.getScore m = some old ∧ old.eq score = true) ∧
        (sl.insert score m level).2 = sl ∨
      (¬ ∃ old, sl.getScore m = some old ∧ old.eq score = true) ∧
        (sl.insert score m level).2.next = sl.next + 1 := by
  have hm : sl.scoreMap.lookup m = sl.getScore m := rfl
  unfold insert
  rw [hm]
  cases hs : sl.getScore m with
  | none => exact .inr ⟨by simp, rfl⟩
  | some old =>
      by_cases ho : old.eq score = true
      · exact .inl ⟨⟨old, rfl, ho⟩, by simp [ho]⟩
      · refine .inr ⟨by simpa using ho, ?_⟩
        simp only [ho, Bool.false_eq_true, if_false]
        exact congrArg (· + 1) (next_delete sl m)

/-! ## Range queries -/

/-- `RangeByScore` returns the nodes with a score in the range, in order. -/
theorem Inv.rangeByScore_eq {sl : SkipList} {nodes : List Addr} (h : Inv sl nodes)
    {min max : Double} (hmin : min.isNaN = false) (hmax : max.isNaN = false) :
    sl.rangeByScore min max =
      (nodes.filter fun a => min.le (sl.heap.node a).score && (sl.heap.node a).score.le max).map
        fun a => (sl.heap.node a).member := by
  have hord : nodes.Pairwise fun a b =>
      (sl.heap.node a).score.ord ≤ (sl.heap.node b).score.ord ∧
        (sl.heap.node a).score.isNaN = false ∧ (sl.heap.node b).score.isNaN = false := by
    refine h.sorted.imp_of_mem fun {a b} ha hb hlt => ?_
    refine ⟨?_, h.notNaN a ha, h.notNaN b hb⟩
    have := Prod.Lex.lt_iff.mp hlt
    simp only [Heap.key, ofLex_toLex] at this
    omega
  have hdrop := (takeWhile_eq_filter (p := fun a => (sl.heap.node a).score.lt min) hord (by
    rintro a b ⟨hle, ha, hb⟩ hp
    rw [Double.lt_eq hb hmin, decide_eq_true_eq] at hp
    rw [Double.lt_eq ha hmin, decide_eq_true_eq]
    omega)).2
  have htake := (takeWhile_eq_filter (p := fun a => (sl.heap.node a).score.le max)
    (hord.filter fun a => !(sl.heap.node a).score.lt min) (by
      rintro a b ⟨hle, ha, hb⟩ hp
      rw [Double.le_eq hb hmax, decide_eq_true_eq] at hp
      rw [Double.le_eq ha hmax, decide_eq_true_eq]
      omega)).1
  unfold rangeByScore
  rw [h.chain_eq, hdrop, htake, List.filter_filter]
  refine congrArg _ (List.filter_congr fun a ha => ?_)
  have hn := h.notNaN a ha
  rw [Double.lt_eq hn hmin, Double.le_eq hn hmax, Double.le_eq hmin hn, Bool.and_comm,
    ← decide_not]
  simp only [not_lt]

/-! ## The refinement -/

/-- The chain of one level, from the header. -/
def levelChain (sl : SkipList) (i : Nat) : List Addr :=
  Chain.follow (sl.heap.forward i) sl.next (sl.heap.forward i sl.header)

/-- The chain along the backward pointers, from `tail_`. -/
def backwardChain (sl : SkipList) : List Addr :=
  Chain.follow (fun a => (sl.heap.node a).backward) sl.next sl.tail

/-- `(s, m)` comes before `(s', m')`. -/
def Before (s : Double) (m : Bytes) (s' : Double) (m' : Bytes) : Prop :=
  s.lt s' = true ∨ s.eq s' = true ∧ m < m'

/-- The order of the pairs. -/
def itemKey (p : Bytes × Double) : Lex (Int × Bytes) := toLex (p.2.ord, p.1)

/-- The order of the pairs is that of their keys. -/
theorem before_iff {s s' : Double} (hs : s.isNaN = false) (hs' : s'.isNaN = false)
    (m m' : Bytes) : Before s m s' m' ↔ itemKey (m, s) < itemKey (m', s') := by
  rw [Before, Double.lt_eq hs hs', Double.eq_eq hs hs', itemKey, itemKey, Prod.Lex.lt_iff]
  simp

/-- **A finite map ordered by `(score, member)`**: the list holds the pairs of
`map`, in order, and its levels, counters and backward pointers agree. -/
structure IsOrderedMap (sl : SkipList) (map : Bytes → Option Double) : Prop where
  /-- The level-0 chain lists the pairs of `score_map_`, each member once. -/
  chain_scores : ∀ m s, (∃ a ∈ sl.chain, (sl.heap.node a).member = m ∧
    (sl.heap.node a).score = s) ↔ sl.scoreMap.lookup m = some s
  chain_members : (sl.chain.map fun a => (sl.heap.node a).member).Nodup
  chain_sorted : sl.chain.Pairwise fun a b => Before (sl.heap.node a).score
    (sl.heap.node a).member (sl.heap.node b).score (sl.heap.node b).member
  /-- The chain of a level is that of the nodes higher than it. -/
  levels : ∀ i < kMaxLevel, sl.levelChain i = sl.chain.filter fun a => i < sl.heap.height a
  /-- `level_` is the greatest height, 1 for an empty list. -/
  level_ge : ∀ a ∈ sl.chain, sl.heap.height a ≤ sl.level
  level_mem : sl.chain ≠ [] → ∃ a ∈ sl.chain, sl.heap.height a = sl.level
  level_empty : sl.chain = [] → sl.level = 1
  backward : sl.backwardChain = sl.chain.reverse
  size_eq : sl.size = sl.chain.length
  /-- The list and `map` have the same members, with equal scores. -/
  contents : ∀ m, Option.Rel (fun s s' : Double => s.eq s' = true) (sl.getScore m) (map m)

/-- The order of the nodes, in terms of the comparisons of the language. -/
theorem Inv.before {sl : SkipList} {nodes : List Addr} (h : Inv sl nodes) :
    nodes.Pairwise fun a b => Before (sl.heap.node a).score
      (sl.heap.node a).member (sl.heap.node b).score (sl.heap.node b).member := by
  refine h.sorted.imp_of_mem fun {a b} ha hb hlt => ?_
  rw [before_iff (h.notNaN a ha) (h.notNaN b hb)]
  exact hlt

theorem Inv.nodup_members {sl : SkipList} {nodes : List Addr} (h : Inv sl nodes) :
    (nodes.map fun a => (sl.heap.node a).member).Nodup :=
  (List.nodup_cons.mp h.nodup).2.map_on fun _ ha _ hb hm => h.eq_of_member ha hb hm

theorem Inv.backwardChain_eq {sl : SkipList} {nodes : List Addr} (h : Inv sl nodes) :
    sl.backwardChain = nodes.reverse := by
  have hlen := h.length_le
  have hm := h.mirrored
  have hne : ∀ a ∈ nodes.reverse, a ≠ sl.header := by
    rintro a ha rfl
    exact h.header_notMem (List.mem_reverse.mp ha)
  rw [← List.length_reverse] at hlen
  have htail : sl.prev sl.header = sl.tail := if_pos rfl
  have hback : ∀ a, a ≠ sl.header → sl.prev a = (sl.heap.node a).backward := fun a ha => if_neg ha
  unfold backwardChain
  cases hr : nodes.reverse with
  | nil =>
      rw [hr] at hm
      rw [← htail, show sl.prev sl.header = none from hm]
      cases sl.next <;> rfl
  | cons b l =>
      rw [hr] at hm hne hlen
      have hl : Linked (fun a => (sl.heap.node a).backward) b l :=
        hm.2.congr fun x hx => (hback x (hne x hx)).symm
      cases hn : sl.next with
      | zero => rw [hn] at hlen; simp at hlen
      | succ n =>
          rw [hn, List.length_cons] at hlen
          rw [← htail, hm.1, follow, follow_eq hl (by omega)]

/-- A valid list is an ordered map of its own scores, and of any equal ones. -/
theorem Valid.isOrderedMap {sl : SkipList} (h : sl.Valid) {map : Bytes → Option Double}
    (hc : ∀ m, Option.Rel (fun s s' : Double => s.eq s' = true) (sl.getScore m) (map m)) :
    sl.IsOrderedMap map := by
  have hi := h.inv
  exact
  { chain_scores := fun m s => (hi.scores m s).symm
    chain_members := hi.nodup_members
    chain_sorted := hi.before
    levels := by
      intro i hlt
      have hlen : (sl.onLevel i sl.chain).length ≤ sl.next :=
        (List.length_filter_le _ _).trans hi.length_le
      exact follow_eq (hi.linked i hlt) hlen
    level_ge := fun a ha => hi.height_le_level ha
    level_mem := by
      intro hne
      rcases foldr_max_mem (sl.chain.map sl.heap.height) with he | hm
      · obtain ⟨a, ha⟩ := List.exists_mem_of_ne_nil _ hne
        refine ⟨a, ha, ?_⟩
        have h1 := (hi.height a ha).1
        have h2 := hi.height_le_level ha
        have h3 := hi.level_eq
        omega
      · obtain ⟨a, ha, hae⟩ := List.mem_map.mp hm
        exact ⟨a, ha, by rw [hae, hi.level_eq]⟩
    level_empty := by intro he; rw [hi.level_eq, he]; rfl
    backward := hi.backwardChain_eq
    size_eq := hi.size_eq
    contents := hc }

/-! ## Contents -/

/-- The pairs along the level-0 chain. -/
def items (sl : SkipList) : List (Bytes × Double) :=
  sl.chain.map fun a => ((sl.heap.node a).member, (sl.heap.node a).score)

theorem Valid.mem_items {sl : SkipList} (h : sl.Valid) {m : Bytes} {s : Double} :
    (m, s) ∈ sl.items ↔ sl.getScore m = some s := by
  rw [getScore, h.inv.scores m s]
  simp [items]

/-- An empty list is one without scores. -/
theorem Valid.size_eq_zero_iff {sl : SkipList} (h : sl.Valid) :
    sl.size = 0 ↔ sl.getScore = fun _ => none := by
  have hsize : sl.size = sl.items.length := by rw [h.inv.size_eq, items, List.length_map]
  rw [hsize, List.length_eq_zero_iff, List.eq_nil_iff_forall_not_mem]
  constructor
  · intro hnil
    funext m
    by_contra hne
    obtain ⟨s, hs⟩ := Option.ne_none_iff_exists'.mp hne
    exact hnil (m, s) (h.mem_items.mpr hs)
  · intro hnone p hp
    have := h.mem_items.mp hp
    rw [hnone] at this
    contradiction

theorem map_fst_items (sl : SkipList) :
    sl.items.map Prod.fst = sl.chain.map fun a => (sl.heap.node a).member := by
  simp [items]

theorem Valid.nodup_members {sl : SkipList} (h : sl.Valid) : (sl.items.map Prod.fst).Nodup := by
  rw [map_fst_items]
  exact h.inv.nodup_members

theorem Valid.items_sorted {sl : SkipList} (h : sl.Valid) :
    sl.items.Pairwise fun p q => itemKey p < itemKey q :=
  List.pairwise_map.mpr h.inv.sorted

/-- The scores determine the contents of a valid list. -/
theorem Valid.items_eq {sl sl' : SkipList} (h : sl.Valid) (h' : sl'.Valid)
    (hs : sl.getScore = sl'.getScore) : sl.items = sl'.items := by
  have : Std.Irrefl fun p q : Bytes × Double => itemKey p < itemKey q := ⟨fun p => lt_irrefl _⟩
  have : Std.Asymm fun p q : Bytes × Double => itemKey p < itemKey q := ⟨fun p q => lt_asymm⟩
  refine h.items_sorted.eq_of_mem_iff h'.items_sorted fun p => ?_
  rw [h.mem_items, h'.mem_items, hs]

/-- The members of all ranks are those of the chain. -/
theorem Valid.rangeByRank_all {sl : SkipList} (h : sl.Valid) :
    sl.rangeByRank 0 ((sl.size : Int) - 1) = sl.items.map Prod.fst := by
  have hsize : sl.size = sl.chain.length := h.inv.size_eq
  rw [map_fst_items, rangeByRank]
  cases hc : sl.chain with
  | nil =>
      rw [hc, List.length_nil] at hsize
      simp [hsize]
  | cons a l =>
      rw [hc, List.length_cons] at hsize
      have hstop : ¬ ((sl.size : Int) - 1 < 0) := by omega
      have hcount : ((sl.size : Int) - 1 - 0 + 1).toNat = (a :: l).length := by
        rw [List.length_cons]; omega
      simp only [lt_irrefl, if_false, hstop, Int.toNat_zero, List.drop_zero, hcount,
        List.take_length]

/-- A range is a part of the chain. -/
theorem rangeByRank_sublist (sl : SkipList) (start stop : Int) :
    (sl.rangeByRank start stop).Sublist (sl.items.map Prod.fst) := by
  rw [map_fst_items]
  unfold rangeByRank
  extract_lets first last first'
  split
  · exact List.nil_sublist _
  · split
    · exact List.nil_sublist _
    · exact ((List.take_sublist _ _).trans (List.drop_sublist _ _)).map _

/-! ## Runs -/

/-- A call that changes the list, with the outcome of its `RandomLevel()`. -/
inductive Call where
  | insert (score : { s : Double // s.isNaN = false }) (member : Bytes) (level : Level)
  | delete (member : Bytes)

/-- The list after a call. -/
def step (sl : SkipList) : Call → SkipList
  | .insert score member level => (sl.insert score.1 member level).2
  | .delete member => (sl.delete member).2

/-- The list after a sequence of calls, from the empty list. -/
def run (calls : List Call) : SkipList := calls.foldl step new

/-- The reference map after a call: `Insert` sets the score of the member,
`Delete` removes the member. -/
def referenceStep (map : Bytes → Option Double) : Call → Bytes → Option Double
  | .insert score member _ => Function.update map member (some score.1)
  | .delete member => Function.update map member none

/-- The reference map after a sequence of calls. -/
def reference (calls : List Call) : Bytes → Option Double :=
  calls.foldl referenceStep fun _ => none

theorem eq_keptScore {score : Double} (hs : score.isNaN = false) (old : Option Double) :
    (keptScore old score).eq score = true := by
  cases old with
  | none => simp [keptScore, Double.eq_eq hs hs]
  | some old =>
      rw [keptScore]
      split
      · assumption
      · simp [Double.eq_eq hs hs]

/-- What one call preserves. -/
theorem step_refines {sl : SkipList} {map : Bytes → Option Double} (call : Call)
    (h : sl.Valid)
    (hc : ∀ m, Option.Rel (fun s s' : Double => s.eq s' = true) (sl.getScore m) (map m)) :
    (step sl call).Valid ∧ ∀ m, Option.Rel (fun s s' : Double => s.eq s' = true)
      ((step sl call).getScore m) (referenceStep map call m) := by
  cases call with
  | insert score member level =>
      refine ⟨insert_valid h member level score.2, fun m => ?_⟩
      rw [step, getScore_insert h, referenceStep]
      by_cases hm : m = member
      · subst hm
        rw [Function.update_self, Function.update_self]
        exact Option.Rel.some (eq_keptScore score.2 _)
      · rw [Function.update_of_ne hm, Function.update_of_ne hm]
        exact hc m
  | delete member =>
      refine ⟨delete_valid h member, fun m => ?_⟩
      rw [step, getScore_delete h, referenceStep]
      by_cases hm : m = member
      · subst hm
        rw [Function.update_self, Function.update_self]
        exact Option.Rel.none
      · rw [Function.update_of_ne hm, Function.update_of_ne hm]
        exact hc m

/-- What a run preserves. -/
theorem run_refines (calls : List Call) :
    (run calls).Valid ∧ ∀ m, Option.Rel (fun s s' : Double => s.eq s' = true)
      ((run calls).getScore m) (reference calls m) := by
  induction calls using List.reverseRecOn with
  | nil => exact ⟨valid_new, fun _ => Option.Rel.none⟩
  | append_singleton calls call ih =>
      rw [run, reference, List.foldl_append, List.foldl_append]
      exact step_refines call ih.1 ih.2

/-- `RangeByScore` against a map with equal scores: the members with a score in
the range, in order. -/
theorem Valid.rangeByScore_spec {sl : SkipList} (h : sl.Valid) {map : Bytes → Option Double}
    (hc : ∀ m, Option.Rel (fun s s' : Double => s.eq s' = true) (sl.getScore m) (map m))
    {min max : Double} (hmin : min.isNaN = false) (hmax : max.isNaN = false) :
    (∀ m, m ∈ sl.rangeByScore min max ↔
      ∃ s, map m = some s ∧ min.le s = true ∧ s.le max = true) ∧
    (sl.rangeByScore min max).Pairwise fun m m' =>
      ∃ s s', map m = some s ∧ map m' = some s' ∧ Before s m s' m' := by
  have hi := h.inv
  -- a node, with the score of its member in `map`
  have hnode : ∀ a ∈ sl.chain, ∃ s, map (sl.heap.node a).member = some s ∧
      s.isNaN = false ∧ (sl.heap.node a).score.ord = s.ord := by
    intro a ha
    have hs := (hi.scores (sl.heap.node a).member (sl.heap.node a).score).mpr ⟨a, ha, rfl, rfl⟩
    have hr := hc (sl.heap.node a).member
    rw [getScore, hs] at hr
    cases hm : map (sl.heap.node a).member with
    | none => rw [hm] at hr; cases hr
    | some s =>
        rw [hm] at hr
        cases hr with
        | some heq =>
            simp only [Double.eq, Bool.and_eq_true, Bool.not_eq_true', decide_eq_true_eq] at heq
            exact ⟨s, rfl, heq.1.2, heq.2⟩
  have hrange : ∀ a ∈ sl.chain, ∀ s, s.isNaN = false → (sl.heap.node a).score.ord = s.ord →
      ((min.le (sl.heap.node a).score && (sl.heap.node a).score.le max) = true ↔
        min.le s = true ∧ s.le max = true) := by
    intro a ha s hs ho
    have hn := hi.notNaN a ha
    rw [Bool.and_eq_true, Double.le_eq hmin hn, Double.le_eq hn hmax, Double.le_eq hmin hs,
      Double.le_eq hs hmax, ho]
  rw [hi.rangeByScore_eq hmin hmax]
  constructor
  · intro m
    simp only [List.mem_map, List.mem_filter]
    constructor
    · rintro ⟨a, ⟨ha, hin⟩, rfl⟩
      obtain ⟨s, hs, hnan, ho⟩ := hnode a ha
      exact ⟨s, hs, (hrange a ha s hnan ho).mp hin⟩
    · rintro ⟨s, hs, hin⟩
      have hr := hc m
      rw [hs] at hr
      cases hg : sl.getScore m with
      | none => rw [hg] at hr; cases hr
      | some s' =>
          obtain ⟨a, ha, rfl, rfl⟩ := (hi.scores m s').mp hg
          obtain ⟨s'', hs'', hnan, ho⟩ := hnode a ha
          rw [hs] at hs''
          cases Option.some.inj hs''
          exact ⟨a, ⟨ha, (hrange a ha s hnan ho).mpr hin⟩, rfl⟩
  · refine List.pairwise_map.mpr ?_
    refine (hi.before.filter _).imp_of_mem fun {a b} ha hb hlt => ?_
    have ha' := List.mem_of_mem_filter ha
    have hb' := List.mem_of_mem_filter hb
    obtain ⟨s, hs, hnan, ho⟩ := hnode a ha'
    obtain ⟨s', hs', hnan', ho'⟩ := hnode b hb'
    refine ⟨s, s', hs, hs', ?_⟩
    rw [Before, Double.lt_eq (hi.notNaN a ha') (hi.notNaN b hb'),
      Double.eq_eq (hi.notNaN a ha') (hi.notNaN b hb'), ho, ho'] at hlt
    rwa [Before, Double.lt_eq hnan hnan', Double.eq_eq hnan hnan']

/-- **The skip list implements an ordered map.**  After any calls, the list is
the ordered map of the reference, the next `Delete` answers whether the member
is present, and `GetScore` and `RangeByScore` answer as the reference does. -/
theorem run_isOrderedMap (calls : List Call) :
    (run calls).IsOrderedMap (reference calls) ∧
    (∀ m, ((run calls).delete m).1 = (reference calls m).isSome) ∧
    (∀ m, Option.Rel (fun s s' : Double => s.eq s' = true)
      ((run calls).getScore m) (reference calls m)) ∧
    ∀ min max : { s : Double // s.isNaN = false },
      (∀ m, m ∈ (run calls).rangeByScore min.1 max.1 ↔ ∃ s, reference calls m = some s ∧
        min.1.le s = true ∧ s.le max.1 = true) ∧
      ((run calls).rangeByScore min.1 max.1).Pairwise fun m m' => ∃ s s',
        reference calls m = some s ∧ reference calls m' = some s' ∧ Before s m s' m' := by
  obtain ⟨hv, hc⟩ := run_refines calls
  refine ⟨hv.isOrderedMap hc, fun m => ?_, hc,
    fun min max => hv.rangeByScore_spec hc min.2 max.2⟩
  rw [delete_fst hv]
  have := hc m
  revert this
  cases (run calls).getScore m <;> cases reference calls m <;> rintro ⟨⟩ <;> rfl

end SkipList

end RedisLike
