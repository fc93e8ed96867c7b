import RedisLike.SkipList.Basic

/-!
# RedisLike.SkipList.Invariant

The invariant of the skip list, and what a search finds under it.

`Inv sl nodes` says that `nodes` are the nodes of the list in the order of
`(score, member)`, that the chain of every level is the sublist of the nodes
tall enough for it, and that the counters, the backward pointers and
`score_map_` agree with them.  `findUpdate_eq` is the search lemma: `update[i]`
is the last node on level `i` before the place of `(score, member)`.
-/

namespace RedisLike

open Chain

namespace Heap

/-- Place of a node in the order by score, then by member. -/
def key (h : Heap) (a : Addr) : Int ×ₗ Bytes := toLex ((h.node a).score.ord, (h.node a).member)

/-- Number of levels a node is linked on. -/
def height (h : Heap) (a : Addr) : Nat := (h.node a).forward.length

end Heap

namespace SkipList

/-- The backward pointer, `tail_` being the one of the header. -/
def prev (sl : SkipList) (a : Addr) : Option Addr :=
  if a = sl.header then sl.tail else (sl.heap.node a).backward

/-- The nodes of `l` that are linked on level `i`. -/
def onLevel (sl : SkipList) (i : Nat) (l : List Addr) : List Addr :=
  l.filter fun a => i < sl.heap.height a

/-- The test of the first loop of a search. -/
def scoreBefore (sl : SkipList) (score : Double) (a : Addr) : Bool :=
  (sl.heap.node a).score.lt score

/-- The test of the second loop of a search. -/
def memberBefore (sl : SkipList) (score : Double) (member : Bytes) (a : Addr) : Bool :=
  (sl.heap.node a).score.eq score && (sl.heap.node a).member < member

/-- **The skip-list invariant**: `nodes` are the nodes of the list, in order. -/
structure Inv (sl : SkipList) (nodes : List Addr) : Prop where
  nodup : (sl.header :: nodes).Nodup
  alloc : ∀ a, (sl.heap a).isSome ↔ a ∈ sl.header :: nodes
  fresh : ∀ a ∈ sl.header :: nodes, a < sl.next
  header_height : sl.heap.height sl.header = kMaxLevel
  height : ∀ a ∈ nodes, 1 ≤ sl.heap.height a ∧ sl.heap.height a ≤ kMaxLevel
  notNaN : ∀ a ∈ nodes, (sl.heap.node a).score.isNaN = false
  sorted : nodes.Pairwise fun a b => sl.heap.key a < sl.heap.key b
  linked : ∀ i < kMaxLevel, Linked (sl.heap.forward i) sl.header (sl.onLevel i nodes)
  mirrored : Linked sl.prev sl.header nodes.reverse
  level_eq : sl.level = (nodes.map sl.heap.height).foldr max 1
  size_eq : sl.size = nodes.length
  scores : ∀ m s, sl.scoreMap.lookup m = some s ↔
    ∃ a ∈ nodes, (sl.heap.node a).member = m ∧ (sl.heap.node a).score = s

/-! ## The greatest height -/

theorem one_le_foldr_max (l : List Nat) : 1 ≤ l.foldr max 1 := by
  induction l with
  | nil => exact le_refl 1
  | cons x l ih => exact ih.trans (le_max_right x _)

theorem le_foldr_max {x : Nat} {l : List Nat} (hx : x ∈ l) : x ≤ l.foldr max 1 := by
  induction l with
  | nil => simp at hx
  | cons y l ih =>
      rcases List.mem_cons.mp hx with rfl | hl
      · exact le_max_left _ _
      · exact (ih hl).trans (le_max_right y _)

theorem foldr_max_mem (l : List Nat) : l.foldr max 1 = 1 ∨ l.foldr max 1 ∈ l := by
  induction l with
  | nil => exact Or.inl rfl
  | cons x l ih =>
      rw [List.foldr_cons]
      rcases le_total x (l.foldr max 1) with hx | hx
      · rw [max_eq_right hx]
        exact ih.imp id (List.mem_cons_of_mem x)
      · rw [max_eq_left hx]
        exact Or.inr (by simp)

theorem foldr_max_insert (l₁ l₂ : List Nat) (x : Nat) :
    (l₁ ++ x :: l₂).foldr max 1 = max ((l₁ ++ l₂).foldr max 1) x := by
  induction l₁ with
  | nil => simp [max_comm]
  | cons y l₁ ih => simp only [List.cons_append, List.foldr_cons, ih, max_assoc]

namespace Inv

variable {sl : SkipList} {nodes pre post : List Addr}

theorem header_notMem (h : Inv sl nodes) : sl.header ∉ nodes := (List.nodup_cons.mp h.nodup).1

/-- No chain is longer than the number of addresses handed out. -/
theorem length_le (h : Inv sl nodes) : nodes.length ≤ sl.next := by
  have hsub : nodes ⊆ List.range sl.next := fun a ha =>
    List.mem_range.mpr (h.fresh a (List.mem_cons_of_mem _ ha))
  have := (List.nodup_cons.mp h.nodup).2.subperm hsub |>.length_le
  simpa using this

/-- Every node is on level 0. -/
theorem onLevel_zero (h : Inv sl nodes) {l : List Addr} (hl : l ⊆ nodes) :
    sl.onLevel 0 l = l := by
  rw [onLevel, List.filter_eq_self]
  intro a ha
  exact decide_eq_true (h.height a (hl ha)).1

/-- A walk along level 0 visits the nodes of the invariant. -/
theorem chain_eq (h : Inv sl nodes) : sl.chain = nodes := by
  have hl := h.linked 0 (by decide)
  rw [h.onLevel_zero (List.Subset.refl nodes)] at hl
  exact follow_eq hl h.length_le

theorem level_pos (h : Inv sl nodes) : 1 ≤ sl.level := by
  rw [h.level_eq]
  exact one_le_foldr_max _

theorem height_le_level (h : Inv sl nodes) {a : Addr} (ha : a ∈ nodes) :
    sl.heap.height a ≤ sl.level := by
  rw [h.level_eq]
  exact le_foldr_max (List.mem_map_of_mem ha)

theorem level_le (h : Inv sl nodes) : sl.level ≤ kMaxLevel := by
  rw [h.level_eq]
  rcases foldr_max_mem (nodes.map sl.heap.height) with he | hm
  · rw [he]; decide
  · obtain ⟨a, ha, hae⟩ := List.mem_map.mp hm
    rw [← hae]
    exact (h.height a ha).2

/-- The place in the order determines the node. -/
theorem eq_of_key (h : Inv sl nodes) {a b : Addr} (ha : a ∈ nodes) (hb : b ∈ nodes)
    (hk : sl.heap.key a = sl.heap.key b) : a = b := by
  by_contra hne
  have hp : nodes.Pairwise fun a b => sl.heap.key a ≠ sl.heap.key b :=
    h.sorted.imp fun hlt => hlt.ne
  have : Std.Symm fun a b => sl.heap.key a ≠ sl.heap.key b := ⟨fun _ _ hxy => hxy.symm⟩
  exact hp.forall ha hb hne hk

/-- No two nodes have the same member. -/
theorem eq_of_member (h : Inv sl nodes) {a b : Addr} (ha : a ∈ nodes) (hb : b ∈ nodes)
    (hm : (sl.heap.node a).member = (sl.heap.node b).member) : a = b := by
  have hsa := (h.scores (sl.heap.node a).member (sl.heap.node a).score).mpr ⟨a, ha, rfl, rfl⟩
  have hsb := (h.scores (sl.heap.node a).member (sl.heap.node b).score).mpr ⟨b, hb, hm.symm, rfl⟩
  have hs : (sl.heap.node a).score = (sl.heap.node b).score :=
    Option.some.inj (hsa.symm.trans hsb)
  exact h.eq_of_key ha hb (by rw [Heap.key, Heap.key, hs, hm])

/-- Above `level_` every chain is empty. -/
theorem onLevel_of_level_le (h : Inv sl nodes) {i : Nat} (hi : sl.level ≤ i) :
    sl.onLevel i nodes = [] := by
  rw [onLevel, List.filter_eq_nil_iff]
  intro a ha
  have := h.height_le_level ha
  simp; omega

/-- The nodes split at every place of the order. -/
theorem exists_split (h : Inv sl nodes) (k : Int ×ₗ Bytes) :
    ∃ pre post, nodes = pre ++ post ∧ (∀ a ∈ pre, sl.heap.key a < k) ∧
      ∀ a ∈ post, ¬ sl.heap.key a < k := by
  have hs := h.sorted
  clear h
  induction nodes with
  | nil => exact ⟨[], [], rfl, by simp, by simp⟩
  | cons b l ih =>
      obtain ⟨hb, hl⟩ := List.pairwise_cons.mp hs
      by_cases hk : sl.heap.key b < k
      · obtain ⟨pre, post, rfl, hpre, hpost⟩ := ih hl
        exact ⟨b :: pre, post, rfl, by simpa [hk] using hpre, hpost⟩
      · refine ⟨[], b :: l, rfl, by simp, fun a ha => ?_⟩
        rcases List.mem_cons.mp ha with rfl | ha'
        · exact hk
        · exact fun hlt => hk ((hb a ha').trans hlt)

/-- The successor on level `i` of the last node before a place. -/
theorem forward_pred (h : Inv sl (pre ++ post)) {i : Nat} (hi : i < kMaxLevel) :
    sl.heap.forward i ((sl.onLevel i pre).getLastD sl.header) = (sl.onLevel i post).head? := by
  have hl := h.linked i hi
  rw [onLevel, List.filter_append] at hl
  exact hl.next_getLastD

/-! ## The search -/

section search

variable {score : Double} {member : Bytes}

theorem scoreBefore_iff (h : Inv sl nodes) (hs : score.isNaN = false) {a : Addr} (ha : a ∈ nodes) :
    sl.scoreBefore score a = true ↔ (sl.heap.node a).score.ord < score.ord := by
  rw [scoreBefore, Double.lt_eq (h.notNaN a ha) hs, decide_eq_true_iff]

theorem memberBefore_iff (h : Inv sl nodes) (hs : score.isNaN = false) {a : Addr}
    (ha : a ∈ nodes) : sl.memberBefore score member a = true ↔
      (sl.heap.node a).score.ord = score.ord ∧ (sl.heap.node a).member < member := by
  rw [memberBefore, Double.eq_eq (h.notNaN a ha) hs, Bool.and_eq_true, decide_eq_true_iff,
    decide_eq_true_iff]

/-- The two loops together pass the nodes before a place. -/
theorem key_lt_iff (h : Inv sl nodes) (hs : score.isNaN = false) {a : Addr} (ha : a ∈ nodes) :
    sl.heap.key a < toLex (score.ord, member) ↔
      sl.scoreBefore score a = true ∨ sl.memberBefore score member a = true := by
  rw [h.scoreBefore_iff hs ha, h.memberBefore_iff hs ha]
  exact Prod.Lex.lt_iff

/-- Along the nodes, the first loop stops once. -/
theorem pairwise_scoreBefore (h : Inv sl nodes) (hs : score.isNaN = false) {l : List Addr}
    (hl : l.Sublist nodes) :
    l.Pairwise fun a b => sl.scoreBefore score b = true → sl.scoreBefore score a = true := by
  refine (h.sorted.sublist hl).imp_of_mem fun {a b} ha hb hlt hb' => ?_
  rw [h.scoreBefore_iff hs (hl.subset hb)] at hb'
  rw [h.scoreBefore_iff hs (hl.subset ha)]
  have hkey := Prod.Lex.lt_iff.mp hlt
  simp only [Heap.key, ofLex_toLex] at hkey
  omega

/-- On one level, the two loops of a search end at the last node before the
place of `(score, member)`, from wherever on that level they start. -/
theorem searchLevel_eq (h : Inv sl (pre ++ post)) (hs : score.isNaN = false)
    (hpre : ∀ a ∈ pre, sl.heap.key a < toLex (score.ord, member))
    (hpost : ∀ a ∈ post, ¬ sl.heap.key a < toLex (score.ord, member))
    {i : Nat} (hi : i < kMaxLevel) {l₁ l₂ : List Addr} (hl : sl.onLevel i pre = l₁ ++ l₂) :
    sl.searchLevel score member i (l₁.getLastD sl.header) =
      (sl.onLevel i pre).getLastD sl.header := by
  have hsub : l₂.Sublist pre := by
    have hright : l₂.Sublist (sl.onLevel i pre) := by
      rw [hl]
      exact List.sublist_append_right l₁ l₂
    exact hright.trans List.filter_sublist
  have hmem : ∀ a ∈ l₂, a ∈ pre ++ post := fun a ha => List.mem_append_left post (hsub.subset ha)
  obtain ⟨htake, hdrop⟩ := takeWhile_eq_filter
    (h.pairwise_scoreBefore hs (hsub.trans (List.sublist_append_left pre post))) fun _ _ hab => hab
  -- the first loop passes the smaller scores, the second the smaller members
  have hpassed : ∀ a ∈ l₂.dropWhile (sl.scoreBefore score),
      sl.scoreBefore score a = false ∧ sl.memberBefore score member a = true := by
    intro a ha
    rw [hdrop, List.mem_filter, Bool.not_eq_true'] at ha
    have hlt := (h.key_lt_iff hs (hmem a ha.1)).mp (hpre a (hsub.subset ha.1))
    refine ⟨ha.2, hlt.resolve_left ?_⟩
    rw [ha.2]
    exact Bool.false_ne_true
  have hstop : ∀ a ∈ sl.onLevel i post,
      sl.scoreBefore score a = false ∧ sl.memberBefore score member a = false := by
    intro a ha
    have hap : a ∈ post := List.mem_of_mem_filter ha
    have hnot := (h.key_lt_iff hs (List.mem_append_right pre hap)).not.mp (hpost a hap)
    rwa [not_or, Bool.not_eq_true, Bool.not_eq_true] at hnot
  have hlen : (l₂.takeWhile (sl.scoreBefore score)).length +
      (l₂.dropWhile (sl.scoreBefore score)).length ≤ sl.next := by
    have hle := h.length_le
    have hsublen := hsub.length_le
    rw [List.length_append] at hle
    rw [← List.length_append, List.takeWhile_append_dropWhile]
    omega
  have hchain := h.linked i hi
  rw [onLevel, List.filter_append, ← onLevel, ← onLevel, hl, List.append_assoc] at hchain
  have hd := hchain.drop
  rw [← @List.takeWhile_append_dropWhile _ (sl.scoreBefore score) l₂, List.append_assoc] at hd
  have hfirst := walk_eq sl.next hd (fun x hx => List.mem_takeWhile_imp hx)
    (fun x hx => (List.mem_append.mp (List.mem_of_head? hx)).elim (fun hx => (hpassed x hx).1)
      fun hx => (hstop x hx).1) (by omega)
  have hsecond := walk_eq sl.next hd.drop (fun x hx => (hpassed x hx).2)
    (fun x hx => (hstop x (List.mem_of_head? hx)).2) (by omega)
  have hloops : sl.searchLevel score member i (l₁.getLastD sl.header) =
      walk (sl.heap.forward i) (sl.memberBefore score member) sl.next
        (walk (sl.heap.forward i) (sl.scoreBefore score) sl.next (l₁.getLastD sl.header)) := rfl
  rw [hloops, hfirst, hsecond, hl, ← getLastD_append, ← getLastD_append,
    List.takeWhile_append_dropWhile]

end search

/-- **The search lemma**: `update[j]` is the last node on level `j` before the
place of `(score, member)`. -/
theorem findUpdate_eq (h : Inv sl (pre ++ post)) {score : Double} {member : Bytes}
    (hs : score.isNaN = false)
    (hpre : ∀ a ∈ pre, sl.heap.key a < toLex (score.ord, member))
    (hpost : ∀ a ∈ post, ¬ sl.heap.key a < toLex (score.ord, member))
    {i : Nat} (hi : i ≤ kMaxLevel) :
    sl.findUpdate score member i ((sl.onLevel i pre).getLastD sl.header) =
      (List.range i).map fun j => (sl.onLevel j pre).getLastD sl.header := by
  induction i with
  | zero => rfl
  | succ i ih =>
      -- the nodes of the level above are a sublist of the nodes of this one
      have hsub : sl.onLevel (i + 1) pre =
          (sl.onLevel i pre).filter fun a => i + 1 < sl.heap.height a := by
        rw [onLevel, onLevel, List.filter_filter]
        refine List.filter_congr fun a _ => ?_
        by_cases ha : i + 1 < sl.heap.height a
        · have : i < sl.heap.height a := by omega
          simp [ha, this]
        · simp [ha]
      obtain ⟨l₁, l₂, hl, hlast⟩ := exists_prefix_getLastD_filter
        (fun a => decide (i + 1 < sl.heap.height a)) (sl.onLevel i pre) sl.header
      have hstep := h.searchLevel_eq hs hpre hpost (by omega : i < kMaxLevel) hl
      rw [findUpdate, hsub, hlast, hstep]
      rw [ih (by omega), List.range_succ, List.map_append]
      rfl

/-- The search of `Insert` and `Delete`, from the header on the top level. -/
theorem findUpdate_level_eq (h : Inv sl (pre ++ post)) {score : Double} {member : Bytes}
    (hs : score.isNaN = false)
    (hpre : ∀ a ∈ pre, sl.heap.key a < toLex (score.ord, member))
    (hpost : ∀ a ∈ post, ¬ sl.heap.key a < toLex (score.ord, member)) :
    sl.findUpdate score member sl.level sl.header =
      (List.range sl.level).map fun j => (sl.onLevel j pre).getLastD sl.header := by
  have htop := h.onLevel_of_level_le (le_refl sl.level)
  rw [onLevel, List.filter_append, List.append_eq_nil_iff, ← onLevel] at htop
  have := h.findUpdate_eq hs hpre hpost h.level_le
  rwa [htop.1, List.getLastD_nil] at this

end Inv

end SkipList

end RedisLike
