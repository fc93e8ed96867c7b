import RedisLike.SkipList.Insert

/-!
# RedisLike.SkipList.Delete

`SkipList::Delete` keeps the invariant.  `unlink_spec` says what the unlinking
loop writes, `deleteNode_removed` what the removal leaves (`Removed`), and each part of the
invariant follows from it (`deleteNode_inv`).  `delete_spec` is the whole call: it
finds the node of a member and removes it, or changes nothing.
-/

namespace RedisLike

open Chain

namespace SkipList

/-! ## The unlinking loop -/

/-- **Unlinking**: the rounds below `n` relink `update[j]` past the node on
every level `j < n` where it stands right behind `update[j]`, and change
nothing else. -/
theorem unlink_spec {heap : Heap} {update : List Addr} {header : Addr} (node : Addr) {n : Nat}
    (hup : ∀ j < n, j < heap.height (update.getD j header)) :
    let heap' := (List.range n).foldl (unlinkAt update header node) heap
    heap.SameNodes heap' ∧ (∀ a, (heap'.node a).backward = (heap.node a).backward) ∧
      ∀ j a, heap'.forward j a =
        if j < n ∧ a = update.getD j header ∧ heap.forward j a = some node then
          heap.forward j node
        else heap.forward j a := by
  induction n with
  | zero => exact ⟨Heap.SameNodes.refl heap, fun _ => rfl, fun _ _ => by simp⟩
  | succ n ih =>
      obtain ⟨hsame, hback, hfwd⟩ := ih fun j hj => hup j (by omega)
      rw [List.range_succ, List.foldl_append, List.foldl_cons, List.foldl_nil]
      generalize (List.range n).foldl (unlinkAt update header node) heap = heap₁ at *
      have hold : ∀ b, heap₁.forward n b = heap.forward n b := by
        intro b; rw [hfwd]; simp
      unfold unlinkAt
      rw [hold]
      by_cases hn : heap.forward n (update.getD n header) = some node
      · rw [if_pos hn]
        refine ⟨hsame.trans (Heap.sameNodes_setForward heap₁ n _ _), ?_, ?_⟩
        · intro a; rw [Heap.backward_setForward, hback]
        · intro j a
          have hlen : n < (heap₁.node (update.getD n header)).forward.length := by
            have := hsame.height (update.getD n header)
            rw [Heap.height] at this
            rw [this]
            exact hup n (by omega)
          rw [Heap.forward_setForward, hold]
          by_cases hj : j = n
          · subst hj
            rw [hold]
            generalize update.getD j header = u at hn hlen
            by_cases ha : a = u
            · subst ha
              simp [hlen, hn]
            · simp [ha]
          · have hlt : j < n + 1 ↔ j < n := by omega
            simp only [hj, false_and, and_false, if_false, hfwd, hlt]
      · rw [if_neg hn]
        refine ⟨hsame, hback, fun j a => ?_⟩
        rw [hfwd]
        by_cases hj : j = n
        · subst hj
          rw [if_neg (by simp), if_neg]
          rintro ⟨-, rfl, ha⟩
          exact hn ha
        · have hlt : j < n + 1 ↔ j < n := by omega
          simp only [hlt]

/-- The node behind the removed one, or `tail_` when there is none, takes over
its backward pointer. -/
theorem unlinkBackward_spec {node : Addr} {heap : Heap} (tail : Option Addr)
    (hb : ∀ b, heap.forward 0 node = some b → (heap b).isSome) :
    heap.SameNodes (unlinkBackward node heap tail).1 ∧
      (∀ j a, (unlinkBackward node heap tail).1.forward j a = heap.forward j a) ∧
      (∀ a, ((unlinkBackward node heap tail).1.node a).backward =
        if heap.forward 0 node = some a then (heap.node node).backward
        else (heap.node a).backward) ∧
      (unlinkBackward node heap tail).2 =
        if heap.forward 0 node = none then (heap.node node).backward else tail := by
  unfold unlinkBackward
  cases hf : heap.forward 0 node with
  | none => exact ⟨Heap.SameNodes.refl heap, fun _ _ => rfl, fun a => by simp, by simp⟩
  | some b =>
      have hsome := hb b hf
      refine ⟨Heap.sameNodes_setBackward hsome _, Heap.forward_setBackward hsome _, ?_, by simp⟩
      intro a
      simp only [Heap.backward_setBackward hsome, Option.some.injEq, eq_comm]

/-- `level_` shrinks to the highest level with a node on it. -/
theorem shrinkLevel_eq {heap : Heap} {header : Addr} {m n : Nat} (hm : 1 ≤ m) (hmn : m ≤ n)
    (hnone : ∀ i, m ≤ i → i < n → heap.forward i header = none)
    (hsome : m = 1 ∨ heap.forward (m - 1) header ≠ none) :
    shrinkLevel heap header n = m := by
  induction n with
  | zero => omega
  | succ n ih =>
      rcases Nat.eq_or_lt_of_le hmn with he | hlt
      · subst he
        cases n with
        | zero => rfl
        | succ n =>
            have hne : heap.forward (n + 1) header ≠ none := by
              rcases hsome with h | h
              · omega
              · exact h
            rw [shrinkLevel, if_neg hne]
      · cases n with
        | zero => omega
        | succ n =>
            rw [shrinkLevel, if_pos (hnone (n + 1) (by omega) (by omega))]
            exact ih (by omega) fun i hi hi' => hnone i hi (by omega)

/-- The header's pointers decide how far `level_` shrinks. -/
theorem shrinkLevel_congr {heap heap' : Heap} {header : Addr}
    (h : ∀ i, heap'.forward i header = heap.forward i header) (n : Nat) :
    shrinkLevel heap' header n = shrinkLevel heap header n := by
  induction n with
  | zero => rfl
  | succ n ih =>
      cases n with
      | zero => rfl
      | succ n => rw [shrinkLevel, shrinkLevel, h, ih]

namespace Inv

variable {sl : SkipList} {nodes pre post : List Addr} {d : Addr}

theorem notMem_of_split (h : Inv sl (pre ++ d :: post)) : d ∉ sl.header :: (pre ++ post) := by
  have hperm : (sl.header :: (pre ++ d :: post)).Perm (d :: sl.header :: (pre ++ post)) :=
    (List.perm_middle.cons _).trans (List.Perm.swap _ _ _)
  exact (List.nodup_cons.mp (hperm.nodup_iff.mp h.nodup)).1

theorem ne_removed (h : Inv sl (pre ++ d :: post)) {a : Addr}
    (ha : a ∈ sl.header :: (pre ++ post)) : a ≠ d := by
  rintro rfl
  exact h.notMem_of_split ha

/-- The predecessors of the removed node are other nodes. -/
theorem pred_ne_removed (h : Inv sl (pre ++ d :: post)) {i : Nat} (hi : i < kMaxLevel) :
    (sl.onLevel i pre).getLastD sl.header ≠ d :=
  h.ne_removed (List.mem_append_left post (h.pred_mem hi).1)

end Inv

section deleteNode

variable {sl : SkipList} {pre post : List Addr} {d : Addr} {update : List Addr}

theorem onLevel_cons (j : Nat) (a : Addr) (l : List Addr) : sl.onLevel j (a :: l) =
    if j < sl.heap.height a then a :: sl.onLevel j l else sl.onLevel j l := by
  simp [onLevel, List.filter_cons]

/-! ## The heap of a removal -/

/-- The heap behind the unlinking loop. -/
def unlinkedHeap (sl : SkipList) (update : List Addr) (d : Addr) : Heap :=
  (List.range sl.level).foldl (unlinkAt update sl.header d) sl.heap

/-- Behind the unlinking loop every level passes the removed node over. -/
theorem unlinkedHeap_spec (h : Inv sl (pre ++ d :: post))
    (hup : ∀ j < sl.level, update.getD j sl.header = (sl.onLevel j pre).getLastD sl.header) :
    sl.heap.SameNodes (sl.unlinkedHeap update d) ∧
      (∀ a, ((sl.unlinkedHeap update d).node a).backward = (sl.heap.node a).backward) ∧
      (∀ j < kMaxLevel, ∀ a, a ≠ d → (sl.unlinkedHeap update d).forward j a =
        if a = (sl.onLevel j pre).getLastD sl.header then (sl.onLevel j post).head?
        else sl.heap.forward j a) ∧
      (sl.unlinkedHeap update d).forward 0 d = post.head? := by
  obtain ⟨hsame, hback, hfwd⟩ := @unlink_spec sl.heap update sl.header d sl.level fun j hj => by
    rw [hup j hj]
    exact (h.pred_mem (lt_of_lt_of_le hj h.level_le)).2
  have hdm : d ∈ pre ++ d :: post := List.mem_append_right pre List.mem_cons_self
  refine ⟨hsame, hback, fun j hj a ha => (hfwd j a).trans ?_, (hfwd 0 d).trans ?_⟩
  · have hsucc := h.forward_pred hj
    have hchain := h.linked j hj
    rw [onLevel, List.filter_append, ← onLevel, ← onLevel] at hchain
    rw [onLevel_cons] at hsucc hchain
    by_cases hap : a = (sl.onLevel j pre).getLastD sl.header
    · rw [if_pos hap, hap, hsucc]
      by_cases hdj : j < sl.heap.height d
      · have hjl : j < sl.level := lt_of_lt_of_le hdj (h.height_le_level hdm)
        rw [if_pos hdj] at hchain
        rw [if_pos hdj, if_pos ⟨hjl, (hup j hjl).symm, rfl⟩]
        exact Linked.next_eq hchain.drop.2
      · rw [if_neg hdj, if_neg]
        rintro ⟨-, -, hh⟩
        have hpost : d ∈ post := List.mem_of_mem_filter (List.mem_of_head? hh)
        exact h.notMem_of_split (List.mem_cons_of_mem _ (List.mem_append_right pre hpost))
    · rw [if_neg hap, if_neg]
      rintro ⟨hjl, hau, -⟩
      exact hap (hau.trans (hup j hjl))
  · have hl := h.linked 0 (by decide)
    rw [h.onLevel_zero (List.Subset.refl _)] at hl
    rw [if_neg]
    · exact Linked.next_eq hl.drop.2
    · rintro ⟨-, hd, -⟩
      rw [hup 0 h.level_pos] at hd
      exact h.pred_ne_removed (by decide) hd.symm

/-! ## The list after a removal -/

/-- What the removal of the node `d` between `pre` and `post` leaves of the list. -/
structure Removed (sl sl' : SkipList) (d : Addr) (pre post : List Addr) : Prop where
  header_eq : sl'.header = sl.header
  next_eq : sl'.next = sl.next
  isSome_iff : ∀ a, (sl'.heap a).isSome ↔ a ≠ d ∧ (sl.heap a).isSome
  node_eq : ∀ a, a ≠ d → (sl'.heap.node a).score = (sl.heap.node a).score ∧
    (sl'.heap.node a).member = (sl.heap.node a).member ∧ sl'.heap.height a = sl.heap.height a
  forward_eq : ∀ j < kMaxLevel, ∀ a, a ≠ d → sl'.heap.forward j a =
    if a = (sl.onLevel j pre).getLastD sl.header then (sl.onLevel j post).head?
    else sl.heap.forward j a
  prev_eq : ∀ a, a ≠ d → sl'.prev a =
    if a = post.reverse.getLastD sl.header then pre.reverse.head? else sl.prev a
  level_eq : sl'.level = shrinkLevel sl'.heap sl.header sl.level
  size_eq : sl'.size = sl.size - 1
  scoreMap_eq : sl'.scoreMap = sl.scoreMap.erase (sl.heap.node d).member

theorem deleteNode_removed (h : Inv sl (pre ++ d :: post))
    (hup : ∀ j < sl.level, update.getD j sl.header = (sl.onLevel j pre).getLastD sl.header) :
    Removed sl { sl.deleteNode update d with
      scoreMap := sl.scoreMap.erase (sl.heap.node d).member } d pre post := by
  obtain ⟨hsame, hback, hfwd, hnext⟩ := unlinkedHeap_spec h hup
  have hsome : ∀ b, (sl.unlinkedHeap update d).forward 0 d = some b →
      (sl.unlinkedHeap update d b).isSome := by
    intro b hb
    rw [hnext] at hb
    rw [hsame.isSome, h.alloc]
    exact List.mem_cons_of_mem _ (List.mem_append_right pre
      (List.mem_cons_of_mem d (List.mem_of_head? hb)))
  obtain ⟨hsame', hfwd', hback', htail⟩ := unlinkBackward_spec sl.tail hsome
  have hall := hsame.trans hsame'
  have hdh : sl.header ≠ d := h.ne_removed List.mem_cons_self
  -- the backward pointer of `d`
  have hprev : ((sl.unlinkedHeap update d).node d).backward = pre.reverse.head? := by
    have hm := h.mirrored
    rw [List.reverse_append, List.reverse_cons, List.append_assoc, List.singleton_append] at hm
    have hlink := Linked.next_eq hm.drop.2
    rw [prev, if_neg hdh.symm] at hlink
    rw [hback, hlink]
  generalize hsl' : { sl.deleteNode update d with
    scoreMap := sl.scoreMap.erase (sl.heap.node d).member } = sl'
  have hheap : sl'.heap =
      Function.update (unlinkBackward d (sl.unlinkedHeap update d) sl.tail).1 d none := by
    rw [← hsl']
    rfl
  have hnode : ∀ a, a ≠ d → sl'.heap.node a =
      (unlinkBackward d (sl.unlinkedHeap update d) sl.tail).1.node a := by
    intro a ha
    simp [hheap, Heap.node, ha]
  have hforward : ∀ j a, a ≠ d → sl'.heap.forward j a =
      (unlinkBackward d (sl.unlinkedHeap update d) sl.tail).1.forward j a := by
    intro j a ha
    rw [Heap.forward, hnode a ha, Heap.forward]
  exact
  { header_eq := by rw [← hsl']; rfl
    next_eq := by rw [← hsl']; rfl
    isSome_iff := fun a => by
      rw [hheap]
      by_cases ha : a = d
      · simp [ha]
      · rw [Function.update_of_ne ha, hall.isSome]
        exact (and_iff_right ha).symm
    node_eq := fun a ha => by
      rw [Heap.height, hnode a ha, ← Heap.height]
      exact ⟨hall.score a, hall.member a, hall.height a⟩
    forward_eq := fun j hj a ha => (hforward j a ha).trans ((hfwd' j a).trans (hfwd j hj a ha))
    prev_eq := fun a ha => by
      have hh : sl.header ∉ post := fun hm =>
        h.header_notMem (List.mem_append_right pre (List.mem_cons_of_mem d hm))
      have hp : sl'.prev a = if a = sl.header then
          if (sl.unlinkedHeap update d).forward 0 d = none
            then ((sl.unlinkedHeap update d).node d).backward else sl.tail
          else if (sl.unlinkedHeap update d).forward 0 d = some a
            then ((sl.unlinkedHeap update d).node d).backward
            else ((sl.unlinkedHeap update d).node a).backward := by
        rw [← hback', ← htail, prev, hnode a ha, ← hsl']
        rfl
      rw [hp, hnext, hprev, hback, ite_head?_eq hh, prev]
    level_eq := by
      have hlevel : sl'.level = shrinkLevel
          (unlinkBackward d (sl.unlinkedHeap update d) sl.tail).1 sl.header sl.level := by
        rw [← hsl']
        rfl
      rw [hlevel]
      exact (shrinkLevel_congr (fun i => hforward i sl.header hdh) _).symm
    size_eq := by rw [← hsl']; rfl
    scoreMap_eq := by rw [← hsl'] }

namespace Removed

variable {sl' : SkipList}

theorem ne_removed (h : Inv sl (pre ++ d :: post)) {a : Addr} (ha : a ∈ pre ++ post) : a ≠ d :=
  h.ne_removed (List.mem_cons_of_mem _ ha)

theorem sublist (d : Addr) (pre post : List Addr) : (pre ++ post).Sublist (pre ++ d :: post) :=
  (List.Sublist.refl pre).append (List.sublist_cons_self d post)

theorem key_eq (hr : Removed sl sl' d pre post) {a : Addr} (ha : a ≠ d) :
    sl'.heap.key a = sl.heap.key a := by
  rw [Heap.key, (hr.node_eq a ha).1, (hr.node_eq a ha).2.1, Heap.key]

theorem onLevel_eq (hr : Removed sl sl' d pre post) (h : Inv sl (pre ++ d :: post)) (j : Nat) :
    sl'.onLevel j (pre ++ post) = sl.onLevel j pre ++ sl.onLevel j post := by
  have hsame : sl'.onLevel j (pre ++ post) = sl.onLevel j (pre ++ post) := by
    refine List.filter_congr fun a ha => ?_
    rw [(hr.node_eq a (ne_removed h ha)).2.2]
  rw [hsame, onLevel, List.filter_append, ← onLevel, ← onLevel]

/-- The chain of every level passes the removed node over, or is as before. -/
theorem linked (hr : Removed sl sl' d pre post) (h : Inv sl (pre ++ d :: post)) {j : Nat}
    (hj : j < kMaxLevel) :
    Linked (sl'.heap.forward j) sl'.header (sl'.onLevel j (pre ++ post)) := by
  have hl := h.linked j hj
  have hnd : (sl.header :: sl.onLevel j (pre ++ d :: post)).Nodup :=
    h.nodup.sublist (List.filter_sublist.cons_cons _)
  have hsplit : sl.onLevel j (pre ++ d :: post) = sl.onLevel j pre ++ sl.onLevel j (d :: post) :=
    List.filter_append _ _
  rw [hsplit, onLevel_cons] at hl hnd
  rw [hr.header_eq, hr.onLevel_eq h]
  have hpred := h.pred_ne_removed hj
  by_cases hdj : j < sl.heap.height d
  · rw [if_pos hdj] at hl hnd
    refine Linked.remove hl hnd ?_ fun x hx hx' => ?_
    · rw [hr.forward_eq j hj _ hpred, if_pos rfl]
    · rw [hr.forward_eq j hj x hx, if_neg hx']
  · rw [if_neg hdj] at hl
    refine hl.congr fun x hx => ?_
    have hxd : x ≠ d := by
      refine h.ne_removed (List.Sublist.subset ?_ hx)
      rw [onLevel, onLevel, ← List.filter_append]
      exact List.filter_sublist.cons_cons _
    rw [hr.forward_eq j hj x hxd]
    by_cases hxp : x = (sl.onLevel j pre).getLastD sl.header
    · rw [if_pos hxp, hxp]
      exact hl.next_getLastD.symm
    · rw [if_neg hxp]

/-- The backward chain passes the removed node over. -/
theorem mirrored (hr : Removed sl sl' d pre post) (h : Inv sl (pre ++ d :: post)) :
    Linked sl'.prev sl'.header (pre ++ post).reverse := by
  have hm := h.mirrored
  have hnd : (sl.header :: (pre ++ d :: post).reverse).Nodup :=
    ((List.reverse_perm _).cons _).nodup_iff.mpr h.nodup
  have hlast : post.reverse.getLastD sl.header ≠ d := by
    refine h.ne_removed ?_
    rcases List.mem_cons.mp (getLastD_mem post.reverse sl.header) with hg | hg
    · rw [hg]
      exact List.mem_cons_self
    · exact List.mem_cons_of_mem _ (List.mem_append_right pre (List.mem_reverse.mp hg))
  rw [List.reverse_append, List.reverse_cons, List.append_assoc, List.singleton_append] at hm hnd
  rw [hr.header_eq, List.reverse_append]
  refine Linked.remove hm hnd ?_ fun x hx hx' => ?_
  · rw [hr.prev_eq _ hlast, if_pos rfl]
  · rw [hr.prev_eq x hx, if_neg hx']

/-- `level_` is the height of the highest node left. -/
theorem level_eq_foldr (hr : Removed sl sl' d pre post) (h : Inv sl (pre ++ d :: post)) :
    sl'.level = ((pre ++ post).map sl'.heap.height).foldr max 1 := by
  have hmap : (pre ++ post).map sl'.heap.height = (pre ++ post).map sl.heap.height :=
    List.map_congr_left fun a ha => (hr.node_eq a (ne_removed h ha)).2.2
  have hle : ((pre ++ post).map sl'.heap.height).foldr max 1 ≤ sl.level := by
    rw [hmap, h.level_eq, List.map_append, List.map_append, List.map_cons, foldr_max_insert]
    exact le_max_left _ _
  have hheads : ∀ i < kMaxLevel,
      sl'.heap.forward i sl.header = (sl'.onLevel i (pre ++ post)).head? := by
    intro i hi
    rw [← hr.header_eq]
    exact (hr.linked h hi).next_eq
  have hlevel := h.level_le
  rw [hr.level_eq]
  refine shrinkLevel_eq (one_le_foldr_max _) hle (fun i hi hi' => ?_) ?_
  · -- no node is on a level above the highest one
    rw [hheads i (lt_of_lt_of_le hi' hlevel), List.head?_eq_none_iff, onLevel,
      List.filter_eq_nil_iff]
    intro a ha
    have htall := le_foldr_max (List.mem_map_of_mem (f := sl'.heap.height) ha)
    rw [decide_eq_true_iff]
    omega
  · rcases foldr_max_mem ((pre ++ post).map sl'.heap.height) with hone | hm
    · exact .inl hone
    · refine .inr fun hnone => ?_
      obtain ⟨a, ha, hae⟩ := List.mem_map.mp hm
      have hpos := one_le_foldr_max ((pre ++ post).map sl'.heap.height)
      rw [hheads _ (by omega), List.head?_eq_none_iff, onLevel, List.filter_eq_nil_iff] at hnone
      have htop := hnone a ha
      rw [decide_eq_true_iff] at htop
      omega

/-- `score_map_` and the nodes lose the member. -/
theorem scores (hr : Removed sl sl' d pre post) (h : Inv sl (pre ++ d :: post)) (m : Bytes)
    (s : Double) : sl'.scoreMap.lookup m = some s ↔
      ∃ a ∈ pre ++ post, (sl'.heap.node a).member = m ∧ (sl'.heap.node a).score = s := by
  have hdm : d ∈ pre ++ d :: post := List.mem_append_right pre List.mem_cons_self
  have hold : (∃ a ∈ pre ++ post, (sl'.heap.node a).member = m ∧ (sl'.heap.node a).score = s) ↔
      ∃ a ∈ pre ++ post, (sl.heap.node a).member = m ∧ (sl.heap.node a).score = s := by
    refine exists_congr fun a => and_congr_right fun ha => ?_
    rw [(hr.node_eq a (ne_removed h ha)).1, (hr.node_eq a (ne_removed h ha)).2.1]
  rw [hold, hr.scoreMap_eq, UnorderedMap.lookup_erase_eq]
  by_cases hm : m = (sl.heap.node d).member
  · rw [if_pos hm]
    refine iff_of_false nofun ?_
    rintro ⟨a, ha, hma, -⟩
    have had := h.eq_of_member ((sublist d pre post).subset ha) hdm (hma.trans hm)
    exact ne_removed h ha had
  · rw [if_neg hm, h.scores]
    simp only [Inserted.mem_iff, or_and_right, exists_or, exists_eq_left]
    exact or_iff_right fun hd => hm hd.1.symm

end Removed

namespace Inv

/-- **Removal keeps the invariant**: the nodes before and behind the removed
one stay, in order. -/
theorem deleteNode_inv (h : Inv sl (pre ++ d :: post))
    (hup : ∀ j < sl.level, update.getD j sl.header = (sl.onLevel j pre).getLastD sl.header) :
    Inv { sl.deleteNode update d with
      scoreMap := sl.scoreMap.erase (sl.heap.node d).member } (pre ++ post) := by
  have hr := deleteNode_removed h hup
  generalize { sl.deleteNode update d with
    scoreMap := sl.scoreMap.erase (sl.heap.node d).member } = sl' at hr
  have hsub := Removed.sublist d pre post
  have hnew := h.notMem_of_split
  exact
  { nodup := by
      rw [hr.header_eq]
      exact h.nodup.sublist (hsub.cons_cons _)
    alloc := fun a => by
      rw [hr.header_eq, hr.isSome_iff, h.alloc, List.mem_cons, Inserted.mem_iff, or_left_comm,
        ← List.mem_cons]
      exact ⟨fun ha => ha.2.resolve_left ha.1, fun ha => ⟨h.ne_removed ha, .inr ha⟩⟩
    fresh := fun a ha => by
      rw [hr.header_eq] at ha
      rw [hr.next_eq]
      exact h.fresh a ((hsub.cons_cons _).subset ha)
    header_height := by
      rw [hr.header_eq, (hr.node_eq _ (h.ne_removed List.mem_cons_self)).2.2, h.header_height]
    height := fun a ha => by
      rw [(hr.node_eq a (Removed.ne_removed h ha)).2.2]
      exact h.height a (hsub.subset ha)
    notNaN := fun a ha => by
      rw [(hr.node_eq a (Removed.ne_removed h ha)).1]
      exact h.notNaN a (hsub.subset ha)
    sorted := by
      refine (h.sorted.sublist hsub).imp_of_mem fun ha hb hlt => ?_
      rwa [hr.key_eq (Removed.ne_removed h ha), hr.key_eq (Removed.ne_removed h hb)]
    linked := fun j hj => hr.linked h hj
    mirrored := hr.mirrored h
    level_eq := hr.level_eq_foldr h
    size_eq := by
      rw [hr.size_eq, h.size_eq, List.perm_middle.length_eq, List.length_cons, Nat.add_sub_cancel]
    scores := hr.scores h }

end Inv

end deleteNode

namespace Inv

variable {sl : SkipList} {nodes pre post : List Addr}

/-! ## The whole call -/

/-- The node of a member stands at the place of its score. -/
theorem exists_node (h : Inv sl nodes) {m : Bytes} {s : Double}
    (hs : sl.scoreMap.lookup m = some s) :
    ∃ pre d post, nodes = pre ++ d :: post ∧
      (sl.heap.node d).member = m ∧ (sl.heap.node d).score = s ∧
      (∀ a ∈ pre, sl.heap.key a < toLex (s.ord, m)) ∧
      ∀ a ∈ d :: post, ¬ sl.heap.key a < toLex (s.ord, m) := by
  obtain ⟨d, hd, rfl, rfl⟩ := (h.scores m s).mp hs
  obtain ⟨pre, post, rfl⟩ := List.append_of_mem hd
  obtain ⟨-, hpost, hlt⟩ := List.pairwise_append.mp h.sorted
  refine ⟨pre, d, post, rfl, rfl, rfl, fun a ha => hlt a ha d (by simp), fun a ha => ?_⟩
  rcases List.mem_cons.mp ha with rfl | ha
  · exact lt_irrefl _
  · exact ((List.pairwise_cons.mp hpost).1 a ha).le.not_gt

/-- **`SkipList::Delete`** takes the node of a member of the list out and
leaves a list without that member. -/
theorem delete_spec (h : Inv sl nodes) {m : Bytes} {s : Double}
    (hs : sl.scoreMap.lookup m = some s) :
    (sl.delete m).1 = true ∧ (sl.delete m).2.scoreMap = sl.scoreMap.erase m ∧
      ∃ nodes', Inv (sl.delete m).2 nodes' := by
  obtain ⟨pre, d, post, rfl, rfl, rfl, hpre, hpost⟩ := h.exists_node hs
  have hnan : (sl.heap.node d).score.isNaN = false := h.notNaN d (by simp)
  have hup := h.findUpdate_level_eq hnan hpre hpost
  set update := sl.findUpdate (sl.heap.node d).score (sl.heap.node d).member sl.level sl.header
    with hupdate
  have hget : ∀ j < sl.level, update.getD j sl.header = (sl.onLevel j pre).getLastD sl.header := by
    intro j hj
    rw [hup, List.getD_eq_getElem?_getD]
    simp [hj]
  -- the node behind `update[0]` is the one of the member
  have hfound : sl.heap.forward 0 (update.getD 0 sl.header) = some d := by
    rw [hget 0 h.level_pos, h.forward_pred (by decide), h.onLevel_zero (by simp)]
    rfl
  have hdel : sl.delete (sl.heap.node d).member = (true, { sl.deleteNode update d with
      scoreMap := sl.scoreMap.erase (sl.heap.node d).member }) := by
    unfold delete
    simp only [hs]
    rw [← hupdate, hfound]
    simp [deleteNode]
  rw [hdel]
  exact ⟨rfl, rfl, pre ++ post, h.deleteNode_inv hget⟩

/-- **`SkipList::Insert` of a new member.** -/
theorem insertNode_spec (h : Inv sl nodes) {score : Double} {member : Bytes} (level : Level)
    (hs : score.isNaN = false) (habsent : sl.scoreMap.lookup member = none) :
    ∃ nodes', Inv (sl.insertNode score member level) nodes' := by
  obtain ⟨pre, post, rfl, hpre, hpost⟩ := h.exists_split (toLex (score.ord, member))
  exact ⟨_, h.insertNode_inv hs hpre hpost habsent⟩

end Inv

end SkipList

end RedisLike
