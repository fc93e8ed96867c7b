import RedisLike.SkipList.Invariant

/-!
# RedisLike.SkipList.Insert

`SkipList::Insert` keeps the invariant.  `link_spec` says what the linking
loop writes, `insertNode_inserted` what the whole insertion leaves (`Inserted`), and
each part of the invariant follows from it (`insertNode_inv`).
-/

namespace RedisLike

open Chain

namespace Heap

/-- The heaps have the same nodes, up to their pointers. -/
structure SameNodes (h h' : Heap) : Prop where
  isSome : ∀ a, (h' a).isSome = (h a).isSome
  score : ∀ a, (h'.node a).score = (h.node a).score
  member : ∀ a, (h'.node a).member = (h.node a).member
  height : ∀ a, h'.height a = h.height a

theorem SameNodes.refl (h : Heap) : SameNodes h h :=
  ⟨fun _ => rfl, fun _ => rfl, fun _ => rfl, fun _ => rfl⟩

theorem SameNodes.trans {h₁ h₂ h₃ : Heap} (h : SameNodes h₁ h₂) (h' : SameNodes h₂ h₃) :
    SameNodes h₁ h₃ where
  isSome a := (h'.isSome a).trans (h.isSome a)
  score a := (h'.score a).trans (h.score a)
  member a := (h'.member a).trans (h.member a)
  height a := (h'.height a).trans (h.height a)

theorem SameNodes.key {h h' : Heap} (hs : SameNodes h h') (a : Addr) : h'.key a = h.key a := by
  rw [Heap.key, Heap.key, hs.score, hs.member]

theorem sameNodes_setForward (h : Heap) (i : Nat) (a : Addr) (v : Option Addr) :
    SameNodes h (h.setForward i a v) where
  isSome b := isSome_setForward h i a b v
  score b := by rw [node_setForward]; split <;> simp_all
  member b := by rw [node_setForward]; split <;> simp_all
  height b := by unfold Heap.height; rw [node_setForward]; split <;> simp_all

theorem sameNodes_setBackward {h : Heap} {a : Addr} (ha : (h a).isSome) (v : Option Addr) :
    SameNodes h (h.setBackward a v) where
  isSome b := isSome_setBackward h a b v
  score b := by rw [node_setBackward ha]; split <;> simp_all
  member b := by rw [node_setBackward ha]; split <;> simp_all
  height b := by unfold Heap.height; rw [node_setBackward ha]; split <;> simp_all

theorem forward_setBackward {h : Heap} {a : Addr} (ha : (h a).isSome) (v : Option Addr)
    (i : Nat) (b : Addr) : (h.setBackward a v).forward i b = h.forward i b := by
  unfold Heap.forward; rw [node_setBackward ha]; split <;> simp_all

theorem backward_setForward (h : Heap) (i : Nat) (a b : Addr) (v : Option Addr) :
    ((h.setForward i a v).node b).backward = (h.node b).backward := by
  rw [node_setForward]; split <;> simp_all

theorem backward_setBackward {h : Heap} {a : Addr} (ha : (h a).isSome) (v : Option Addr)
    (b : Addr) :
    ((h.setBackward a v).node b).backward = if b = a then v else (h.node b).backward := by
  rw [node_setBackward ha]; split <;> simp_all

end Heap

namespace SkipList

/-! ## The linking loop -/

/-- **Linking**: after the rounds below `n`, the new node stands behind
`update[j]` on every level `j < n`, and nothing else has changed. -/
theorem link_spec {heap : Heap} {update : List Addr} {header newNode : Addr} {n : Nat}
    (hne : ∀ j < n, update.getD j header ≠ newNode)
    (hup : ∀ j < n, j < heap.height (update.getD j header))
    (hnew : n ≤ heap.height newNode) :
    let heap' := (List.range n).foldl (linkAt update header newNode) heap
    heap.SameNodes heap' ∧ (∀ a, (heap'.node a).backward = (heap.node a).backward) ∧
      ∀ j a, heap'.forward j a =
        if j < n then
          if a = update.getD j header then some newNode
          else if a = newNode then heap.forward j (update.getD j header)
          else heap.forward j a
        else heap.forward j a := by
  induction n with
  | zero => exact ⟨Heap.SameNodes.refl heap, fun _ => rfl, fun _ _ => rfl⟩
  | succ n ih =>
      obtain ⟨hsame, hback, hfwd⟩ := ih (fun j hj => hne j (by omega))
        (fun j hj => hup j (by omega)) (by omega)
      rw [List.range_succ, List.foldl_append, List.foldl_cons, List.foldl_nil]
      generalize (List.range n).foldl (linkAt update header newNode) heap = heap₁ at *
      have hs₁ := Heap.sameNodes_setForward heap₁ n newNode (heap₁.forward n (update.getD n header))
      refine ⟨hsame.trans (hs₁.trans (Heap.sameNodes_setForward _ n _ _)), ?_, ?_⟩
      · intro a
        rw [linkAt, Heap.backward_setForward, Heap.backward_setForward, hback]
      · intro j a
        have h1 : n < ((heap₁.setForward n newNode
            (heap₁.forward n (update.getD n header))).node (update.getD n header)).forward.length := by
          have := (hsame.trans hs₁).height (update.getD n header)
          rw [Heap.height] at this
          rw [this]
          exact hup n (by omega)
        have h2 : n < (heap₁.node newNode).forward.length := by
          have := hsame.height newNode
          rw [Heap.height] at this
          rw [this]
          omega
        rw [linkAt, Heap.forward_setForward, Heap.forward_setForward]
        have hold : ∀ b, heap₁.forward n b = heap.forward n b := by
          intro b; rw [hfwd]; simp
        by_cases hj : j = n
        · subst hj
          simp only [hold] at h1 ⊢
          simp only [h1, h2, and_true, Nat.lt_succ_self, if_true]
        · have hlt : j < n + 1 ↔ j < n := by omega
          simp only [hj, false_and, and_false, if_false, hfwd, hlt]

/-- The last step of `Insert`: the node behind the new one, or `tail_` when
there is none, points back to it. -/
theorem linkBackward_spec {newNode : Addr} {heap : Heap} (tail : Option Addr)
    (hb : ∀ b, heap.forward 0 newNode = some b → (heap b).isSome) :
    heap.SameNodes (linkBackward newNode heap tail).1 ∧
      (∀ j a, (linkBackward newNode heap tail).1.forward j a = heap.forward j a) ∧
      (∀ a, ((linkBackward newNode heap tail).1.node a).backward =
        if heap.forward 0 newNode = some a then some newNode else (heap.node a).backward) ∧
      (linkBackward newNode heap tail).2 =
        if heap.forward 0 newNode = none then some newNode else tail := by
  unfold linkBackward
  cases hf : heap.forward 0 newNode with
  | none => exact ⟨Heap.SameNodes.refl heap, fun _ _ => rfl, fun a => by simp, by simp⟩
  | some b =>
      have hsome := hb b hf
      refine ⟨Heap.sameNodes_setBackward hsome _, Heap.forward_setBackward hsome _, ?_, by simp⟩
      intro a
      simp only [Heap.backward_setBackward hsome, Option.some.injEq, eq_comm]

namespace Inv

variable {sl : SkipList} {nodes pre post : List Addr}

/-- The predecessor on a level is the header or a node, and tall enough. -/
theorem pred_mem (h : Inv sl (pre ++ post)) {i : Nat} (hi : i < kMaxLevel) :
    (sl.onLevel i pre).getLastD sl.header ∈ sl.header :: pre ∧
      i < sl.heap.height ((sl.onLevel i pre).getLastD sl.header) := by
  have hmem := getLastD_mem (sl.onLevel i pre) sl.header
  rcases List.mem_cons.mp hmem with he | hl
  · rw [he, h.header_height]
    exact ⟨by simp, hi⟩
  · have hf := List.mem_filter.mp hl
    exact ⟨List.mem_cons_of_mem _ hf.1, by simpa using hf.2⟩

/-- The address of the next node is new. -/
theorem next_notMem (h : Inv sl nodes) : sl.next ∉ sl.header :: nodes :=
  fun hm => lt_irrefl _ (h.fresh _ hm)

theorem ne_next (h : Inv sl nodes) {a : Addr} (ha : a ∈ sl.header :: nodes) : a ≠ sl.next := by
  rintro rfl
  exact h.next_notMem ha

/-- The predecessors of the new node are not the new node. -/
theorem pred_ne_next (h : Inv sl (pre ++ post)) {i : Nat} (hi : i < kMaxLevel) :
    (sl.onLevel i pre).getLastD sl.header ≠ sl.next :=
  h.ne_next (List.mem_append_left post (h.pred_mem hi).1)

end Inv

section insertNode

/-! ## The heaps of an insertion -/

variable (sl : SkipList) (score : Double) (member : Bytes) (level : Level)

/-- The heap with the new node, before it is linked. -/
def newHeap : Heap :=
  Function.update sl.heap sl.next (some ⟨score, member, List.replicate level.1 none, none⟩)

/-- The array `update` of `Insert`. -/
def insertPath : List Addr :=
  sl.findUpdate score member sl.level sl.header ++ List.replicate (level.1 - sl.level) sl.header

/-- The heap behind the linking loop. -/
def linkedHeap : Heap :=
  (List.range level.1).foldl (linkAt (sl.insertPath score member level) sl.header sl.next)
    (sl.newHeap score member level)

/-- The heap in which the new node has its backward pointer. -/
def backHeap : Heap :=
  let first := (sl.insertPath score member level).getD 0 sl.header
  (sl.linkedHeap score member level).setBackward sl.next
    (if first = sl.header then none else some first)

variable {sl score member level}

theorem node_newHeap_of_ne {a : Addr} (ha : a ≠ sl.next) :
    (sl.newHeap score member level).node a = sl.heap.node a := by
  simp [newHeap, Heap.node, ha]

theorem node_newHeap_next : (sl.newHeap score member level).node sl.next =
    ⟨score, member, List.replicate level.1 none, none⟩ := by
  simp [newHeap, Heap.node]

variable {pre post : List Addr}

/-- `update[j]`, for the levels the search covered and for those above. -/
theorem insertPath_getD (h : Inv sl (pre ++ post)) (hs : score.isNaN = false)
    (hpre : ∀ a ∈ pre, sl.heap.key a < toLex (score.ord, member))
    (hpost : ∀ a ∈ post, ¬ sl.heap.key a < toLex (score.ord, member)) (j : Nat) :
    (sl.insertPath score member level).getD j sl.header =
      (sl.onLevel j pre).getLastD sl.header := by
  rw [insertPath, h.findUpdate_level_eq hs hpre hpost, List.getD_eq_getElem?_getD]
  by_cases hl : j < sl.level
  · simp [List.getElem?_append, hl]
  · have htop := h.onLevel_of_level_le (not_lt.mp hl)
    rw [onLevel, List.filter_append, List.append_eq_nil_iff, ← onLevel] at htop
    rw [htop.1, List.getElem?_append_right (by simpa using not_lt.mp hl), List.getElem?_replicate]
    split <;> rfl

/-- Behind the linking loop the new node stands between its predecessor and the rest,
on every level it is tall enough for. -/
theorem linkedHeap_spec (h : Inv sl (pre ++ post)) (hs : score.isNaN = false)
    (hpre : ∀ a ∈ pre, sl.heap.key a < toLex (score.ord, member))
    (hpost : ∀ a ∈ post, ¬ sl.heap.key a < toLex (score.ord, member)) :
    (sl.newHeap score member level).SameNodes (sl.linkedHeap score member level) ∧
      (∀ a, ((sl.linkedHeap score member level).node a).backward =
        ((sl.newHeap score member level).node a).backward) ∧
      ∀ j a, (sl.linkedHeap score member level).forward j a =
        if j < level.1 then
          if a = (sl.onLevel j pre).getLastD sl.header then some sl.next
          else if a = sl.next then (sl.onLevel j post).head?
          else sl.heap.forward j a
        else if a = sl.next then none else sl.heap.forward j a := by
  have hup := @insertPath_getD _ _ _ level _ _ h hs hpre hpost
  have hlevel : ∀ j < level.1, j < kMaxLevel := fun j hj => lt_of_lt_of_le hj level.2.2
  have hold : ∀ j a, a ≠ sl.next →
      (sl.newHeap score member level).forward j a = sl.heap.forward j a := by
    intro j a ha
    rw [Heap.forward, node_newHeap_of_ne ha, Heap.forward]
  obtain ⟨hsame, hback, hfwd⟩ := @link_spec (sl.newHeap score member level)
    (sl.insertPath score member level) sl.header sl.next level.1
    (fun j hj => by rw [hup j]; exact h.pred_ne_next (hlevel j hj))
    (fun j hj => by
      rw [hup j, Heap.height, node_newHeap_of_ne (h.pred_ne_next (hlevel j hj))]
      exact (h.pred_mem (hlevel j hj)).2)
    (by rw [Heap.height, node_newHeap_next, List.length_replicate])
  refine ⟨hsame, hback, fun j a => (hfwd j a).trans ?_⟩
  rw [hup j]
  by_cases hj : j < level.1
  · have hne := h.pred_ne_next (hlevel j hj)
    rw [if_pos hj, if_pos hj, hold j _ hne, h.forward_pred (hlevel j hj)]
    by_cases ha : a = sl.next
    · rw [if_pos ha, if_pos ha]
    · rw [if_neg ha, if_neg ha, hold j a ha]
  · rw [if_neg hj, if_neg hj]
    by_cases ha : a = sl.next
    · rw [if_pos ha, ha, Heap.forward, node_newHeap_next, List.getD_eq_getElem?_getD,
        List.getElem?_replicate, if_neg hj]
      rfl
    · rw [if_neg ha, hold j a ha]

/-- The last node of a list is the first one from the other end. -/
theorem ite_getLastD_eq_head? {l : List Addr} {header : Addr} (hl : header ∉ l) :
    (if l.getLastD header = header then none else some (l.getLastD header)) = l.reverse.head? := by
  cases hr : l.reverse with
  | nil =>
      rw [List.reverse_eq_nil_iff.mp hr]
      exact if_pos rfl
  | cons b r =>
      have hlr : l = r.reverse ++ [b] := by rw [← List.reverse_reverse l, hr, List.reverse_cons]
      have hb : b ≠ header := by
        rintro rfl
        exact hl (hlr ▸ List.mem_append_right _ (List.mem_singleton.mpr rfl))
      rw [hlr, getLastD_append, List.getLastD_cons, List.getLastD_nil, if_neg hb, List.head?_cons]

/-- Behind the loop the new node points back to its predecessor. -/
theorem backHeap_spec (h : Inv sl (pre ++ post)) (hs : score.isNaN = false)
    (hpre : ∀ a ∈ pre, sl.heap.key a < toLex (score.ord, member))
    (hpost : ∀ a ∈ post, ¬ sl.heap.key a < toLex (score.ord, member)) :
    (sl.newHeap score member level).SameNodes (sl.backHeap score member level) ∧
      (∀ j a, (sl.backHeap score member level).forward j a =
        (sl.linkedHeap score member level).forward j a) ∧
      ∀ a, ((sl.backHeap score member level).node a).backward =
        if a = sl.next then pre.reverse.head? else (sl.heap.node a).backward := by
  obtain ⟨hsame, hback, -⟩ := @linkedHeap_spec _ _ _ level _ _ h hs hpre hpost
  have hsome : (sl.linkedHeap score member level sl.next).isSome := by
    rw [hsame.isSome, newHeap, Function.update_self]
    rfl
  have hfirst : (sl.insertPath score member level).getD 0 sl.header = pre.getLastD sl.header := by
    rw [insertPath_getD h hs hpre hpost, h.onLevel_zero (List.subset_append_left pre post)]
  refine ⟨hsame.trans (Heap.sameNodes_setBackward hsome _), Heap.forward_setBackward hsome _,
    fun a => ?_⟩
  rw [backHeap, Heap.backward_setBackward hsome, hfirst, ite_getLastD_eq_head? fun hm =>
    h.header_notMem (List.mem_append_left post hm)]
  by_cases ha : a = sl.next
  · rw [if_pos ha, if_pos ha]
  · rw [if_neg ha, if_neg ha, hback, node_newHeap_of_ne ha]

/-! ## The list after an insertion -/

/-- What an insertion between `pre` and `post` leaves of the list. -/
structure Inserted (sl sl' : SkipList) (score : Double) (member : Bytes) (level : Level)
    (pre post : List Addr) : Prop where
  header_eq : sl'.header = sl.header
  next_eq : sl'.next = sl.next + 1
  isSome_iff : ∀ a, (sl'.heap a).isSome ↔ a = sl.next ∨ (sl.heap a).isSome
  node_new : (sl'.heap.node sl.next).score = score ∧ (sl'.heap.node sl.next).member = member ∧
    sl'.heap.height sl.next = level.1
  node_old : ∀ a, a ≠ sl.next → (sl'.heap.node a).score = (sl.heap.node a).score ∧
    (sl'.heap.node a).member = (sl.heap.node a).member ∧ sl'.heap.height a = sl.heap.height a
  forward_eq : ∀ j a, sl'.heap.forward j a =
    if j < level.1 then
      if a = (sl.onLevel j pre).getLastD sl.header then some sl.next
      else if a = sl.next then (sl.onLevel j post).head?
      else sl.heap.forward j a
    else if a = sl.next then none else sl.heap.forward j a
  prev_eq : ∀ a, sl'.prev a =
    if a = post.reverse.getLastD sl.header then some sl.next
    else if a = sl.next then pre.reverse.head?
    else sl.prev a
  level_eq : sl'.level = max sl.level level.1
  size_eq : sl'.size = sl.size + 1
  scoreMap_eq : sl'.scoreMap = sl.scoreMap.insert member score

/-- The node behind the changed place, or the header for the tail, gets the new pointer. -/
theorem ite_head?_eq {post : List Addr} {header : Addr} (hh : header ∉ post) (a : Addr)
    (x tail back : Option Addr) :
    (if a = header then if post.head? = none then x else tail
      else if post.head? = some a then x else back) =
      if a = post.reverse.getLastD header then x else if a = header then tail else back := by
  cases post with
  | nil => by_cases ha : a = header <;> simp [ha]
  | cons b l =>
      have hb : header ≠ b := by
        rintro rfl
        exact hh List.mem_cons_self
      rw [List.reverse_cons, getLastD_append, List.getLastD_cons, List.getLastD_nil,
        List.head?_cons]
      by_cases ha : a = header
      · simp [ha, hb]
      · simp [ha, eq_comm]

theorem insertNode_inserted (h : Inv sl (pre ++ post)) (hs : score.isNaN = false)
    (hpre : ∀ a ∈ pre, sl.heap.key a < toLex (score.ord, member))
    (hpost : ∀ a ∈ post, ¬ sl.heap.key a < toLex (score.ord, member)) :
    Inserted sl (sl.insertNode score member level) score member level pre post := by
  obtain ⟨-, -, hfwd⟩ := @linkedHeap_spec _ _ _ level _ _ h hs hpre hpost
  obtain ⟨hsame, hfwd', hback⟩ := @backHeap_spec _ _ _ level _ _ h hs hpre hpost
  have hnext : (sl.backHeap score member level).forward 0 sl.next = post.head? := by
    rw [hfwd', hfwd, if_pos (show 0 < level.1 from level.2.1),
      if_neg (h.pred_ne_next (by decide)).symm, if_pos rfl,
      h.onLevel_zero (List.subset_append_right pre post)]
  have hsome : ∀ b, (sl.backHeap score member level).forward 0 sl.next = some b →
      (sl.backHeap score member level b).isSome := by
    intro b hb
    rw [hnext] at hb
    have hbm := List.mem_cons_of_mem sl.header (List.mem_append_right pre (List.mem_of_head? hb))
    rw [hsame.isSome, newHeap, Function.update_of_ne (h.ne_next hbm), h.alloc]
    exact hbm
  obtain ⟨hsame', hfwd'', hback', htail⟩ := linkBackward_spec sl.tail hsome
  have hall := hsame.trans hsame'
  exact
  { header_eq := rfl
    next_eq := rfl
    isSome_iff := fun a => by
      refine (Bool.eq_iff_iff.mp (hall.isSome a)).trans ?_
      by_cases ha : a = sl.next
      · simp [newHeap, ha]
      · simp [newHeap, ha]
    node_new := ⟨(hall.score _).trans (by rw [node_newHeap_next]),
      (hall.member _).trans (by rw [node_newHeap_next]),
      (hall.height _).trans (by rw [Heap.height, node_newHeap_next, List.length_replicate])⟩
    node_old := fun a ha => ⟨(hall.score a).trans (by rw [node_newHeap_of_ne ha]),
      (hall.member a).trans (by rw [node_newHeap_of_ne ha]),
      (hall.height a).trans (by rw [Heap.height, node_newHeap_of_ne ha, Heap.height])⟩
    forward_eq := fun j a => ((hfwd'' j a).trans (hfwd' j a)).trans (hfwd j a)
    prev_eq := fun a => by
      have hprev : (sl.insertNode score member level).prev a =
          if a = sl.header then
            if (sl.backHeap score member level).forward 0 sl.next = none then some sl.next
            else sl.tail
          else if (sl.backHeap score member level).forward 0 sl.next = some a then some sl.next
          else ((sl.backHeap score member level).node a).backward := by
        rw [← hback', ← htail]
        rfl
      have hh : sl.header ∉ post := fun hm => h.header_notMem (List.mem_append_right pre hm)
      rw [hprev, hnext, hback, ite_head?_eq hh, prev]
      have hne := h.ne_next List.mem_cons_self
      by_cases ha : a = sl.header
      · simp [ha, hne]
      · simp [ha]
    level_eq := rfl
    size_eq := rfl
    scoreMap_eq := rfl }

namespace Inserted

variable {sl' : SkipList}

theorem key_new (hi : Inserted sl sl' score member level pre post) :
    sl'.heap.key sl.next = toLex (score.ord, member) := by
  rw [Heap.key, hi.node_new.1, hi.node_new.2.1]

theorem key_old (hi : Inserted sl sl' score member level pre post) {a : Addr} (ha : a ≠ sl.next) :
    sl'.heap.key a = sl.heap.key a := by
  rw [Heap.key, (hi.node_old a ha).1, (hi.node_old a ha).2.1, Heap.key]

theorem mem_iff {n a : Addr} : a ∈ pre ++ n :: post ↔ a = n ∨ a ∈ pre ++ post := by
  rw [List.perm_middle.mem_iff, List.mem_cons]

theorem ne_next (h : Inv sl (pre ++ post)) {a : Addr} (ha : a ∈ pre ++ post) : a ≠ sl.next :=
  h.ne_next (List.mem_cons_of_mem _ ha)

theorem onLevel_old (hi : Inserted sl sl' score member level pre post) (h : Inv sl (pre ++ post))
    (j : Nat) {l : List Addr} (hl : l ⊆ pre ++ post) : sl'.onLevel j l = sl.onLevel j l := by
  refine List.filter_congr fun a ha => ?_
  rw [(hi.node_old a (ne_next h (hl ha))).2.2]

/-- The new node is on the levels below its height. -/
theorem onLevel_eq (hi : Inserted sl sl' score member level pre post) (h : Inv sl (pre ++ post))
    (j : Nat) : sl'.onLevel j (pre ++ sl.next :: post) =
      sl.onLevel j pre ++ ((if j < level.1 then [sl.next] else []) ++ sl.onLevel j post) := by
  rw [onLevel, List.filter_append, ← onLevel, hi.onLevel_old h j (List.subset_append_left pre post),
    List.filter_cons, hi.node_new.2.2, ← onLevel,
    hi.onLevel_old h j (List.subset_append_right pre post)]
  by_cases hj : j < level.1
  · simp [hj]
  · simp [hj]

theorem sorted (hi : Inserted sl sl' score member level pre post) (h : Inv sl (pre ++ post))
    (hpre : ∀ a ∈ pre, sl.heap.key a < toLex (score.ord, member))
    (hpost : ∀ a ∈ post, toLex (score.ord, member) < sl.heap.key a) :
    (pre ++ sl.next :: post).Pairwise fun a b => sl'.heap.key a < sl'.heap.key b := by
  have hkey : ∀ a ∈ pre ++ post, sl'.heap.key a = sl.heap.key a := fun a ha =>
    hi.key_old (ne_next h ha)
  have hold : (pre ++ post).Pairwise fun a b => sl'.heap.key a < sl'.heap.key b := by
    refine h.sorted.imp_of_mem fun {a b} ha hb hlt => ?_
    rwa [hkey a ha, hkey b hb]
  obtain ⟨hleft, hright, hboth⟩ := List.pairwise_append.mp hold
  refine List.pairwise_append.mpr ⟨hleft, List.pairwise_cons.mpr ⟨fun a ha => ?_, hright⟩,
    fun a ha b hb => ?_⟩
  · rw [hi.key_new, hkey a (List.mem_append_right pre ha)]
    exact hpost a ha
  · rcases List.mem_cons.mp hb with rfl | hb
    · rw [hi.key_new, hkey a (List.mem_append_left post ha)]
      exact hpre a ha
    · exact hboth a ha b hb

/-- The chain of every level has the new node in its place, or is as before. -/
theorem linked (hi : Inserted sl sl' score member level pre post) (h : Inv sl (pre ++ post))
    {j : Nat} (hj : j < kMaxLevel) :
    Linked (sl'.heap.forward j) sl'.header (sl'.onLevel j (pre ++ sl.next :: post)) := by
  have hl := h.linked j hj
  have hsub : (sl.header :: sl.onLevel j (pre ++ post)).Sublist (sl.header :: (pre ++ post)) :=
    List.filter_sublist.cons_cons _
  have hnd := h.nodup.sublist hsub
  have hnew : sl.next ∉ sl.header :: sl.onLevel j (pre ++ post) := fun hm =>
    h.next_notMem (hsub.subset hm)
  have hsplit : sl.onLevel j (pre ++ post) = sl.onLevel j pre ++ sl.onLevel j post :=
    List.filter_append _ _
  rw [hsplit] at hl hnd hnew
  rw [hi.onLevel_eq h, hi.header_eq]
  have hpred := h.pred_ne_next hj
  by_cases hjl : j < level.1
  · rw [if_pos hjl, List.cons_append, List.nil_append]
    refine Linked.insert hl hnd hnew ?_ ?_ fun x hx hx' => ?_
    · rw [hi.forward_eq, if_pos hjl, if_pos rfl]
    · rw [hi.forward_eq, if_pos hjl, if_neg hpred.symm, if_pos rfl]
    · rw [hi.forward_eq, if_pos hjl, if_neg hx', if_neg hx]
  · rw [if_neg hjl, List.nil_append]
    refine hl.congr fun x hx => ?_
    have hx' : x ≠ sl.next := by
      rintro rfl
      exact hnew hx
    rw [hi.forward_eq, if_neg hjl, if_neg hx']

/-- The backward chain has the new node in its place. -/
theorem mirrored (hi : Inserted sl sl' score member level pre post) (h : Inv sl (pre ++ post)) :
    Linked sl'.prev sl'.header (pre ++ sl.next :: post).reverse := by
  have hm := h.mirrored
  have hperm : (sl.header :: (post.reverse ++ pre.reverse)).Perm (sl.header :: (pre ++ post)) := by
    rw [← List.reverse_append]
    exact (List.reverse_perm _).cons _
  have hlast : post.reverse.getLastD sl.header ≠ sl.next :=
    h.ne_next (hperm.subset (List.mem_append_left pre.reverse (getLastD_mem _ _)))
  rw [List.reverse_append] at hm
  rw [hi.header_eq, List.reverse_append, List.reverse_cons, List.append_assoc,
    List.singleton_append]
  refine Linked.insert hm (hperm.nodup_iff.mpr h.nodup)
    (fun hx => h.next_notMem (hperm.subset hx)) ?_ ?_ fun x hx hx' => ?_
  · rw [hi.prev_eq, if_pos rfl]
  · rw [hi.prev_eq, if_neg hlast.symm, if_pos rfl]
  · rw [hi.prev_eq, if_neg hx', if_neg hx]

theorem level_eq_foldr (hi : Inserted sl sl' score member level pre post)
    (h : Inv sl (pre ++ post)) :
    sl'.level = ((pre ++ sl.next :: post).map sl'.heap.height).foldr max 1 := by
  have hmap : (pre ++ post).map sl'.heap.height = (pre ++ post).map sl.heap.height :=
    List.map_congr_left fun a ha => (hi.node_old a (ne_next h ha)).2.2
  rw [hi.level_eq, h.level_eq, ← hmap, List.map_append, List.map_append, List.map_cons,
    foldr_max_insert, hi.node_new.2.2]

/-- `score_map_` and the nodes get the new pair. -/
theorem scores (hi : Inserted sl sl' score member level pre post) (h : Inv sl (pre ++ post))
    (habsent : sl.scoreMap.lookup member = none) (m : Bytes) (s : Double) :
    sl'.scoreMap.lookup m = some s ↔ ∃ a ∈ pre ++ sl.next :: post,
      (sl'.heap.node a).member = m ∧ (sl'.heap.node a).score = s := by
  have hold : (∃ a ∈ pre ++ post, (sl'.heap.node a).member = m ∧ (sl'.heap.node a).score = s) ↔
      sl.scoreMap.lookup m = some s := by
    rw [h.scores]
    refine exists_congr fun a => and_congr_right fun ha => ?_
    rw [(hi.node_old a (ne_next h ha)).1, (hi.node_old a (ne_next h ha)).2.1]
  simp only [mem_iff, or_and_right, exists_or, exists_eq_left, hold, hi.node_new.1,
    hi.node_new.2.1, hi.scoreMap_eq, UnorderedMap.lookup_insert_eq]
  by_cases hm : m = member
  · rw [if_pos hm, hm, habsent]
    simp
  · rw [if_neg hm]
    simp [Ne.symm hm]

end Inserted

namespace Inv

/-- **Insertion keeps the invariant**: the new node stands between the nodes
before and behind its place. -/
theorem insertNode_inv (h : Inv sl (pre ++ post)) (hs : score.isNaN = false)
    (hpre : ∀ a ∈ pre, sl.heap.key a < toLex (score.ord, member))
    (hpost : ∀ a ∈ post, ¬ sl.heap.key a < toLex (score.ord, member))
    (habsent : sl.scoreMap.lookup member = none) :
    Inv (sl.insertNode score member level) (pre ++ sl.next :: post) := by
  have hi : Inserted sl _ score member level pre post := insertNode_inserted h hs hpre hpost
  generalize sl.insertNode score member level = sl' at hi
  have hperm : (sl.header :: (pre ++ sl.next :: post)).Perm
      (sl.next :: sl.header :: (pre ++ post)) :=
    (List.perm_middle.cons _).trans (List.Perm.swap _ _ _)
  -- a member of the list has another name, so the new key is not among the old ones
  have hafter : ∀ a ∈ post, toLex (score.ord, member) < sl.heap.key a := by
    intro a ha
    refine lt_of_le_of_ne (not_lt.mp (hpost a ha)) fun hkey => ?_
    have hm : member = (sl.heap.node a).member := congrArg (fun k => (ofLex k).2) hkey
    have hlookup := (h.scores member (sl.heap.node a).score).mpr
      ⟨a, List.mem_append_right pre ha, hm.symm, rfl⟩
    rw [habsent] at hlookup
    cases hlookup
  exact
  { nodup := by
      rw [hi.header_eq]
      exact hperm.nodup_iff.mpr (List.nodup_cons.mpr ⟨h.next_notMem, h.nodup⟩)
    alloc := fun a => by
      rw [hi.header_eq, hperm.mem_iff, List.mem_cons, ← h.alloc]
      exact hi.isSome_iff a
    fresh := fun a ha => by
      rw [hi.header_eq, hperm.mem_iff, List.mem_cons] at ha
      rw [hi.next_eq]
      rcases ha with rfl | ha
      · exact Nat.lt_succ_self _
      · exact Nat.lt_succ_of_lt (h.fresh a ha)
    header_height := by
      rw [hi.header_eq, (hi.node_old _ (h.ne_next List.mem_cons_self)).2.2, h.header_height]
    height := fun a ha => by
      rcases Inserted.mem_iff.mp ha with rfl | ha
      · rw [hi.node_new.2.2]
        exact level.2
      · rw [(hi.node_old a (Inserted.ne_next h ha)).2.2]
        exact h.height a ha
    notNaN := fun a ha => by
      rcases Inserted.mem_iff.mp ha with rfl | ha
      · rw [hi.node_new.1]
        exact hs
      · rw [(hi.node_old a (Inserted.ne_next h ha)).1]
        exact h.notNaN a ha
    sorted := hi.sorted h hpre hafter
    linked := fun j hj => hi.linked h hj
    mirrored := hi.mirrored h
    level_eq := hi.level_eq_foldr h
    size_eq := by rw [hi.size_eq, h.size_eq, List.perm_middle.length_eq, List.length_cons]
    scores := hi.scores h habsent }

end Inv

end insertNode

end SkipList

end RedisLike
