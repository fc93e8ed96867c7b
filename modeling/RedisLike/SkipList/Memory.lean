import RedisLike.Lib.Loop
import RedisLike.SkipList.Refine

/-!
# RedisLike.SkipList.Memory

The skip list with every access to its memory checked, and `~SkipList`.

`new` must not return an address that is in use.  A pointer of a node that is not
allocated, or of a level that the node does not have, leaves no result, and neither
does `delete` of such an address, nor an entry of `update` that was never set, nor a
loop that does not come to its end within its bound.  After any sequence of calls
there is a result all the same, the one of the unchecked functions, and the
destructor leaves no node behind (`run_safe`).
-/

namespace RedisLike

open Chain

namespace Heap

/-! ## Accesses -/

/-- `a->forward[i]`, when there is such a pointer. -/
def forwardAt (h : Heap) (i : Nat) (a : Addr) : Option (Option Addr) :=
  (h a).bind fun n => n.forward[i]?

/-- `a->forward[i] = v`. -/
def storeForward (h : Heap) (i : Nat) (a : Addr) (v : Option Addr) : Option Heap :=
  (h.forwardAt i a).map fun _ => h.setForward i a v

/-- `a->backward = v`. -/
def storeBackward (h : Heap) (a : Addr) (v : Option Addr) : Option Heap :=
  (h a).map fun _ => h.setBackward a v

/-- `new`, which returned `a`. -/
def alloc (h : Heap) (a : Addr) (n : SkipListNode) : Option Heap :=
  if (h a).isNone then some (Function.update h a (some n)) else none

/-- `delete a`. -/
def free (h : Heap) (a : Addr) : Option Heap := (h a).map fun _ => Function.update h a none

variable {h : Heap} {a b : Addr} {i : Nat}

/-- Only a node that is allocated has a height. -/
theorem isSome_of_lt_height (hi : i < h.height a) : (h a).isSome := by
  by_contra hnone
  rw [height, node, Option.not_isSome_iff_eq_none.mp hnone] at hi
  exact absurd hi (Nat.not_lt_zero i)

theorem forwardAt_eq (hi : i < h.height a) : h.forwardAt i a = some (h.forward i a) := by
  obtain ⟨n, hn⟩ := Option.isSome_iff_exists.mp (isSome_of_lt_height hi)
  rw [height, node, hn, Option.getD_some] at hi
  rw [forwardAt, forward, node, hn, Option.bind_some, Option.getD_some,
    List.getD_eq_getElem?_getD, List.getElem?_eq_getElem hi, Option.getD_some]

theorem storeForward_eq (hi : i < h.height a) (v : Option Addr) :
    h.storeForward i a v = some (h.setForward i a v) := by
  rw [storeForward, forwardAt_eq hi, Option.map_some]

theorem storeBackward_eq (ha : (h a).isSome) (v : Option Addr) :
    h.storeBackward a v = some (h.setBackward a v) := by
  obtain ⟨n, hn⟩ := Option.isSome_iff_exists.mp ha
  rw [storeBackward, hn, Option.map_some]

theorem free_eq (ha : (h a).isSome) : h.free a = some (Function.update h a none) := by
  obtain ⟨n, hn⟩ := Option.isSome_iff_exists.mp ha
  rw [free, hn, Option.map_some]

/-! ## Pointers that do not dangle -/

/-- Every pointer of a level points to a node that has the level. -/
def Closed (h : Heap) : Prop := ∀ i a b, h.forward i a = some b → i < h.height b

theorem Closed.setForward (hc : h.Closed) {v : Option Addr}
    (hv : ∀ c, v = some c → i < h.height c) : (h.setForward i a v).Closed := by
  intro j b c hb
  rw [(sameNodes_setForward h i a v).height]
  rw [forward_setForward] at hb
  split at hb
  · next hcond =>
    rw [hcond.2.1]
    exact hv c hb
  · exact hc j b c hb

theorem Closed.setBackward (hc : h.Closed) (ha : (h a).isSome) (v : Option Addr) :
    (h.setBackward a v).Closed := by
  intro j b c hb
  rw [(sameNodes_setBackward ha v).height]
  rw [forward_setBackward ha] at hb
  exact hc j b c hb

section alloc

variable {n : SkipListNode}

theorem height_alloc (hfree : h a = none) (hi : i < h.height b) :
    i < Heap.height (Function.update h a (some n)) b := by
  have hne : b ≠ a := by
    rintro rfl
    simpa [hfree] using isSome_of_lt_height hi
  rwa [height, node, Function.update_of_ne hne]

theorem Closed.alloc (hc : h.Closed) (hfree : h a = none)
    (hn : ∀ i, n.forward.getD i none = none) : Heap.Closed (Function.update h a (some n)) := by
  intro j b c hb
  by_cases hba : b = a
  · rw [hba, forward, node, Function.update_self, Option.getD_some, hn] at hb
    contradiction
  · rw [forward, node, Function.update_of_ne hba] at hb
    exact height_alloc hfree (hc j b c hb)

end alloc

end Heap

namespace SkipList

/-! ## The calls, checked -/

/-- `while (node->forward[i] && p(node->forward[i])) node = node->forward[i];` -/
def checkedWalk (heap : Heap) (i : Nat) (p : SkipListNode → Bool) : Nat → Addr → Option Addr
  | 0, _ => none
  | fuel + 1, a => do
    match ← heap.forwardAt i a with
    | none => some a
    | some b => if p (← heap b) then checkedWalk heap i p fuel b else some a

/-- The two loops of a search on level `i`. -/
def checkedSearchLevel (sl : SkipList) (score : Double) (member : Bytes) (i : Nat) (a : Addr) :
    Option Addr := do
  let node ← checkedWalk sl.heap i (fun n => n.score.lt score) sl.next a
  checkedWalk sl.heap i (fun n => n.score.eq score && n.member < member) sl.next node

/-- The search of `Insert` and `Delete`. -/
def checkedFindUpdate (sl : SkipList) (score : Double) (member : Bytes) :
    Nat → Addr → Option (List Addr)
  | 0, _ => some []
  | i + 1, a => do
    let node ← sl.checkedSearchLevel score member i a
    let update ← sl.checkedFindUpdate score member i node
    some (update ++ [node])

/-- One round of the linking loop of `Insert`. -/
def checkedLinkAt (update : List Addr) (newNode : Addr) (heap : Heap) (i : Nat) : Option Heap := do
  let pred ← update[i]?
  let heap ← heap.storeForward i newNode (← heap.forwardAt i pred)
  heap.storeForward i pred (some newNode)

/-- The backward pointer behind the new node. -/
def checkedLinkBackward (newNode : Addr) (heap : Heap) (tail : Option Addr) :
    Option (Heap × Option Addr) := do
  match ← heap.forwardAt 0 newNode with
  | some b =>
    let heap ← heap.storeBackward b (some newNode)
    some (heap, tail)
  | none => some (heap, some newNode)

/-- `Insert` from the search on. -/
def checkedInsertNode (sl : SkipList) (score : Double) (member : Bytes) (level : Level) :
    Option SkipList := do
  let found ← sl.checkedFindUpdate score member sl.level sl.header
  let update := found ++ List.replicate (level.1 - sl.level) sl.header
  let newNode := sl.next
  let heap ← sl.heap.alloc newNode ⟨score, member, List.replicate level.1 none, none⟩
  let heap ← (List.range level.1).foldlM (checkedLinkAt update newNode) heap
  let first ← update[0]?
  let heap ← heap.storeBackward newNode (if first = sl.header then none else some first)
  let back ← checkedLinkBackward newNode heap sl.tail
  some
    { heap := back.1
      tail := back.2
      next := sl.next + 1
      header := sl.header
      level := max sl.level level.1
      size := sl.size + 1
      scoreMap := sl.scoreMap.insert member score }

/-- One round of the unlinking loop of `Delete`. -/
def checkedUnlinkAt (update : List Addr) (node : Addr) (heap : Heap) (i : Nat) : Option Heap := do
  let pred ← update[i]?
  if (← heap.forwardAt i pred) = some node then
    let next ← heap.forwardAt i node
    heap.storeForward i pred next
  else some heap

/-- The backward pointer behind the removed node. -/
def checkedUnlinkBackward (node : Addr) (heap : Heap) (tail : Option Addr) :
    Option (Heap × Option Addr) := do
  let removed ← heap node
  match ← heap.forwardAt 0 node with
  | some b =>
    let heap ← heap.storeBackward b removed.backward
    some (heap, tail)
  | none => some (heap, removed.backward)

/-- The loop that lowers `level_`. -/
def checkedShrinkLevel (heap : Heap) (header : Addr) : Nat → Option Nat
  | 0 => some 0
  | 1 => some 1
  | n + 2 => do
    if (← heap.forwardAt (n + 1) header) = none then checkedShrinkLevel heap header (n + 1)
    else some (n + 2)

/-- `Delete` from the unlinking loop on. -/
def checkedDeleteNode (sl : SkipList) (update : List Addr) (node : Addr) : Option SkipList := do
  let heap ← (List.range sl.level).foldlM (checkedUnlinkAt update node) sl.heap
  let back ← checkedUnlinkBackward node heap sl.tail
  let level ← checkedShrinkLevel back.1 sl.header sl.level
  let heap ← back.1.free node
  some { sl with tail := back.2, level := level, heap := heap, size := sl.size - 1 }

/-- `SkipList::Delete`. -/
def checkedDelete (sl : SkipList) (member : Bytes) : Option (Bool × SkipList) :=
  match sl.scoreMap.lookup member with
  | none => some (false, sl)
  | some score => do
    let erased := { sl with scoreMap := sl.scoreMap.erase member }
    let update ← sl.checkedFindUpdate score member sl.level sl.header
    match ← sl.heap.forwardAt 0 (← update[0]?) with
    | none => some (false, erased)
    | some node =>
      if (← sl.heap node).member ≠ member then some (false, erased)
      else
        let deleted ← erased.checkedDeleteNode update node
        some (true, deleted)

/-- `SkipList::Insert`. -/
def checkedInsert (sl : SkipList) (score : Double) (member : Bytes) (level : Level) :
    Option (Bool × SkipList) :=
  match sl.scoreMap.lookup member with
  | some old =>
    if old.eq score then some (false, sl)
    else do
      let deleted ← sl.checkedDelete member
      let inserted ← deleted.2.checkedInsertNode score member level
      some (true, inserted)
  | none => do
    let inserted ← sl.checkedInsertNode score member level
    some (true, inserted)

/-- The loop of the queries: `for (; node; node = node->forward[0])`. -/
def checkedFollow (heap : Heap) : Nat → Option Addr → Option (List Addr)
  | _, none => some []
  | 0, some _ => none
  | fuel + 1, some a => do
    let next ← heap.forwardAt 0 a
    let rest ← checkedFollow heap fuel next
    some (a :: rest)

/-- The nodes that the queries visit. -/
def checkedChain (sl : SkipList) : Option (List Addr) := do
  let first ← sl.heap.forwardAt 0 sl.header
  checkedFollow sl.heap sl.next first

/-- The loop of `~SkipList`. -/
def destroyLoop : Nat → Option Addr → Heap → Option Heap
  | _, none, heap => some heap
  | 0, some _, _ => none
  | fuel + 1, some a, heap => do
    let next ← heap.forwardAt 0 a
    let heap ← heap.free a
    destroyLoop fuel next heap

/-- `SkipList::~SkipList`: the heap it leaves. -/
def destroy (sl : SkipList) : Option Heap := destroyLoop sl.next (some sl.header) sl.heap

/-! ## The search -/

theorem checkedWalk_eq {heap : Heap} {i : Nat} (p : SkipListNode → Bool) {fuel : Nat} {a : Addr}
    {l : List Addr} (hchain : Linked (heap.forward i) a l) (hhas : ∀ x ∈ a :: l, i < heap.height x)
    (hfuel : l.length < fuel) : ∃ b ∈ a :: l, checkedWalk heap i p fuel a = some b ∧
      walk (heap.forward i) (fun x => p (heap.node x)) fuel a = b := by
  induction l generalizing a fuel with
  | nil =>
      obtain ⟨fuel, rfl⟩ := Nat.exists_eq_add_one_of_ne_zero (Nat.ne_zero_of_lt hfuel)
      have hnext : heap.forward i a = none := hchain
      refine ⟨a, List.mem_cons_self, ?_, ?_⟩
      · rw [checkedWalk, Heap.forwardAt_eq (hhas a List.mem_cons_self), hnext]
        rfl
      · rw [walk, hnext]
  | cons b l ih =>
      obtain ⟨fuel, rfl⟩ := Nat.exists_eq_add_one_of_ne_zero (Nat.ne_zero_of_lt hfuel)
      obtain ⟨hnext, hrest⟩ := hchain
      rw [List.forall_mem_cons] at hhas
      have hb : heap b = some (heap.node b) := by
        obtain ⟨n, hn⟩ := Option.isSome_iff_exists.mp
          (Heap.isSome_of_lt_height (hhas.2 b List.mem_cons_self))
        rw [Heap.node, hn, Option.getD_some]
      rw [checkedWalk, Heap.forwardAt_eq hhas.1, hnext, walk, hnext]
      simp only [Option.bind_eq_bind, Option.bind_some, hb]
      by_cases hp : p (heap.node b) = true
      · obtain ⟨c, hc, hcheck, hwalk⟩ := ih hrest hhas.2 (by simpa using hfuel)
        exact ⟨c, List.mem_cons_of_mem a hc, by rw [if_pos hp, hcheck], by rw [if_pos hp, hwalk]⟩
      · exact ⟨a, List.mem_cons_self, if_neg hp, if_neg hp⟩

/-- Every entry of `update` below `n` is set, to a node that has the level. -/
def Climbs (heap : Heap) (update : List Addr) (n : Nat) : Prop :=
  ∀ j < n, ∃ a, update[j]? = some a ∧ j < heap.height a

namespace Inv

variable {sl : SkipList} {nodes : List Addr} {a : Addr} {i : Nat}

theorem length_lt (h : Inv sl nodes) : nodes.length < sl.next := by
  have hsub : sl.header :: nodes ⊆ List.range sl.next := fun a ha =>
    List.mem_range.mpr (h.fresh a ha)
  simpa using (h.nodup.subperm hsub).length_le

/-- From every node of a level the level goes on to its end. -/
theorem exists_chain (h : Inv sl nodes) (ha : a ∈ sl.header :: nodes)
    (hi : i < sl.heap.height a) : ∃ l, Linked (sl.heap.forward i) a l ∧
      (∀ x ∈ l, x ∈ nodes ∧ i < sl.heap.height x) ∧ l.length < sl.next := by
  have hlevel : ∀ l : List Addr, l.Sublist (sl.onLevel i nodes) →
      (∀ x ∈ l, x ∈ nodes ∧ i < sl.heap.height x) ∧ l.length < sl.next := by
    intro l hl
    refine ⟨fun x hx => ?_, ?_⟩
    · have hmem := List.mem_filter.mp (hl.subset hx)
      exact ⟨hmem.1, of_decide_eq_true hmem.2⟩
    · have hle := (hl.trans List.filter_sublist).length_le
      have := h.length_lt
      omega
  rcases List.mem_cons.mp ha with rfl | hmem
  · rw [h.header_height] at hi
    exact ⟨_, h.linked i hi, hlevel _ (List.Sublist.refl _)⟩
  · have hmax : i < kMaxLevel := lt_of_lt_of_le hi (h.height a hmem).2
    obtain ⟨l₁, l₂, hl⟩ := List.append_of_mem (List.mem_filter.mpr ⟨hmem, decide_eq_true hi⟩ :
      a ∈ sl.onLevel i nodes)
    have hchain := h.linked i hmax
    rw [show sl.onLevel i nodes = l₁ ++ a :: l₂ from hl] at hchain
    refine ⟨l₂, hchain.drop.2, hlevel l₂ ?_⟩
    rw [show sl.onLevel i nodes = l₁ ++ a :: l₂ from hl]
    exact (List.sublist_cons_self a l₂).trans (List.sublist_append_right l₁ _)

/-- No pointer of the list dangles. -/
theorem closed (h : Inv sl nodes) : sl.heap.Closed := by
  intro i a b hb
  have hi : i < sl.heap.height a := by
    by_contra hle
    rw [Heap.forward, List.getD_eq_getElem?_getD, List.getElem?_eq_none (not_lt.mp hle)] at hb
    contradiction
  obtain ⟨l, hchain, hl, -⟩ := h.exists_chain ((h.alloc a).mp (Heap.isSome_of_lt_height hi)) hi
  exact (hl b (List.mem_of_head? (hchain.next_eq.symm.trans hb))).2

theorem checkedSearchLevel_eq (h : Inv sl nodes) (score : Double) (member : Bytes)
    (ha : a ∈ sl.header :: nodes) (hi : i < sl.heap.height a) :
    ∃ b ∈ sl.header :: nodes, i < sl.heap.height b ∧
      sl.checkedSearchLevel score member i a = some b ∧ sl.searchLevel score member i a = b := by
  have hwalk : ∀ (p : SkipListNode → Bool) (a : Addr), a ∈ sl.header :: nodes →
      i < sl.heap.height a → ∃ b ∈ sl.header :: nodes, i < sl.heap.height b ∧
        checkedWalk sl.heap i p sl.next a = some b ∧
        walk (sl.heap.forward i) (fun x => p (sl.heap.node x)) sl.next a = b := by
    intro p a ha hi
    obtain ⟨l, hchain, hl, hlen⟩ := h.exists_chain ha hi
    obtain ⟨b, hb, hcheck, heq⟩ := checkedWalk_eq p hchain
      (List.forall_mem_cons.mpr ⟨hi, fun x hx => (hl x hx).2⟩) hlen
    rcases List.mem_cons.mp hb with rfl | hb
    · exact ⟨b, ha, hi, hcheck, heq⟩
    · exact ⟨b, List.mem_cons_of_mem _ (hl b hb).1, (hl b hb).2, hcheck, heq⟩
  obtain ⟨b, hb, hib, hcheck, heq⟩ := hwalk (fun n => n.score.lt score) a ha hi
  obtain ⟨c, hc, hic, hcheck', heq'⟩ :=
    hwalk (fun n => n.score.eq score && n.member < member) b hb hib
  refine ⟨c, hc, hic, ?_, ?_⟩
  · rw [checkedSearchLevel, hcheck]
    exact hcheck'
  · rw [searchLevel, heq]
    exact heq'

/-- **The search** stays within the list. -/
theorem checkedFindUpdate_eq (h : Inv sl nodes) (score : Double) (member : Bytes)
    (ha : a ∈ sl.header :: nodes) (hi : i ≤ sl.heap.height a) :
    sl.checkedFindUpdate score member i a = some (sl.findUpdate score member i a) ∧
      (sl.findUpdate score member i a).length = i ∧
      Climbs sl.heap (sl.findUpdate score member i a) i := by
  induction i generalizing a with
  | zero => exact ⟨rfl, rfl, fun j hj => absurd hj (Nat.not_lt_zero j)⟩
  | succ i ih =>
      obtain ⟨b, hb, hib, hcheck, heq⟩ := h.checkedSearchLevel_eq score member ha hi
      obtain ⟨hrest, hlen, hclimbs⟩ := ih hb hib.le
      rw [checkedFindUpdate, findUpdate, hcheck, heq]
      simp only [Option.bind_eq_bind, Option.bind_some, hrest]
      refine ⟨trivial, by rw [List.length_append, hlen]; rfl, fun j hj => ?_⟩
      rcases Nat.lt_succ_iff_lt_or_eq.mp hj with hj | rfl
      · rw [List.getElem?_append_left (by omega)]
        exact hclimbs j hj
      · exact ⟨b, by rw [List.getElem?_append_right hlen.le, hlen, Nat.sub_self]; rfl, hib⟩

end Inv

/-! ## `Insert` -/

theorem Climbs.of_height {heap heap' : Heap} {update : List Addr} {n : Nat}
    (h : Climbs heap update n)
    (hheight : ∀ a j, j < heap.height a → j < heap'.height a) : Climbs heap' update n :=
  fun j hj => (h j hj).imp fun a ha => ⟨ha.1, hheight a j ha.2⟩

/-- A round of the linking loop leaves no pointer dangling. -/
theorem checkedLinkAt_eq {heap : Heap} {update : List Addr} {header newNode : Addr} {i n : Nat}
    (hclosed : heap.Closed) (hclimbs : Climbs heap update n) (hnew : n ≤ heap.height newNode)
    (hi : i < n) :
    checkedLinkAt update newNode heap i = some (linkAt update header newNode heap i) ∧
      (linkAt update header newNode heap i).Closed ∧
      heap.SameNodes (linkAt update header newNode heap i) := by
  obtain ⟨a, hget, ha⟩ := hclimbs i hi
  have hupdate : update.getD i header = a := by rw [List.getD_eq_getElem?_getD, hget]; rfl
  have hsame := Heap.sameNodes_setForward heap i newNode (heap.forward i a)
  have hclosed' := hclosed.setForward (a := newNode) fun c hc => hclosed i a c hc
  rw [linkAt, hupdate]
  refine ⟨?_, hclosed'.setForward fun c hc => ?_, hsame.trans (Heap.sameNodes_setForward _ i a _)⟩
  · rw [checkedLinkAt, hget]
    simp only [Option.bind_eq_bind, Option.bind_some]
    rw [Heap.forwardAt_eq ha, Option.bind_some, Heap.storeForward_eq (by omega), Option.bind_some,
      Heap.storeForward_eq (by rwa [hsame.height])]
  · obtain rfl := Option.some.inj hc
    rw [hsame.height]
    omega

theorem checkedLinkBackward_eq {newNode : Addr} {heap : Heap} (tail : Option Addr)
    (hclosed : heap.Closed) (hnew : 0 < heap.height newNode) :
    checkedLinkBackward newNode heap tail = some (linkBackward newNode heap tail) := by
  rw [checkedLinkBackward, linkBackward, Heap.forwardAt_eq hnew]
  simp only [Option.bind_eq_bind, Option.bind_some]
  cases hb : heap.forward 0 newNode with
  | none => rfl
  | some b =>
      simp only [Heap.storeBackward_eq (Heap.isSome_of_lt_height (hclosed 0 newNode b hb))]
      rfl

/-- **`Insert` from the search on** stays within its memory, whatever the score. -/
theorem Inv.checkedInsertNode_eq {sl : SkipList} {nodes : List Addr} (h : Inv sl nodes)
    (score : Double) (member : Bytes) (level : Level) :
    sl.checkedInsertNode score member level = some (sl.insertNode score member level) := by
  obtain ⟨hfind, hlen, hclimbs⟩ := h.checkedFindUpdate_eq score member List.mem_cons_self
    (h.header_height.symm ▸ h.level_le)
  have hfree : sl.heap sl.next = none := by
    by_contra hsome
    exact h.next_notMem ((h.alloc _).mp (Option.isSome_iff_ne_none.mpr hsome))
  set update := sl.findUpdate score member sl.level sl.header ++
    List.replicate (level.1 - sl.level) sl.header with hupdate
  set new : SkipListNode := ⟨score, member, List.replicate level.1 none, none⟩ with hnew
  set heap : Heap := Function.update sl.heap sl.next (some new) with hheap
  have hall : Climbs sl.heap update level.1 := by
    intro j hj
    by_cases hjl : j < sl.level
    · rw [hupdate, List.getElem?_append_left (by omega)]
      exact hclimbs j hjl
    · refine ⟨sl.header, ?_, ?_⟩
      · rw [hupdate, List.getElem?_append_right (by omega), hlen, List.getElem?_replicate,
          if_pos (by omega)]
      · rw [h.header_height]
        exact lt_of_lt_of_le hj level.2.2
  have hall' : Climbs heap update level.1 := hall.of_height fun a j => Heap.height_alloc hfree
  have hheight : heap.height sl.next = level.1 := by
    rw [hheap, Heap.height, Heap.node, Function.update_self, Option.getD_some,
      List.length_replicate]
  have hclosed : heap.Closed := h.closed.alloc hfree fun i => by
    rw [hnew, List.getD_eq_getElem?_getD, List.getElem?_replicate]
    split <;> rfl
  obtain ⟨hloop, hclosed', hsame⟩ := @foldlM_eq_some _ _ (linkAt update sl.header sl.next)
    (checkedLinkAt update sl.next) (fun heap' => heap'.Closed ∧ heap.SameNodes heap')
    (List.range level.1) (fun i hi heap' hinv => by
      have hs := hinv.2
      obtain ⟨heq, hc', hs'⟩ := @checkedLinkAt_eq heap' update sl.header sl.next i level.1 hinv.1
        (hall'.of_height fun a j hj => (hs.height a).symm ▸ hj) (hs.height _ ▸ hheight.ge)
        (List.mem_range.mp hi)
      exact ⟨heq, hc', hs.trans hs'⟩) heap ⟨hclosed, Heap.SameNodes.refl heap⟩
  set linked := (List.range level.1).foldl (linkAt update sl.header sl.next) heap
  obtain ⟨first, hfirst, -⟩ := hall 0 level.2.1
  have hfirst' : update.getD 0 sl.header = first := by
    rw [List.getD_eq_getElem?_getD, hfirst]
    rfl
  have hpos : 0 < linked.height sl.next := by
    rw [hsame.height, hheight]
    exact level.2.1
  have hsome := Heap.isSome_of_lt_height hpos
  have hback := Heap.sameNodes_setBackward hsome (if first = sl.header then none else some first)
  rw [checkedInsertNode, hfind]
  simp only [Option.bind_eq_bind, Option.bind_some]
  rw [← hupdate, ← hnew, Heap.alloc, hfree, Option.isNone_none, if_pos rfl, ← hheap,
    Option.bind_some, hloop, Option.bind_some, hfirst, Option.bind_some,
    Heap.storeBackward_eq hsome, Option.bind_some,
    checkedLinkBackward_eq _ (hclosed'.setBackward hsome _) (by rwa [hback.height]),
    Option.bind_some, insertNode, ← hupdate, hfirst']

/-! ## `Delete` -/

/-- A round of the unlinking loop leaves no pointer dangling. -/
theorem checkedUnlinkAt_eq {heap : Heap} {update : List Addr} {header node : Addr} {i n : Nat}
    (hclosed : heap.Closed) (hclimbs : Climbs heap update n) (hi : i < n) :
    checkedUnlinkAt update node heap i = some (unlinkAt update header node heap i) ∧
      (unlinkAt update header node heap i).Closed ∧
      heap.SameNodes (unlinkAt update header node heap i) := by
  obtain ⟨a, hget, ha⟩ := hclimbs i hi
  have hupdate : update.getD i header = a := by rw [List.getD_eq_getElem?_getD, hget]; rfl
  rw [checkedUnlinkAt, unlinkAt, hget, hupdate]
  simp only [Option.bind_eq_bind, Option.bind_some, Heap.forwardAt_eq ha]
  by_cases hnode : heap.forward i a = some node
  · rw [if_pos hnode, if_pos hnode, Heap.forwardAt_eq (hclosed i a node hnode), Option.bind_some,
      Heap.storeForward_eq ha]
    exact ⟨rfl, hclosed.setForward fun c hc => hclosed i node c hc,
      Heap.sameNodes_setForward heap i a _⟩
  · rw [if_neg hnode, if_neg hnode]
    exact ⟨rfl, hclosed, Heap.SameNodes.refl heap⟩

theorem checkedUnlinkBackward_eq {node : Addr} {heap : Heap} (tail : Option Addr)
    (hclosed : heap.Closed) (hnode : 0 < heap.height node) :
    checkedUnlinkBackward node heap tail = some (unlinkBackward node heap tail) ∧
      heap.SameNodes (unlinkBackward node heap tail).1 := by
  obtain ⟨n, hn⟩ := Option.isSome_iff_exists.mp (Heap.isSome_of_lt_height hnode)
  have hback : (heap.node node).backward = n.backward := by
    rw [Heap.node, hn, Option.getD_some]
  rw [checkedUnlinkBackward, unlinkBackward, hn, Heap.forwardAt_eq hnode, hback]
  simp only [Option.bind_eq_bind, Option.bind_some]
  cases hb : heap.forward 0 node with
  | none => exact ⟨rfl, Heap.SameNodes.refl heap⟩
  | some b =>
      have hsome := Heap.isSome_of_lt_height (hclosed 0 node b hb)
      simp only [Heap.storeBackward_eq hsome]
      exact ⟨rfl, Heap.sameNodes_setBackward hsome _⟩

theorem checkedShrinkLevel_eq {heap : Heap} {header : Addr} {n : Nat}
    (hn : n ≤ heap.height header) :
    checkedShrinkLevel heap header n = some (shrinkLevel heap header n) := by
  induction n with
  | zero => rfl
  | succ n ih =>
      cases n with
      | zero => rfl
      | succ n =>
          rw [checkedShrinkLevel, shrinkLevel, Heap.forwardAt_eq (by omega)]
          simp only [Option.bind_eq_bind, Option.bind_some]
          by_cases hnone : heap.forward (n + 1) header = none
          · rw [if_pos hnone, if_pos hnone]
            exact ih (by omega)
          · rw [if_neg hnone, if_neg hnone]

/-- **`Delete`** stays within its memory. -/
theorem Inv.checkedDelete_eq {sl : SkipList} {nodes : List Addr} (h : Inv sl nodes)
    (member : Bytes) : sl.checkedDelete member = some (sl.delete member) := by
  rw [checkedDelete, delete]
  cases hscore : sl.scoreMap.lookup member with
  | none => rfl
  | some score =>
      obtain ⟨hfind, -, hclimbs⟩ := h.checkedFindUpdate_eq score member List.mem_cons_self
        (h.header_height.symm ▸ h.level_le)
      simp only [Option.bind_eq_bind, hfind, Option.bind_some]
      generalize sl.findUpdate score member sl.level sl.header = update at *
      obtain ⟨first, hfirst, hpos⟩ := hclimbs 0 h.level_pos
      have hfirst' : update.getD 0 sl.header = first := by
        rw [List.getD_eq_getElem?_getD, hfirst]
        rfl
      simp only [hfirst, hfirst', Option.bind_some, Heap.forwardAt_eq hpos]
      cases hnode : sl.heap.forward 0 first with
      | none => rfl
      | some node =>
          have hheight : 0 < sl.heap.height node := h.closed 0 first node hnode
          obtain ⟨n, hn⟩ := Option.isSome_iff_exists.mp (Heap.isSome_of_lt_height hheight)
          have hmember : (sl.heap.node node).member = n.member := by
            rw [Heap.node, hn, Option.getD_some]
          simp only [hn, Option.bind_some, hmember]
          by_cases hne : n.member ≠ member
          · rw [if_pos hne, if_pos hne]
          rw [if_neg hne, if_neg hne]
          obtain ⟨hloop, hclosed, hsame⟩ := @foldlM_eq_some _ _ (unlinkAt update sl.header node)
            (checkedUnlinkAt update node) (fun heap => heap.Closed ∧ sl.heap.SameNodes heap)
            (List.range sl.level) (fun i hi heap ⟨hc, hs⟩ => by
              obtain ⟨heq, hc', hs'⟩ := @checkedUnlinkAt_eq heap update sl.header node i sl.level hc
                (hclimbs.of_height fun a j hj => (hs.height a).symm ▸ hj) (List.mem_range.mp hi)
              exact ⟨heq, hc', hs.trans hs'⟩) sl.heap ⟨h.closed, Heap.SameNodes.refl sl.heap⟩
          obtain ⟨hback, hsame'⟩ := checkedUnlinkBackward_eq sl.tail hclosed
            (by rwa [hsame.height])
          have hall := hsame.trans hsame'
          simp only [checkedDeleteNode, Option.bind_eq_bind]
          rw [hloop, Option.bind_some, hback, Option.bind_some,
            checkedShrinkLevel_eq (by rw [hall.height, h.header_height]; exact h.level_le),
            Option.bind_some, Heap.free_eq (by rw [hall.isSome, hn]; rfl)]
          rfl

/-- **`Insert`** stays within its memory. -/
theorem Inv.checkedInsert_eq {sl : SkipList} {nodes : List Addr} (h : Inv sl nodes)
    (score : Double) (member : Bytes) (level : Level) :
    sl.checkedInsert score member level = some (sl.insert score member level) := by
  rw [checkedInsert, insert]
  cases sl.scoreMap.lookup member with
  | none =>
      simp only [Option.bind_eq_bind, h.checkedInsertNode_eq, Option.bind_some]
  | some old =>
      by_cases hold : old.eq score = true
      · simp only [if_pos hold]
      · simp only [if_neg hold, Option.bind_eq_bind, h.checkedDelete_eq, Option.bind_some,
          (delete_valid ⟨nodes, h⟩ member).inv.checkedInsertNode_eq]

/-! ## The queries and the destructor -/

theorem checkedFollow_eq {heap : Heap} {a : Addr} {l : List Addr} {fuel : Nat}
    (hchain : Linked (heap.forward 0) a l) (hhas : ∀ x ∈ l, 0 < heap.height x)
    (hfuel : l.length ≤ fuel) : checkedFollow heap fuel (heap.forward 0 a) = some l := by
  induction l generalizing a fuel with
  | nil =>
      have hnext : heap.forward 0 a = none := hchain
      rw [hnext]
      cases fuel <;> rfl
  | cons b l ih =>
      obtain ⟨fuel, rfl⟩ := Nat.exists_eq_add_one_of_ne_zero (Nat.ne_zero_of_lt hfuel)
      rw [List.forall_mem_cons] at hhas
      rw [hchain.1, checkedFollow, Heap.forwardAt_eq hhas.1]
      simp only [Option.bind_eq_bind, Option.bind_some,
        ih hchain.2 hhas.2 (by simpa using hfuel)]

theorem Inv.checkedChain_eq {sl : SkipList} {nodes : List Addr} (h : Inv sl nodes) :
    sl.checkedChain = some sl.chain := by
  have hpos : 0 < sl.heap.height sl.header := h.header_height.symm ▸ by decide
  have hchain := h.linked 0 (by decide)
  rw [h.onLevel_zero (List.Subset.refl nodes)] at hchain
  rw [checkedChain, Heap.forwardAt_eq hpos, h.chain_eq]
  exact checkedFollow_eq hchain (fun x hx => (h.height x hx).1) h.length_le

/-- The loop deletes every node of the chain once, and nothing else. -/
theorem destroyLoop_eq {heap : Heap} {a : Addr} {l : List Addr} {fuel : Nat}
    (hchain : Linked (heap.forward 0) a l) (hnodup : (a :: l).Nodup)
    (hhas : ∀ x ∈ a :: l, 0 < heap.height x) (hfuel : l.length < fuel) :
    destroyLoop fuel (some a) heap = some fun x => if x ∈ a :: l then none else heap x := by
  induction l generalizing a heap fuel with
  | nil =>
      obtain ⟨fuel, rfl⟩ := Nat.exists_eq_add_one_of_ne_zero (Nat.ne_zero_of_lt hfuel)
      have ha := hhas a List.mem_cons_self
      have hnext : heap.forward 0 a = none := hchain
      rw [destroyLoop, Heap.forwardAt_eq ha, hnext, Heap.free_eq (Heap.isSome_of_lt_height ha)]
      simp only [Option.bind_eq_bind, Option.bind_some, destroyLoop, List.mem_singleton]
      congr 1
      funext x
      rw [Function.update_apply]
  | cons b l ih =>
      obtain ⟨fuel, rfl⟩ := Nat.exists_eq_add_one_of_ne_zero (Nat.ne_zero_of_lt hfuel)
      obtain ⟨hnotMem, hnodup'⟩ := List.nodup_cons.mp hnodup
      rw [List.forall_mem_cons] at hhas
      have hkept : ∀ x ∈ b :: l, Heap.node (Function.update heap a none) x = heap.node x := by
        intro x hx
        rw [Heap.node, Function.update_of_ne (by rintro rfl; exact hnotMem hx), Heap.node]
      have hchain' : Linked (Heap.forward (Function.update heap a none) 0) b l :=
        hchain.2.congr fun x hx => by rw [Heap.forward, hkept x hx, Heap.forward]
      rw [destroyLoop, Heap.forwardAt_eq hhas.1, hchain.1,
        Heap.free_eq (Heap.isSome_of_lt_height hhas.1)]
      simp only [Option.bind_eq_bind, Option.bind_some]
      rw [ih hchain' hnodup' (fun x hx => by rw [Heap.height, hkept x hx]; exact hhas.2 x hx)
        (by simpa using hfuel)]
      congr 1
      funext x
      by_cases hx : x ∈ b :: l
      · rw [if_pos hx, if_pos (List.mem_cons_of_mem a hx)]
      · rw [if_neg hx, Function.update_apply]
        by_cases hxa : x = a
        · rw [if_pos hxa, if_pos (hxa ▸ List.mem_cons_self)]
        · rw [if_neg hxa, if_neg (by rw [List.mem_cons, not_or]; exact ⟨hxa, hx⟩)]

/-- **`~SkipList`** leaves no node behind. -/
theorem Inv.destroy_eq {sl : SkipList} {nodes : List Addr} (h : Inv sl nodes) :
    sl.destroy = some fun _ => none := by
  have hchain := h.linked 0 (by decide)
  rw [h.onLevel_zero (List.Subset.refl nodes)] at hchain
  rw [destroy, destroyLoop_eq hchain h.nodup (List.forall_mem_cons.mpr
    ⟨h.header_height.symm ▸ by decide, fun x hx => (h.height x hx).1⟩) h.length_lt]
  congr 1
  funext x
  by_cases hx : x ∈ sl.header :: nodes
  · exact if_pos hx
  · rw [if_neg hx]
    exact Option.not_isSome_iff_eq_none.mp fun hsome => hx ((h.alloc x).mp hsome)

/-! ## Runs -/

/-- The list after a call. -/
def checkedStep (sl : SkipList) : Call → Option SkipList
  | .insert score member level => (sl.checkedInsert score.1 member level).map Prod.snd
  | .delete member => (sl.checkedDelete member).map Prod.snd

/-- The list after a sequence of calls. -/
def checkedRun (calls : List Call) : Option SkipList := calls.foldlM checkedStep new

theorem Valid.checkedStep_eq {sl : SkipList} (h : sl.Valid) (call : Call) :
    sl.checkedStep call = some (sl.step call) ∧ (sl.step call).Valid := by
  obtain ⟨nodes, hinv⟩ := id h
  cases call with
  | insert score member level =>
      refine ⟨?_, insert_valid h member level score.2⟩
      rw [checkedStep, hinv.checkedInsert_eq, Option.map_some, step]
  | delete member =>
      refine ⟨?_, delete_valid h member⟩
      rw [checkedStep, hinv.checkedDelete_eq, Option.map_some, step]

/-- **The skip list is safe with its memory.**  In every sequence of calls, each access
of `Insert` and `Delete` is to an allocated node and to a level that the node has;
so are those of the queries behind it; and then the destructor deletes every node
once and leaves none. -/
theorem run_safe (calls : List Call) :
    checkedRun calls = some (run calls) ∧ (run calls).checkedChain = some (run calls).chain ∧
      (run calls).destroy = some fun _ => none := by
  obtain ⟨hrun, hvalid⟩ := foldlM_eq_some (fun call _ _ h => h.checkedStep_eq call) valid_new
    (l := calls)
  obtain ⟨nodes, hinv⟩ := hvalid
  exact ⟨hrun, hinv.checkedChain_eq, hinv.destroy_eq⟩

end SkipList

end RedisLike
