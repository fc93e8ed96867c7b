import RedisLike.Double
import RedisLike.Lib.Chain
import RedisLike.Lib.Unordered

/-!
# RedisLike.SkipList.Basic

The skip list of `ds/skiplist.h` and `ds/skiplist.cpp`, with its nodes on a
heap: `forward` and `backward` hold addresses, `new` takes the next address
and `delete` clears one.

A loop over a chain is bounded by the number of addresses handed out so far,
which no chain can exceed.  `span` and the `rank` array feed nothing that any
function reads, and are left out.
-/

namespace RedisLike

/-- `SkipList::kMaxLevel`. -/
def kMaxLevel : Nat := 32

/-- The outcome of one `RandomLevel()` call. -/
abbrev Level := { n : Nat // 1 ≤ n ∧ n ≤ kMaxLevel }

/-- `SkipList::RandomLevel`: one more level for each of the next random words
whose two low bits are 0, up to `kMaxLevel`. -/
def randomLevel (rng : Nat → Nat) : Level := go (kMaxLevel - 1) ⟨1, by decide⟩
where
  go : Nat → Level → Level
  | 0, level => level
  | fuel + 1, level =>
    if h : level.1 < kMaxLevel ∧ rng (level.1 - 1) % 4 = 0 then
      go fuel ⟨level.1 + 1, by omega, by omega⟩
    else level

/-- The address of a node. -/
abbrev Addr := Nat

/-- `SkipListNode`. -/
structure SkipListNode where
  score : Double
  member : Bytes
  forward : List (Option Addr)
  backward : Option Addr

/-! ## The heap of nodes -/

/-- The allocated nodes. -/
abbrev Heap := Addr → Option SkipListNode

namespace Heap

/-- `*a`; the list never follows an address that is not allocated. -/
def node (h : Heap) (a : Addr) : SkipListNode :=
  (h a).getD ⟨Double.ofMagnitude false 0, [], [], none⟩

/-- `a->forward[i]`. -/
def forward (h : Heap) (i : Nat) (a : Addr) : Option Addr := (h.node a).forward.getD i none

/-- `a->forward[i] = v`. -/
def setForward (h : Heap) (i : Nat) (a : Addr) (v : Option Addr) : Heap :=
  Function.update h a ((h a).map fun n => { n with forward := n.forward.set i v })

/-- `a->backward = v`. -/
def setBackward (h : Heap) (a : Addr) (v : Option Addr) : Heap :=
  Function.update h a ((h a).map fun n => { n with backward := v })

/-! ### What the two writes change -/

theorem node_setForward (h : Heap) (i : Nat) (a b : Addr) (v : Option Addr) :
    (h.setForward i a v).node b =
      if b = a then { h.node a with forward := (h.node a).forward.set i v } else h.node b := by
  unfold setForward node
  by_cases hb : b = a
  · subst hb
    cases h b <;> simp
  · simp [hb]

theorem forward_setForward (h : Heap) (i j : Nat) (a b : Addr) (v : Option Addr) :
    (h.setForward i a v).forward j b =
      if b = a ∧ j = i ∧ i < (h.node a).forward.length then v else h.forward j b := by
  unfold forward
  rw [node_setForward]
  by_cases hb : b = a
  · subst hb
    simp only [if_true, List.getD_eq_getElem?_getD, List.getElem?_set]
    by_cases hj : i = j
    · subst hj
      by_cases hl : i < (h.node b).forward.length
      · simp [hl]
      · simp [hl]
    · simp [hj, Ne.symm hj]
  · simp [hb]

theorem isSome_setForward (h : Heap) (i : Nat) (a b : Addr) (v : Option Addr) :
    ((h.setForward i a v) b).isSome = (h b).isSome := by
  unfold setForward
  by_cases hb : b = a
  · subst hb; simp
  · simp [hb]

theorem node_setBackward {h : Heap} {a : Addr} (ha : (h a).isSome) (b : Addr) (v : Option Addr) :
    (h.setBackward a v).node b =
      if b = a then { h.node a with backward := v } else h.node b := by
  unfold setBackward node
  by_cases hb : b = a
  · subst hb
    obtain ⟨n, hn⟩ := Option.isSome_iff_exists.mp ha
    simp [hn]
  · simp [hb]

theorem isSome_setBackward (h : Heap) (a b : Addr) (v : Option Addr) :
    ((h.setBackward a v) b).isSome = (h b).isSome := by
  unfold setBackward
  by_cases hb : b = a
  · subst hb; simp
  · simp [hb]

end Heap

/-! ## The list -/

/-- `SkipList`.  `next` is the address the next `new` returns. -/
structure SkipList where
  heap : Heap
  next : Addr
  header : Addr
  tail : Option Addr
  level : Nat
  size : Nat
  scoreMap : UnorderedMap Bytes Double

namespace SkipList

/-- `SkipList::SkipList()`: a header with `kMaxLevel` null pointers. -/
def new : SkipList where
  heap a :=
    if a = 0 then
      some ⟨Double.ofMagnitude false 0, [], List.replicate kMaxLevel none, none⟩
    else none
  next := 1
  header := 0
  tail := none
  level := 1
  size := 0
  scoreMap := ∅

/-- The two `while` loops of a search on level `i`, from `a`. -/
def searchLevel (sl : SkipList) (score : Double) (member : Bytes) (i : Nat) (a : Addr) : Addr :=
  let node := Chain.walk (sl.heap.forward i)
    (fun b => (sl.heap.node b).score.lt score) sl.next a
  Chain.walk (sl.heap.forward i)
    (fun b => (sl.heap.node b).score.eq score && (sl.heap.node b).member < member) sl.next node

/-- `update[0 .. i)` of `Insert` and `Delete`: the search runs through the
levels from the top one down, each starting where the one above ended. -/
def findUpdate (sl : SkipList) (score : Double) (member : Bytes) : Nat → Addr → List Addr
  | 0, _ => []
  | i + 1, a =>
    let node := sl.searchLevel score member i a
    sl.findUpdate score member i node ++ [node]

/-- One round of the linking loop of `Insert`. -/
def linkAt (update : List Addr) (header newNode : Addr) (heap : Heap) (i : Nat) : Heap :=
  let heap := heap.setForward i newNode (heap.forward i (update.getD i header))
  heap.setForward i (update.getD i header) (some newNode)

/-- The backward pointer of the node behind the new one, or `tail_` when there
is none. -/
def linkBackward (newNode : Addr) (heap : Heap) (tail : Option Addr) : Heap × Option Addr :=
  match heap.forward 0 newNode with
  | some b => (heap.setBackward b (some newNode), tail)
  | none => (heap, some newNode)

/-- `Insert` from the search on: `member` is not in the list. -/
def insertNode (sl : SkipList) (score : Double) (member : Bytes) (level : Level) : SkipList :=
  let update := sl.findUpdate score member sl.level sl.header ++
    List.replicate (level.1 - sl.level) sl.header
  let newNode := sl.next
  let heap := Function.update sl.heap newNode
    (some ⟨score, member, List.replicate level.1 none, none⟩)
  let heap := (List.range level.1).foldl (linkAt update sl.header newNode) heap
  let first := update.getD 0 sl.header
  let heap := heap.setBackward newNode (if first = sl.header then none else some first)
  let back := linkBackward newNode heap sl.tail
  { heap := back.1
    tail := back.2
    next := sl.next + 1
    header := sl.header
    level := max sl.level level.1
    size := sl.size + 1
    scoreMap := sl.scoreMap.insert member score }

/-- One round of the unlinking loop of `Delete`. -/
def unlinkAt (update : List Addr) (header node : Addr) (heap : Heap) (i : Nat) : Heap :=
  if heap.forward i (update.getD i header) = some node then
    heap.setForward i (update.getD i header) (heap.forward i node)
  else heap

/-- `while (level_ > 1 && header_->forward[level_ - 1] == nullptr) --level_;`. -/
def shrinkLevel (heap : Heap) (header : Addr) : Nat → Nat
  | 0 => 0
  | 1 => 1
  | n + 2 =>
    if heap.forward (n + 1) header = none then shrinkLevel heap header (n + 1) else n + 2

/-- The backward pointer of the node behind the removed one, or `tail_` when
there is none. -/
def unlinkBackward (node : Addr) (heap : Heap) (tail : Option Addr) : Heap × Option Addr :=
  match heap.forward 0 node with
  | some b => (heap.setBackward b (heap.node node).backward, tail)
  | none => (heap, (heap.node node).backward)

/-- `Delete` from the unlinking loop on: `node` is the node of the member. -/
def deleteNode (sl : SkipList) (update : List Addr) (node : Addr) : SkipList :=
  let heap := (List.range sl.level).foldl (unlinkAt update sl.header node) sl.heap
  let back := unlinkBackward node heap sl.tail
  { sl with
    tail := back.2
    level := shrinkLevel back.1 sl.header sl.level
    heap := Function.update back.1 node none
    size := sl.size - 1 }

/-- `SkipList::Delete`. -/
def delete (sl : SkipList) (member : Bytes) : Bool × SkipList :=
  match sl.scoreMap.lookup member with
  | none => (false, sl)
  | some score =>
    let erased := { sl with scoreMap := sl.scoreMap.erase member }
    let update := sl.findUpdate score member sl.level sl.header
    match sl.heap.forward 0 (update.getD 0 sl.header) with
    | none => (false, erased)
    | some node =>
      if (sl.heap.node node).member ≠ member then (false, erased)
      else (true, erased.deleteNode update node)

/-- `SkipList::Insert`, `level` being the outcome of its `RandomLevel()` call. -/
def insert (sl : SkipList) (score : Double) (member : Bytes) (level : Level) : Bool × SkipList :=
  match sl.scoreMap.lookup member with
  | some old =>
    if old.eq score then (false, sl)
    else (true, (sl.delete member).2.insertNode score member level)
  | none => (true, sl.insertNode score member level)

/-! ## Queries -/

/-- The nodes of `for (node = header_->forward[0]; node; node = node->forward[0])`. -/
def chain (sl : SkipList) : List Addr :=
  Chain.follow (sl.heap.forward 0) sl.next (sl.heap.forward 0 sl.header)

/-- `SkipList::GetScore`. -/
def getScore (sl : SkipList) (member : Bytes) : Option Double := sl.scoreMap.lookup member

/-- The loop of `GetRank`. -/
def rankLoop (heap : Heap) (score : Double) (member : Bytes) : List Addr → Nat → Option Nat
  | [], _ => none
  | a :: rest, rank =>
    let node := heap.node a
    if node.score.lt score || (node.score.eq score && node.member < member) then
      rankLoop heap score member rest (rank + 1)
    else if node.member = member then some rank
    else rankLoop heap score member rest rank

/-- `SkipList::GetRank`. -/
def getRank (sl : SkipList) (member : Bytes) : Option Nat :=
  match sl.scoreMap.lookup member with
  | none => none
  | some score => rankLoop sl.heap score member sl.chain 0

/-- `SkipList::RangeByRank`: skip `start` nodes, then take those up to index
`stop`. -/
def rangeByRank (sl : SkipList) (start stop : Int) : List Bytes :=
  let start := if start < 0 then sl.size + start else start
  let stop := if stop < 0 then sl.size + stop else stop
  let start := if start < 0 then 0 else start
  if stop < 0 then []
  else if start > stop then []
  else ((sl.chain.drop start.toNat).take (stop - start + 1).toNat).map
    fun a => (sl.heap.node a).member

/-- `SkipList::RangeByScore`: skip the nodes with `score < min`, then take
those with `score <= max`. -/
def rangeByScore (sl : SkipList) (min max : Double) : List Bytes :=
  ((sl.chain.dropWhile fun a => (sl.heap.node a).score.lt min).takeWhile
    fun a => (sl.heap.node a).score.le max).map fun a => (sl.heap.node a).member

end SkipList

end RedisLike
