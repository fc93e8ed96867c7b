import RedisLike.Lib.Slice
import RedisLike.Command.Actions
import RedisLike.SkipList.Refine

/-!
# RedisLike.Command.Ranges

`LRANGE`, `ZRANGE`, `ZREVRANGE` and `LINDEX` compute the same slice.

The routines stand here once more, statement by statement and in the arithmetic
of `int64_t`, where an overflow leaves no value (`int64`).  None occurs, and what
they compute is the `slice` of the sequence: `ranges_agree`.
-/

namespace RedisLike

/-! ## The routines -/

/-- The value of an `int64_t` expression; an overflow is undefined. -/
def int64 (x : Int) : Option Int := if -2 ^ 63 ≤ x ∧ x < 2 ^ 63 then some x else none

/-- The `for` loop of `List::Range`; behind the last element `*it` is undefined. -/
def copyLoop (stop : Int) : List Bytes → Int → Option (List Bytes)
  | [], i => if i ≤ stop then none else some []
  | x :: rest, i =>
    if i ≤ stop then do
      let i ← int64 (i + 1)
      let result ← copyLoop stop rest i
      some (x :: result)
    else some []

/-- `List::Range`. -/
def listRange64 (lst : RedisList) (start stop : Int) : Option (List Bytes) :=
  let sz : Int := lst.length
  if sz = 0 then some []
  else do
    let start ← (if start < 0 then int64 (start + sz) else some start)
    let stop ← (if stop < 0 then int64 (stop + sz) else some stop)
    let start := if start < 0 then 0 else start
    let stop ← (if stop ≥ sz then int64 (sz - 1) else some stop)
    if start > stop then some [] else copyLoop stop (lst.drop start.toNat) start

namespace SkipList

/-- `while (node && idx < start)`. -/
def skipLoop (start : Int) : List Addr → Int → Option (List Addr × Int)
  | [], idx => some ([], idx)
  | node :: rest, idx =>
    if idx < start then do
      let idx ← int64 (idx + 1)
      skipLoop start rest idx
    else some (node :: rest, idx)

/-- `while (node && idx <= stop)`. -/
def takeLoop (sl : SkipList) (stop : Int) : List Addr → Int → Option (List Bytes)
  | [], _ => some []
  | node :: rest, idx =>
    if idx ≤ stop then do
      let idx ← int64 (idx + 1)
      let result ← takeLoop sl stop rest idx
      some ((sl.heap.node node).member :: result)
    else some []

/-- `SkipList::RangeByRank`. -/
def rangeByRank64 (sl : SkipList) (start stop : Int) : Option (List Bytes) := do
  let start ← (if start < 0 then int64 (sl.size + start) else some start)
  let stop ← (if stop < 0 then int64 (sl.size + stop) else some stop)
  let start := if start < 0 then 0 else start
  if stop < 0 then some []
  else if start > stop then some []
  else do
    let (rest, idx) ← skipLoop start sl.chain 0
    sl.takeLoop stop rest idx

/-- The list has these members, in this order, and counts them. -/
structure InOrder (sl : SkipList) (xs : List Bytes) : Prop where
  members : (sl.chain.map fun a => (sl.heap.node a).member) = xs
  size_eq : sl.size = xs.length

theorem Valid.inOrder {sl : SkipList} (h : sl.Valid) : sl.InOrder (sl.items.map Prod.fst) :=
  ⟨(map_fst_items sl).symm, by rw [h.inv.size_eq, List.length_map, items, List.length_map]⟩

end SkipList

/-- `ZRevRangeCmd` on the skip list. -/
def zRevRange64 (sl : SkipList) (withscores : Bool) (start stop : Int) : Option Bytes :=
  let sz : Int := sl.size
  if sz = 0 then some RespCodec.emptyArray
  else do
    let rs ← (if start < 0 then int64 (start + sz) else some start)
    let re ← (if stop < 0 then int64 (stop + sz) else some stop)
    let rs := if rs < 0 then 0 else rs
    let re ← (if re ≥ sz then int64 (sz - 1) else some re)
    if rs > re then some RespCodec.emptyArray
    else do
      let last ← int64 (sz - 1)
      let fwdStart ← int64 (last - re)
      let fwdStop ← int64 (last - rs)
      let members ← sl.rangeByRank64 fwdStart fwdStop
      some (membersReply sl withscores members.reverse)

/-- `LIndexCmd` on the list; behind the last element `*it` is undefined. -/
def lIndex64 (lst : RedisList) (idx : Int) : Option Bytes :=
  let sz : Int := lst.length
  if sz = 0 then some RespCodec.nullBulkString
  else do
    let idx ← (if idx < 0 then int64 (idx + sz) else some idx)
    if idx < 0 ∨ idx ≥ sz then some RespCodec.nullBulkString
    else lst[idx.toNat]?.map RespCodec.bulkString

/-! ## Sums -/

/-- A number that is an `int64_t`. -/
def IsInt64 (x : Int) : Prop := -2 ^ 63 ≤ x ∧ x < 2 ^ 63

theorem isInt64_toInt (n : Int64) : IsInt64 n.toInt :=
  ⟨Int64.le_toInt n, Int64.toInt_lt n⟩

theorem int64_eq_some {x : Int} (h : IsInt64 x) : int64 x = some x := if_pos h

/-- An index from the end never overflows. -/
theorem int64_fromEnd {n : Nat} (hn : n < 2 ^ 63) {i : Int} (hi : IsInt64 i) :
    (if i < 0 then int64 (i + n) else some i) = some (fromEnd n i) := by
  unfold fromEnd
  split
  · rw [int64_eq_some, Int.add_comm]
    unfold IsInt64 at hi ⊢
    omega
  · rfl

/-- The size is an `int64_t`, and so is every index of an element and behind them. -/
theorem int64_of_le {x : Int} {n : Nat} (hn : n < 2 ^ 63) (h0 : -1 ≤ x) (hx : x ≤ n) :
    int64 x = some x := by
  apply int64_eq_some
  unfold IsInt64
  omega

/-! ## Loops -/

theorem copyLoop_eq {stop i : Int} {l : List Bytes} {n : Nat} (hn : n < 2 ^ 63) (hi : 0 ≤ i)
    (hlen : i + l.length = n) (hstop : stop < n) :
    copyLoop stop l i = some (l.take (stop + 1 - i).toNat) := by
  induction l generalizing i with
  | nil =>
      rw [List.length_nil] at hlen
      rw [copyLoop, if_neg (by omega), List.take_nil]
  | cons x rest ih =>
      rw [List.length_cons] at hlen
      rw [copyLoop]
      by_cases hle : i ≤ stop
      · have hcount : (stop + 1 - i).toNat = (stop + 1 - (i + 1)).toNat + 1 := by omega
        rw [if_pos hle, int64_of_le hn (by omega) (by omega), hcount, List.take_succ_cons]
        show (copyLoop stop rest (i + 1)).bind _ = _
        rw [ih (by omega) (by omega)]
        rfl
      · rw [if_neg hle, show (stop + 1 - i).toNat = 0 by omega, List.take_zero]

namespace SkipList

theorem skipLoop_eq {start idx : Int} {l : List Addr} {n : Nat} (hn : n < 2 ^ 63) (hidx : 0 ≤ idx)
    (hlen : idx + l.length = n) (hstart : idx ≤ start) :
    skipLoop start l idx = some (l.drop (start - idx).toNat, min start n) := by
  induction l generalizing idx with
  | nil =>
      rw [List.length_nil] at hlen
      rw [skipLoop, List.drop_nil, show min start (n : Int) = idx by omega]
  | cons node rest ih =>
      rw [List.length_cons] at hlen
      rw [skipLoop]
      by_cases hlt : idx < start
      · have hcount : (start - idx).toNat = (start - (idx + 1)).toNat + 1 := by omega
        rw [if_pos hlt, int64_of_le hn (by omega) (by omega), hcount, List.drop_succ_cons]
        exact ih (by omega) (by omega) (by omega)
      · rw [if_neg hlt, show (start - idx).toNat = 0 by omega, List.drop_zero,
          show min start (n : Int) = idx by omega]

theorem takeLoop_eq (sl : SkipList) {stop idx : Int} {l : List Addr} {n : Nat} (hn : n < 2 ^ 63)
    (hidx : 0 ≤ idx) (hlen : idx + l.length = n) :
    sl.takeLoop stop l idx =
      some ((l.take (stop + 1 - idx).toNat).map fun a => (sl.heap.node a).member) := by
  induction l generalizing idx with
  | nil => rw [takeLoop, List.take_nil, List.map_nil]
  | cons node rest ih =>
      rw [List.length_cons] at hlen
      rw [takeLoop]
      by_cases hle : idx ≤ stop
      · have hcount : (stop + 1 - idx).toNat = (stop + 1 - (idx + 1)).toNat + 1 := by omega
        rw [if_pos hle, int64_of_le hn (by omega) (by omega), hcount, List.take_succ_cons]
        show (sl.takeLoop stop rest (idx + 1)).bind _ = _
        rw [ih (by omega) (by omega)]
        rfl
      · rw [if_neg hle, show (stop + 1 - idx).toNat = 0 by omega, List.take_zero, List.map_nil]

end SkipList

/-! ## Slices -/

theorem ite_add_eq_fromEnd (n : Nat) (i : Int) : (if i < 0 then i + n else i) = fromEnd n i := by
  unfold fromEnd
  rw [Int.add_comm]

/-- A part from its clamped ends. -/
theorem between_eq_ite {α : Type} (xs : List α) {lo hi : Int} (hlo : 0 ≤ lo) :
    between xs lo hi = if lo > hi then [] else (xs.drop lo.toNat).take (hi - lo + 1).toNat := by
  split
  · exact between_eq_nil xs (.inr (by omega))
  · rw [between_eq, show hi + 1 - max 0 lo = hi - lo + 1 by omega]

theorem listRange_eq_slice (lst : RedisList) (start stop : Int) :
    listRange lst start stop = slice lst start stop := by
  unfold listRange slice
  by_cases hz : (lst.length : Int) = 0
  · have hnil : lst = [] := List.length_eq_zero_iff.mp (by omega)
    rw [if_pos hz, hnil, between_eq, List.drop_nil, List.take_nil]
  · simp only [if_neg hz, ite_add_eq_fromEnd]
    rw [between_eq_ite _ (le_max_left 0 _),
      show (if fromEnd lst.length start < 0 then 0 else fromEnd lst.length start) =
        max 0 (fromEnd lst.length start) by omega,
      show (if fromEnd lst.length stop ≥ lst.length then (lst.length : Int) - 1
        else fromEnd lst.length stop) = min ((lst.length : Int) - 1) (fromEnd lst.length stop) by
          omega]

/-- `List::Range` has no overflow, and copies the slice. -/
theorem listRange64_eq {lst : RedisList} (hn : lst.length < 2 ^ 63) {start stop : Int}
    (hstart : IsInt64 start) (hstop : IsInt64 stop) :
    listRange64 lst start stop = some (slice lst start stop) := by
  rw [← listRange_eq_slice]
  unfold listRange64 listRange
  by_cases hz : (lst.length : Int) = 0
  · rw [if_pos hz, if_pos hz]
  · simp only [if_neg hz, int64_fromEnd hn hstart, int64_fromEnd hn hstop, ite_add_eq_fromEnd,
      int64_of_le hn (show -1 ≤ (lst.length : Int) - 1 by omega) (by omega),
      Option.bind_eq_bind, Option.bind_some]
    rw [← apply_ite some, Option.bind_some]
    generalize hlo : (if fromEnd lst.length start < 0 then 0 else fromEnd lst.length start) = lo
    generalize hhi : (if fromEnd lst.length stop ≥ lst.length then (lst.length : Int) - 1
      else fromEnd lst.length stop) = hi
    have hlo0 : 0 ≤ lo := by omega
    have hhin : hi < lst.length := by omega
    by_cases hgt : lo > hi
    · rw [if_pos hgt, if_pos hgt]
    · rw [if_neg hgt, if_neg hgt, copyLoop_eq hn hlo0 (by rw [List.length_drop]; omega) hhin,
        show hi + 1 - lo = hi - lo + 1 by omega]

namespace SkipList

theorem InOrder.length_chain {sl : SkipList} {xs : List Bytes} (h : sl.InOrder xs) :
    sl.chain.length = xs.length := by
  rw [← h.members, List.length_map]

theorem rangeByRank_eq_slice {sl : SkipList} {xs : List Bytes} (h : sl.InOrder xs)
    (start stop : Int) : sl.rangeByRank start stop = slice xs start stop := by
  have hslice : slice xs start stop = ((sl.chain.drop (fromEnd xs.length start).toNat).take
      (fromEnd xs.length stop + 1 - max 0 (fromEnd xs.length start)).toNat).map
        fun a => (sl.heap.node a).member := by
    rw [slice_eq_between, between_eq, List.map_take, List.map_drop, h.members]
  rw [hslice]
  unfold rangeByRank
  rw [h.size_eq]
  simp only [Int.add_comm (xs.length : Int), ite_add_eq_fromEnd]
  generalize fromEnd xs.length start = first
  generalize fromEnd xs.length stop = last
  by_cases hout : last < 0 ∨ (if first < 0 then 0 else first) > last
  · rw [show (last + 1 - max 0 first).toNat = 0 by omega, List.take_zero, List.map_nil]
    by_cases hneg : last < 0
    · rw [if_pos hneg]
    · rw [if_neg hneg, if_pos (hout.resolve_left hneg)]
  · rw [not_or] at hout
    rw [if_neg hout.1, if_neg hout.2,
      show (if first < 0 then 0 else first).toNat = first.toNat by omega,
      show (last - (if first < 0 then 0 else first) + 1).toNat =
        (last + 1 - max 0 first).toNat by omega]

/-- `SkipList::RangeByRank` has no overflow, and takes the slice. -/
theorem rangeByRank64_eq {sl : SkipList} {xs : List Bytes} (h : sl.InOrder xs)
    (hn : xs.length < 2 ^ 63) {start stop : Int} (hstart : IsInt64 start) (hstop : IsInt64 stop) :
    sl.rangeByRank64 start stop = some (slice xs start stop) := by
  have hlen := h.length_chain
  rw [← rangeByRank_eq_slice h]
  unfold rangeByRank64 rangeByRank
  rw [h.size_eq]
  simp only [Int.add_comm (xs.length : Int), int64_fromEnd hn hstart, int64_fromEnd hn hstop,
    ite_add_eq_fromEnd, Option.bind_eq_bind, Option.bind_some]
  generalize hfirst :
    (if fromEnd xs.length start < 0 then 0 else fromEnd xs.length start) = first
  generalize fromEnd xs.length stop = last
  have h0 : 0 ≤ first := by omega
  by_cases hneg : last < 0
  · rw [if_pos hneg, if_pos hneg]
  by_cases hgt : first > last
  · rw [if_neg hneg, if_pos hgt, if_neg hneg, if_pos hgt]
  have hidx : min first (xs.length : Int) + (sl.chain.drop (first - 0).toNat).length =
      xs.length := by
    rw [List.length_drop]
    omega
  rw [if_neg hneg, if_neg hgt, if_neg hneg, if_neg hgt,
    skipLoop_eq hn (le_refl 0) (by omega) h0, Option.bind_some,
    takeLoop_eq sl hn (by omega) hidx]
  -- behind the last node there is nothing to take
  by_cases hle : first ≤ xs.length
  · rw [show min first (xs.length : Int) = first by omega, Int.sub_zero,
      show last + 1 - first = last - first + 1 by omega]
  · rw [List.drop_eq_nil_of_le (by omega), List.drop_eq_nil_of_le (by omega), List.take_nil,
      List.take_nil]

end SkipList

/-- The indices of `ZREVRANGE`, between its clamps, seen from the other end. -/
theorem slice_reverse {xs : List Bytes} {lo hi : Int} (hlo : 0 ≤ lo) (hle : lo ≤ hi)
    (hhi : hi < xs.length) : between xs.reverse lo hi =
      (slice xs ((xs.length : Int) - 1 - hi) ((xs.length : Int) - 1 - lo)).reverse := by
  have hends : ∀ i : Int, 0 ≤ i → fromEnd xs.length i = i := fun i hi => if_neg (by omega)
  rw [between_reverse xs hlo hhi, slice_eq_between, hends _ (by omega), hends _ (by omega)]

/-- `ZREVRANGE` is the slice of the reversed sequence. -/
theorem zRevRange_eq_slice {sl : SkipList} {xs : List Bytes} (h : sl.InOrder xs)
    (withscores : Bool) (start stop : Int) :
    zRevRange sl withscores start stop = membersReply sl withscores (slice xs.reverse start stop) := by
  have hempty : membersReply sl withscores [] = RespCodec.emptyArray := rfl
  unfold zRevRange slice
  rw [h.size_eq, List.length_reverse]
  simp only [ite_add_eq_fromEnd]
  by_cases hz : (xs.length : Int) = 0
  · have hnil : xs = [] := List.length_eq_zero_iff.mp (by omega)
    rw [if_pos hz, hnil, between_eq, List.reverse_nil, List.drop_nil, List.take_nil, hempty]
  rw [if_neg hz]
  generalize fromEnd xs.length start = first
  generalize fromEnd xs.length stop = last
  rw [show (if first < 0 then 0 else first) = max 0 first by omega,
    show (if last ≥ xs.length then (xs.length : Int) - 1 else last) =
      min ((xs.length : Int) - 1) last by omega]
  by_cases hgt : max 0 first > min ((xs.length : Int) - 1) last
  · rw [if_pos hgt, between_eq_nil _ (.inr (by omega)), hempty]
  · rw [if_neg hgt, SkipList.rangeByRank_eq_slice h,
      slice_reverse (le_max_left 0 first) (by omega) (by omega)]

theorem zRevRange64_eq {sl : SkipList} {xs : List Bytes} (h : sl.InOrder xs)
    (hn : xs.length < 2 ^ 63) (withscores : Bool) {start stop : Int} (hstart : IsInt64 start)
    (hstop : IsInt64 stop) :
    zRevRange64 sl withscores start stop =
      some (membersReply sl withscores (slice xs.reverse start stop)) := by
  rw [← zRevRange_eq_slice h]
  unfold zRevRange64 zRevRange
  rw [h.size_eq]
  by_cases hz : (xs.length : Int) = 0
  · rw [if_pos hz, if_pos hz]
  simp only [if_neg hz, int64_fromEnd hn hstart, int64_fromEnd hn hstop, ite_add_eq_fromEnd,
    int64_of_le hn (show -1 ≤ (xs.length : Int) - 1 by omega) (by omega),
    Option.bind_eq_bind, Option.bind_some]
  rw [← apply_ite some, Option.bind_some]
  generalize hlo : (if fromEnd xs.length start < 0 then 0 else fromEnd xs.length start) = lo
  generalize hhi : (if fromEnd xs.length stop ≥ xs.length then (xs.length : Int) - 1
    else fromEnd xs.length stop) = hi
  by_cases hgt : lo > hi
  · rw [if_pos hgt, if_pos hgt]
  have hfwd : ∀ i, 0 ≤ i → i < (xs.length : Int) → IsInt64 ((xs.length : Int) - 1 - i) := by
    intro i h0 hlt
    unfold IsInt64
    omega
  have hstart' := hfwd hi (by omega) (by omega)
  have hstop' := hfwd lo (by omega) (by omega)
  rw [if_neg hgt, if_neg hgt, int64_eq_some hstart', int64_eq_some hstop', Option.bind_some,
    Option.bind_some, SkipList.rangeByRank64_eq h hn hstart' hstop',
    SkipList.rangeByRank_eq_slice h, Option.bind_some]

/-- The element of an index, or none. -/
theorem head?_slice_self {lst : RedisList} {idx : Int} :
    (slice lst idx idx).head? =
      if 0 ≤ fromEnd lst.length idx then lst[(fromEnd lst.length idx).toNat]? else none := by
  rw [slice_eq_between, between_self]
  split
  · cases lst[(fromEnd lst.length idx).toNat]? <;> rfl
  · rfl

/-- The checks of `LINDEX` tell the indices of the list from the others. -/
theorem elim_getElem?_eq (lst : RedisList) (i : Int) :
    (if 0 ≤ i then lst[i.toNat]? else none).elim RespCodec.nullBulkString RespCodec.bulkString =
      if (lst.length : Int) = 0 then RespCodec.nullBulkString
      else if i < 0 ∨ i ≥ lst.length then RespCodec.nullBulkString
      else RespCodec.bulkString (lst.getD i.toNat []) := by
  by_cases hin : 0 ≤ i ∧ i < lst.length
  · obtain ⟨h0, hlt⟩ := hin
    have hget : lst[i.toNat]? = some (lst.getD i.toNat []) := by
      rw [List.getD_eq_getElem _ _ (by omega), List.getElem?_eq_getElem (by omega)]
    rw [if_pos h0, if_neg (by omega), if_neg (by omega), hget, Option.elim_some]
  · have hnone : (if 0 ≤ i then lst[i.toNat]? else none) = none := by
      split
      · exact List.getElem?_eq_none (by omega)
      · rfl
    rw [hnone, Option.elim_none]
    split
    · rfl
    · rw [if_pos (by omega)]

/-- `LINDEX` has no overflow, and finds the element of the slice from its index to
itself. -/
theorem lIndex64_eq {lst : RedisList} (hn : lst.length < 2 ^ 63) {idx : Int} (hidx : IsInt64 idx) :
    lIndex64 lst idx =
      some ((slice lst idx idx).head?.elim RespCodec.nullBulkString RespCodec.bulkString) := by
  unfold lIndex64
  rw [head?_slice_self, elim_getElem?_eq]
  simp only [int64_fromEnd hn hidx, Option.bind_eq_bind, Option.bind_some]
  generalize fromEnd lst.length idx = i
  by_cases hz : (lst.length : Int) = 0
  · rw [if_pos hz, if_pos hz]
  rw [if_neg hz, if_neg hz]
  by_cases hout : i < 0 ∨ i ≥ lst.length
  · rw [if_pos hout, if_pos hout]
  · rw [if_neg hout, if_neg hout, List.getElem?_eq_getElem (by omega),
      List.getD_eq_getElem _ _ (by omega)]
    rfl

/-- One index has one element, or none. -/
theorem slice_self_cases {α : Type} (xs : List α) (i : Int) :
    slice xs i i = [] ∨ ∃ x, slice xs i i = [x] := by
  rw [slice_eq_between, between_self]
  split
  · cases h : xs[(fromEnd xs.length i).toNat]? with
    | none => exact .inl rfl
    | some x => exact .inr ⟨x, rfl⟩
  · exact .inl rfl

/-- **All range commands compute the same slice**, and no sum in them overflows. -/
theorem ranges_agree {xs : List Bytes} (hn : xs.length < 2 ^ 63) (start stop : Int64) :
    listRange64 xs start.toInt stop.toInt = some (slice xs start.toInt stop.toInt) ∧
    (∀ sl : SkipList, sl.InOrder xs →
      sl.rangeByRank64 start.toInt stop.toInt = some (slice xs start.toInt stop.toInt) ∧
      ∀ withscores, zRevRange64 sl withscores start.toInt stop.toInt =
        some (membersReply sl withscores (slice xs.reverse start.toInt stop.toInt))) ∧
    (listRange64 xs start.toInt start.toInt = some [] ∧
        lIndex64 xs start.toInt = some RespCodec.nullBulkString ∨
      ∃ x, listRange64 xs start.toInt start.toInt = some [x] ∧
        lIndex64 xs start.toInt = some (RespCodec.bulkString x)) := by
  have hstart := isInt64_toInt start
  have hstop := isInt64_toInt stop
  refine ⟨listRange64_eq hn hstart hstop, fun sl hsl => ⟨?_, fun withscores => ?_⟩, ?_⟩
  · exact SkipList.rangeByRank64_eq hsl hn hstart hstop
  · exact zRevRange64_eq hsl hn withscores hstart hstop
  · rw [listRange64_eq hn hstart hstart, lIndex64_eq hn hstart]
    rcases slice_self_cases xs start.toInt with h | ⟨x, h⟩
    · rw [h]
      exact .inl ⟨rfl, rfl⟩
    · rw [h]
      exact .inr ⟨x, rfl, rfl⟩

theorem ranges_agree_three :
    listRange64 [ascii "a", ascii "b", ascii "c"] (-2 : Int64).toInt (Int64.maxValue).toInt =
      some (slice [ascii "a", ascii "b", ascii "c"] (-2 : Int64).toInt (Int64.maxValue).toInt) :=
  (ranges_agree (by decide) (-2) Int64.maxValue).1

/-! ## The commands -/

section commands

variable {ctx : CmdContext} {handler : CmdHandler} {α : Type} {as : ValueVariant → Option α}
  {absent : Bytes} {present : α → Bytes} {obj : RedisObject} {key a b : Bytes}
  {rest : List Bytes} {start stop : Int64}

/-- The reply of a reading command on a live key of its type. -/
theorem reply_of_live (hf : findHandler (normalize ctx.cmd.name) = some handler)
    (hread : handler ctx = readObject as ctx (ctx.arg 0) absent present)
    (hlive : ctx.db.live ctx.now (ctx.arg 0) = some obj) {v : α} (hv : as obj.value = some v) :
    (execute ctx).1 = present v := by
  rw [execute_of_findHandler hf, hread]
  simp [readObject, orReply, getObject_eq, hlive, hv]

/-- `LRANGE` replies the slice of the list. -/
theorem lRange_reply (hname : normalize ctx.cmd.name = ascii "LRANGE")
    (hargs : ctx.cmd.args = key :: a :: b :: rest) (ha : parseInt a = some start)
    (hb : parseInt b = some stop) (hlive : ctx.db.live ctx.now key = some obj) {lst : RedisList}
    (hv : obj.value = .list lst) :
    (execute ctx).1 = bulkArray (slice lst start.toInt stop.toInt) := by
  have hf : findHandler (normalize ctx.cmd.name) = some lRangeCmd := by rw [hname]; rfl
  have hread : lRangeCmd ctx = readObject ValueVariant.asList ctx (ctx.arg 0) RespCodec.emptyArray
      fun lst => bulkArray (listRange lst start.toInt stop.toInt) := by
    unfold lRangeCmd CmdContext.arg
    rw [hargs]
    simp [ha, hb, readList, CmdContext.arg, hargs]
  have hkey : ctx.arg 0 = key := by rw [CmdContext.arg, hargs]; rfl
  rw [reply_of_live hf hread (hkey ▸ hlive) (by rw [hv]; rfl), listRange_eq_slice]

/-- `LINDEX` replies the element of the slice, or that there is none. -/
theorem lIndex_reply (hname : normalize ctx.cmd.name = ascii "LINDEX")
    (hargs : ctx.cmd.args = key :: a :: rest) (ha : parseInt a = some start)
    (hlive : ctx.db.live ctx.now key = some obj) {lst : RedisList} (hv : obj.value = .list lst) :
    (execute ctx).1 = (slice lst start.toInt start.toInt).head?.elim RespCodec.nullBulkString
      RespCodec.bulkString := by
  have hf : findHandler (normalize ctx.cmd.name) = some lIndexCmd := by rw [hname]; rfl
  have hkey : ctx.arg 0 = key := by rw [CmdContext.arg, hargs]; rfl
  have hread : lIndexCmd ctx = readObject ValueVariant.asList ctx (ctx.arg 0)
      RespCodec.nullBulkString fun lst =>
        if (lst.length : Int) = 0 then RespCodec.nullBulkString
        else if fromEnd lst.length start.toInt < 0 ∨ fromEnd lst.length start.toInt ≥ lst.length
          then RespCodec.nullBulkString
        else RespCodec.bulkString (lst.getD (fromEnd lst.length start.toInt).toNat []) := by
    unfold lIndexCmd CmdContext.arg
    rw [hargs]
    simp only [List.length_cons, List.getD_cons_succ, List.getD_cons_zero, ha, readList,
      CmdContext.arg, hargs, ite_add_eq_fromEnd]
    rw [if_neg (by omega)]
  rw [reply_of_live hf hread (hkey ▸ hlive) (by rw [hv]; rfl), head?_slice_self,
    elim_getElem?_eq]

/-- `ZRANGE` replies the slice of the members. -/
theorem zRange_reply (hname : normalize ctx.cmd.name = ascii "ZRANGE")
    (hargs : ctx.cmd.args = key :: a :: b :: rest) (ha : parseInt a = some start)
    (hb : parseInt b = some stop) (hlive : ctx.db.live ctx.now key = some obj) {sl : SkipList}
    (hv : obj.value = .zset sl) {xs : List Bytes} (hsl : sl.InOrder xs) :
    (execute ctx).1 = membersReply sl (hasWithscores ctx.cmd.args)
      (slice xs start.toInt stop.toInt) := by
  have hf : findHandler (normalize ctx.cmd.name) = some zRangeCmd := by rw [hname]; rfl
  have hkey : ctx.arg 0 = key := by rw [CmdContext.arg, hargs]; rfl
  have hread : zRangeCmd ctx = readObject ValueVariant.asZSet ctx (ctx.arg 0) RespCodec.emptyArray
      fun sl => membersReply sl (hasWithscores ctx.cmd.args)
        (sl.rangeByRank start.toInt stop.toInt) := by
    unfold zRangeCmd CmdContext.arg
    rw [hargs]
    simp [ha, hb, readZSet, CmdContext.arg, hargs]
  rw [reply_of_live hf hread (hkey ▸ hlive) (by rw [hv]; rfl), SkipList.rangeByRank_eq_slice hsl]

/-- `ZREVRANGE` replies the slice of the reversed members. -/
theorem zRevRange_reply (hname : normalize ctx.cmd.name = ascii "ZREVRANGE")
    (hargs : ctx.cmd.args = key :: a :: b :: rest) (ha : parseInt a = some start)
    (hb : parseInt b = some stop) (hlive : ctx.db.live ctx.now key = some obj) {sl : SkipList}
    (hv : obj.value = .zset sl) {xs : List Bytes} (hsl : sl.InOrder xs) :
    (execute ctx).1 = membersReply sl (hasWithscores ctx.cmd.args)
      (slice xs.reverse start.toInt stop.toInt) := by
  have hf : findHandler (normalize ctx.cmd.name) = some zRevRangeCmd := by rw [hname]; rfl
  have hkey : ctx.arg 0 = key := by rw [CmdContext.arg, hargs]; rfl
  have hread : zRevRangeCmd ctx = readObject ValueVariant.asZSet ctx (ctx.arg 0)
      RespCodec.emptyArray fun sl => zRevRange sl (hasWithscores ctx.cmd.args) start.toInt
        stop.toInt := by
    unfold zRevRangeCmd CmdContext.arg
    rw [hargs]
    simp [ha, hb, readZSet, CmdContext.arg, hargs]
  rw [reply_of_live hf hread (hkey ▸ hlive) (by rw [hv]; rfl), zRevRange_eq_slice hsl]

end commands

end RedisLike
