import RedisLike.SkipList.Refine
import Mathlib.Data.Set.Card

/-!
# RedisLike.SkipList.Rank

The ranks of the members.

`GetRank` counts the nodes with a smaller pair as it passes them.  In a valid
list these are the nodes in front of the member (`Valid.exists_items_eq`), so the
count is their number, and that of the members with a smaller pair.
-/

namespace RedisLike

namespace SkipList

theorem Valid.isNaN_of_mem_items {sl : SkipList} (h : sl.Valid) {p : Bytes × Double}
    (hp : p ∈ sl.items) : p.2.isNaN = false := by
  obtain ⟨a, ha, rfl⟩ := List.mem_map.mp hp
  exact h.inv.notNaN a ha

/-- The pairs in front of a member are smaller, those behind it greater. -/
theorem Valid.exists_items_eq {sl : SkipList} (h : sl.Valid) {m : Bytes} {s : Double}
    (hs : sl.getScore m = some s) : ∃ pre post, sl.items = pre ++ (m, s) :: post ∧
      (∀ p ∈ pre, itemKey p < itemKey (m, s)) ∧ ∀ p ∈ post, itemKey (m, s) < itemKey p := by
  obtain ⟨pre, post, hitems⟩ := List.append_of_mem (h.mem_items.mpr hs)
  have hsorted := h.items_sorted
  rw [hitems, List.pairwise_append] at hsorted
  obtain ⟨-, hpost, hcross⟩ := hsorted
  exact ⟨pre, post, hitems, fun p hp => hcross p hp (m, s) List.mem_cons_self,
    (List.pairwise_cons.mp hpost).1⟩

/-- The loop of `GetRank` counts up to the node of the member. -/
theorem rankLoop_append {heap : Heap} {score : Double} {member : Bytes} {pre : List Addr}
    {a : Addr} (hpre : ∀ b ∈ pre, Before (heap.node b).score (heap.node b).member score member)
    (ha : (heap.node a).member = member)
    (hself : ¬ Before (heap.node a).score (heap.node a).member score member) (post : List Addr)
    (rank : Nat) : rankLoop heap score member (pre ++ a :: post) rank = some (rank + pre.length) := by
  have hcond : ∀ b, ((heap.node b).score.lt score || ((heap.node b).score.eq score &&
      decide ((heap.node b).member < member))) = true ↔
        Before (heap.node b).score (heap.node b).member score member := by
    intro b
    rw [Bool.or_eq_true, Bool.and_eq_true, decide_eq_true_iff]
    rfl
  induction pre generalizing rank with
  | nil =>
      rw [List.nil_append, rankLoop]
      show (if _ then _ else _) = _
      rw [if_neg (fun hlt => hself ((hcond a).mp hlt)), if_pos ha]
      rfl
  | cons b pre ih =>
      rw [List.cons_append, rankLoop]
      show (if _ then _ else _) = _
      rw [if_pos ((hcond b).mpr (hpre b List.mem_cons_self)),
        ih fun b hb => hpre b (List.mem_cons_of_mem _ hb), List.length_cons]
      congr 1
      omega

/-- **The rank of a member** is the number of pairs in front of it. -/
theorem Valid.getRank_eq {sl : SkipList} (h : sl.Valid) {m : Bytes} {s : Double}
    {pre post : List (Bytes × Double)} (hitems : sl.items = pre ++ (m, s) :: post)
    (hpre : ∀ p ∈ pre, itemKey p < itemKey (m, s)) : sl.getRank m = some pre.length := by
  have hmem : (m, s) ∈ sl.items := by rw [hitems]; simp
  have hs : sl.scoreMap.lookup m = some s := h.mem_items.mp hmem
  have hnan := h.isNaN_of_mem_items hmem
  -- the nodes of the pairs
  obtain ⟨cpre, rest, hchain, hcpre, hrest⟩ := List.map_eq_append_iff.mp hitems
  obtain ⟨a, cpost, rfl, ha, -⟩ := List.map_eq_cons_iff.mp hrest
  obtain ⟨ha, hscore⟩ := Prod.mk.inj ha
  have hbefore : ∀ b ∈ cpre,
      Before (sl.heap.node b).score (sl.heap.node b).member s m := by
    intro b hb
    have hmemb : ((sl.heap.node b).member, (sl.heap.node b).score) ∈ pre := by
      rw [← hcpre]
      exact List.mem_map_of_mem (f := fun c => ((sl.heap.node c).member, (sl.heap.node c).score)) hb
    have hnanb : (sl.heap.node b).score.isNaN = false :=
      h.inv.notNaN b (by rw [hchain]; exact List.mem_append_left _ hb)
    exact (before_iff hnanb hnan _ _).mpr (hpre _ hmemb)
  have hself : ¬ Before (sl.heap.node a).score (sl.heap.node a).member s m := by
    rw [ha, hscore, before_iff hnan hnan]
    exact lt_irrefl _
  rw [getRank, hs]
  show rankLoop sl.heap s m sl.chain 0 = _
  rw [hchain, rankLoop_append hbefore ha hself, ← hcpre, List.length_map, Nat.zero_add]

theorem getRank_of_absent {sl : SkipList} {m : Bytes} (hm : sl.getScore m = none) :
    sl.getRank m = none := by
  rw [getRank, show sl.scoreMap.lookup m = none from hm]

/-- The members with a smaller pair are those in front. -/
theorem Valid.ncard_before {sl : SkipList} (h : sl.Valid) {m : Bytes} {s : Double}
    {pre post : List (Bytes × Double)} (hitems : sl.items = pre ++ (m, s) :: post)
    (hpre : ∀ p ∈ pre, itemKey p < itemKey (m, s))
    (hpost : ∀ p ∈ post, itemKey (m, s) < itemKey p) :
    {m' | ∃ s', sl.getScore m' = some s' ∧ Before s' m' s m}.ncard = pre.length := by
  have hnodup : (pre.map Prod.fst).Nodup := by
    have hall := h.nodup_members
    rw [hitems, List.map_append] at hall
    exact (List.nodup_append.mp hall).1
  have hset : {m' | ∃ s', sl.getScore m' = some s' ∧ Before s' m' s m} =
      ((pre.map Prod.fst).toFinset : Set Bytes) := by
    have hnan := h.isNaN_of_mem_items (p := (m, s)) (by rw [hitems]; simp)
    ext m'
    rw [Set.mem_ofPred_eq, Finset.mem_coe, List.mem_toFinset, List.mem_map]
    constructor
    · rintro ⟨s', hs', hlt⟩
      have hmem := h.mem_items.mpr hs'
      rw [before_iff (h.isNaN_of_mem_items hmem) hnan] at hlt
      rw [hitems, List.mem_append, List.mem_cons] at hmem
      rcases hmem with hmem | heq | hmem
      · exact ⟨(m', s'), hmem, rfl⟩
      · rw [heq] at hlt
        exact absurd hlt (lt_irrefl _)
      · exact absurd hlt (hpost _ hmem).asymm
    · rintro ⟨p, hp, rfl⟩
      have hmem : p ∈ sl.items := by
        rw [hitems]
        exact List.mem_append_left _ hp
      exact ⟨p.2, h.mem_items.mp hmem, (before_iff (h.isNaN_of_mem_items hmem) hnan _ _).mpr (hpre p hp)⟩
  rw [hset, Set.ncard_coe_finset, List.toFinset_card_of_nodup hnodup, List.length_map]

end SkipList

end RedisLike
