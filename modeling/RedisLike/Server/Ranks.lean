import RedisLike.Command.Ranges
import RedisLike.Resp.Reply
import RedisLike.Server.Scores
import RedisLike.SkipList.Rank

/-!
# RedisLike.Server.Ranks

Ranks and ranges of a sorted set are inverse to each other.

`ZRANK` counts the smaller pairs, `ZREVRANK` subtracts the count from the size,
and `ZRANGE` and `ZREVRANGE` walk the chain.  They agree on every list that
`ZADD` and `ZREM` can reach without a NaN (`run_ranks`).
-/

namespace RedisLike

open RedisServer

/-- What the server answers to a command. -/
def answer (db : Dict) (moment : Moment) (name : Bytes) (args : List Bytes) : Bytes :=
  (response db ⟨moment, ⟨name, args⟩⟩).1

/-- The ranks of the member in the sorted set of the key: from either end, the
index at which a range of one element finds the member, and no other. -/
def RanksAgree (db : Dict) (moment : Moment) (key : Bytes) (sl : SkipList) (m : Bytes) : Prop :=
  match sl.getScore m with
  | none => answer db moment (ascii "ZRANK") [key, m] = RespCodec.nullBulkString ∧
      answer db moment (ascii "ZREVRANK") [key, m] = RespCodec.nullBulkString
  | some s => ∃ r q n : Nat,
      answer db moment (ascii "ZRANK") [key, m] = RespCodec.integer r ∧
      answer db moment (ascii "ZREVRANK") [key, m] = RespCodec.integer q ∧
      answer db moment (ascii "ZCARD") [key] = RespCodec.integer n ∧
      (r : Int) + q = n - 1 ∧
      r = {m' | ∃ s', sl.getScore m' = some s' ∧ SkipList.Before s' m' s m}.ncard ∧
      ∀ text i, parseInt text = some i → 0 ≤ i.toInt →
        (answer db moment (ascii "ZRANGE") [key, text, text] = bulkArray [m] ↔ i.toInt = r) ∧
        (answer db moment (ascii "ZREVRANGE") [key, text, text] = bulkArray [m] ↔ i.toInt = q)

section replies

variable {db : Dict} {moment : Moment} {key m : Bytes} {obj : RedisObject} {sl : SkipList}

theorem answer_eq (name : Bytes) (args : List Bytes) :
    answer db moment name args = (execute ⟨db, ⟨name, args⟩, moment.now, moment.rng⟩).1 := by
  rw [answer, response_eq]
  rfl

/-- The answer to a command that reads the sorted set. -/
theorem answer_readZSet {name : Bytes} {args : List Bytes} {handler : CmdHandler} {absent : Bytes}
    {present : SkipList → Bytes} (hlive : db.live moment.now key = some obj)
    (hv : obj.value = .zset sl) (hf : findHandler (normalize name) = some handler)
    (hread : handler ⟨db, ⟨name, key :: args⟩, moment.now, moment.rng⟩ =
      readZSet ⟨db, ⟨name, key :: args⟩, moment.now, moment.rng⟩ absent present) :
    answer db moment name (key :: args) = present sl := by
  rw [answer_eq]
  exact @reply_of_live ⟨db, ⟨name, key :: args⟩, moment.now, moment.rng⟩ handler _ _ _ _ obj hf hread
    hlive sl (by rw [hv]; rfl)

variable (hlive : db.live moment.now key = some obj) (hv : obj.value = .zset sl)

include hlive hv

theorem answer_zRank : answer db moment (ascii "ZRANK") [key, m] =
    (sl.getRank m).elim RespCodec.nullBulkString fun rank => RespCodec.integer rank := by
  have harg : CmdContext.arg ⟨db, ⟨ascii "ZRANK", [key, m]⟩, moment.now, moment.rng⟩ 1 = m := rfl
  rw [answer_readZSet hlive hv rfl rfl]
  simp only [harg]
  cases sl.getRank m <;> rfl

theorem answer_zRevRank : answer db moment (ascii "ZREVRANK") [key, m] =
    (sl.getRank m).elim RespCodec.nullBulkString
      fun rank => RespCodec.integer ((sl.size : Int) - 1 - rank) := by
  have harg : CmdContext.arg ⟨db, ⟨ascii "ZREVRANK", [key, m]⟩, moment.now, moment.rng⟩ 1 = m := rfl
  rw [answer_readZSet hlive hv rfl rfl]
  simp only [harg]
  cases sl.getRank m <;> rfl

theorem answer_zCard : answer db moment (ascii "ZCARD") [key] = RespCodec.integer sl.size := by
  rw [answer_readZSet hlive hv rfl rfl]

/-- A range of one index finds the member exactly at its place. -/
theorem answer_zRange_iff {text : Bytes} {i : Int64} (htext : parseInt text = some i)
    (hi : 0 ≤ i.toInt) (hvalid : sl.Valid) {pre post : List (Bytes × Double)} {s : Double}
    (hitems : sl.items = pre ++ (m, s) :: post) :
    (answer db moment (ascii "ZRANGE") [key, text, text] = bulkArray [m] ↔
      i.toInt = pre.length) ∧
    (answer db moment (ascii "ZREVRANGE") [key, text, text] = bulkArray [m] ↔
      i.toInt = post.length) := by
  have hsl := hvalid.inOrder
  have hnodup := hvalid.nodup_members
  have hmembers : sl.items.map Prod.fst = pre.map Prod.fst ++ m :: post.map Prod.fst := by
    rw [hitems, List.map_append, List.map_cons]
  rw [hmembers] at hsl hnodup
  have hreply : ∀ members, membersReply sl (hasWithscores [key, text, text]) members =
      bulkArray members := by
    intro members
    have hw : hasWithscores [key, text, text] = false := by simp [hasWithscores]
    rw [membersReply, hw]
    simp
  have harray : ∀ members, bulkArray members = bulkArray [m] ↔ members = [m] := fun members =>
    array_bulkStrings_injective.eq_iff
  constructor
  · rw [answer_eq, @zRange_reply ⟨db, ⟨ascii "ZRANGE", [key, text, text]⟩, moment.now, moment.rng⟩
      obj key text text [] i i rfl rfl htext htext hlive sl hv _ hsl, hreply, harray,
      slice_self_eq_singleton hnodup hi, List.length_map]
  · rw [List.nodup_reverse.symm, List.reverse_append, List.reverse_cons, List.append_assoc,
      List.singleton_append] at hnodup
    rw [answer_eq, @zRevRange_reply ⟨db, ⟨ascii "ZREVRANGE", [key, text, text]⟩, moment.now,
      moment.rng⟩ obj key text text [] i i rfl rfl htext htext hlive sl hv _ hsl, hreply, harray,
      List.reverse_append, List.reverse_cons, List.append_assoc, List.singleton_append,
      slice_self_eq_singleton hnodup hi, List.length_reverse, List.length_map]

/-- The ranks agree on a valid list. -/
theorem ranksAgree_of_valid (hvalid : sl.Valid) : RanksAgree db moment key sl m := by
  unfold RanksAgree
  rw [answer_zRank hlive hv, answer_zRevRank hlive hv, answer_zCard hlive hv]
  cases hs : sl.getScore m with
  | none =>
      rw [SkipList.getRank_of_absent hs]
      exact ⟨rfl, rfl⟩
  | some s =>
      obtain ⟨pre, post, hitems, hpre, hpost⟩ := hvalid.exists_items_eq hs
      have hsize : sl.size = pre.length + 1 + post.length := by
        rw [hvalid.inOrder.size_eq, hitems]
        simp
        omega
      rw [hvalid.getRank_eq hitems hpre]
      refine ⟨pre.length, post.length, sl.size, rfl, ?_, rfl, by omega,
        (hvalid.ncard_before hitems hpre hpost).symm, fun text i htext hi => ?_⟩
      · show RespCodec.integer ((sl.size : Int) - 1 - pre.length) = _
        congr 1
        omega
      · exact answer_zRange_iff hlive hv htext hi hvalid hitems

end replies

/-- **Rank and range are inverse**, for every member and non-member of a sorted
set that a run of `ZADD` and `ZREM` without a NaN leaves, at any later time. -/
theorem run_ranks {key : Bytes} {db : Dict} (hdb : db.get key = none) {steps : List Step}
    (hsteps : ∀ step ∈ steps, step.cmd.WritesScores key)
    (hnan : ∀ step ∈ steps, ¬ step.cmd.ReadsNaN) {obj : RedisObject}
    (hobj : (runDb db steps).get key = some obj) :
    ∃ sl, obj.value = .zset sl ∧
      ∀ moment m, RanksAgree (runDb db steps) moment key sl m := by
  have hvalid : ValidZSet ((runDb db steps).get key) :=
    validZSet_runDb hsteps hnan (by rw [hdb]; exact validZSet_none)
  obtain ⟨he, sl, hsl, hv⟩ := hvalid obj hobj
  refine ⟨sl, hsl, fun moment m => ?_⟩
  have hlive : (runDb db steps).live moment.now key = some obj :=
    liveEntry_eq_some.mpr ⟨hobj, RedisObject.isExpired_of_expireAt_none he moment.now⟩
  exact ranksAgree_of_valid hlive hsl hv

theorem run_ranks_ties : ∃ obj sl, (runDb ∅ scoreSteps).get (ascii "k") = some obj ∧
    obj.value = .zset sl ∧ ∀ moment m, RanksAgree (runDb ∅ scoreSteps) moment (ascii "k") sl m := by
  obtain ⟨sl, hsl, hranks⟩ := @run_ranks (ascii "k") ∅ (Dict.get_empty _) scoreSteps
    writesScores_scoreSteps not_readsNaN_scoreSteps _ rfl
  exact ⟨_, sl, rfl, hsl, hranks⟩

end RedisLike
