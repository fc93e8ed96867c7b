import RedisLike.Command.Actions

/-!
# RedisLike.Command.RandomDraws

The draws of `SPOP`.

`uniform_int_distribution(0, size() - 1)` asks for a set that is not empty, so
a draw from an empty set leaves no value in `sPopDraws`.  There is always one:
what is drawn and what is left are a partition of the set
(`sPopDraws_eq`, `sPopCmd_partitions`).
-/

namespace RedisLike

/-- The members that the loop of `SPopCmd` draws, and the set it leaves. -/
def sPopDraws (rng : Nat → Nat → Nat) : Nat → Nat → RedisSet → Option (List Bytes × RedisSet)
  | 0, _, set => some ([], set)
  | count + 1, i, set => do
    let idx ← (if set.empty then none else some (rng i 0 % set.size))
    let member ← set.elems[idx]?
    let (members, left) ← sPopDraws rng count (i + 1) (set.erase member)
    some (member :: members, left)

/-- Different members of a set, and the set without them. -/
structure Partition (set : RedisSet) (members : List Bytes) (left : RedisSet) : Prop where
  nodup : members.Nodup
  subset : ∀ m ∈ members, m ∈ set
  left : ∀ m, m ∈ left ↔ m ∈ set ∧ m ∉ members

theorem partition_nil (set : RedisSet) : Partition set [] set :=
  ⟨List.nodup_nil, fun _ hm => absurd hm List.not_mem_nil, fun _ => by simp⟩

/-- One more member is drawn first. -/
theorem Partition.cons {set left : RedisSet} {member : Bytes} {members : List Bytes}
    (h : Partition (set.erase member) members left) (hmem : member ∈ set) :
    Partition set (member :: members) left := by
  have hsub : ∀ m ∈ members, m ≠ member ∧ m ∈ set :=
    fun m hm => UnorderedSet.mem_erase.mp (h.subset m hm)
  refine ⟨List.nodup_cons.mpr ⟨fun hm => (hsub member hm).1 rfl, h.nodup⟩,
    List.forall_mem_cons.mpr ⟨hmem, fun m hm => (hsub m hm).2⟩, fun m => ?_⟩
  rw [h.left, UnorderedSet.mem_erase, List.mem_cons, not_or]
  tauto

/-- **The draws of a pop**: none is made from an empty set, and they are a
partition of the set. -/
theorem sPopDraws_eq (rng : Nat → Nat → Nat) {count : Nat} (i : Nat) {set : RedisSet}
    (h : count ≤ set.size) : ∃ members left, sPopDraws rng count i set = some (members, left) ∧
      sPopLoop rng count i set = (members.map RespCodec.bulkString, left) ∧
      Partition set members left ∧ members.length = count := by
  induction count generalizing i set with
  | zero => exact ⟨[], set, rfl, rfl, partition_nil set, rfl⟩
  | succ count ih =>
      have hpos : 0 < set.elems.length := by
        unfold UnorderedSet.size at h
        omega
      have hempty : set.empty = false := by
        rw [UnorderedSet.empty, List.isEmpty_eq_false_iff]
        exact List.ne_nil_of_length_pos hpos
      have hlt : rng i 0 % set.size < set.elems.length := Nat.mod_lt _ hpos
      have hmem : set.elems[rng i 0 % set.size] ∈ set := List.getElem_mem hlt
      obtain ⟨members, left, hdraws, hloop, hpart, hlen⟩ :=
        @ih (i + 1) (set.erase set.elems[rng i 0 % set.size]) (by
          rw [UnorderedSet.size_erase_of_mem hmem]
          omega)
      refine ⟨set.elems[rng i 0 % set.size] :: members, left, ?_, ?_, hpart.cons hmem,
        by rw [List.length_cons, hlen]⟩
      · simp [sPopDraws, hempty, List.getElem?_eq_getElem hlt, hdraws]
      · rw [sPopLoop, List.getD_eq_getElem _ _ hlt]
        simp only [hloop, List.map_cons]

/-- The reply of `SPOP` to a client: an array with a count, else the only member
or nil. -/
def membersPopped (withCount : Bool) (members : List Bytes) : Bytes :=
  if withCount then bulkArray members
  else (members.head?.map RespCodec.bulkString).getD RespCodec.nullBulkString

/-- **`SPOP` partitions the set.** -/
theorem sPopCmd_partitions {db : Dict} {name key : Bytes} {rest : List Bytes} {now : TimePoint}
    {rng : Nat → Nat → Nat} {obj : RedisObject} {set : RedisSet} {count : Int}
    (hlive : db.live now key = some obj) (hset : obj.value = .set set)
    (hcount : sPopArg (key :: rest) = some count) :
    ∃ members left,
      sPopDraws rng (min count set.size).toNat 0 set = some (members, left) ∧
      (sPopCmd ⟨db, ⟨name, key :: rest⟩, now, rng⟩).1 =
        membersPopped (decide (rest ≠ [])) members ∧
      (members.length : Int) = min count set.size ∧ Partition set members left ∧
      ((sPopCmd ⟨db, ⟨name, key :: rest⟩, now, rng⟩).2.get key = none ↔ ∀ m, m ∉ left) ∧
      ∀ obj', (sPopCmd ⟨db, ⟨name, key :: rest⟩, now, rng⟩).2.get key = some obj' →
        obj' = obj.withValue (.set left) := by
  have hspec := sPopCmd_performs ⟨db, ⟨name, key :: rest⟩, now, rng⟩
  have hnonneg : 0 ≤ count := by
    rw [sPopArg] at hcount
    split at hcount
    · dsimp only at hcount
      split at hcount
      · contradiction
      · next hbad =>
        cases hcount
        omega
    · cases hcount
      decide
  have hmin : (if count > set.size then (set.size : Int) else count) = min count set.size := by
    split <;> omega
  obtain ⟨members, left, hdraws, hloop, hpart, hlen⟩ :=
    @sPopDraws_eq rng (min count set.size).toNat 0 set (by omega)
  have hdraw : sPopDraw rng count set = (members.map RespCodec.bulkString, left) := by
    rw [sPopDraw, hmin, hloop]
  simp only [sPopAction, List.isEmpty_cons, Bool.false_eq_true, if_false, hcount] at hspec
  change Performs _ now key _ at hspec
  obtain ⟨hreply, hget⟩ := hspec db
  have hget := (hget key).trans (if_pos rfl)
  simp only [hlive, hset, ValueVariant.asSet, hdraw] at hreply hget
  refine ⟨members, left, hdraws, hreply.trans ?_, by omega, hpart, ?_, fun obj' hobj' => ?_⟩
  · have hcounted : decide ((key :: rest).length ≥ 2) = decide (rest ≠ []) := by
      cases rest <;> simp
    rw [hcounted, membersPopped, bulkArray]
    cases members <;> rfl
  · rw [← UnorderedSet.empty_iff]
    change (sPopCmd _).2.get key = _ at hget
    rw [hget]
    cases left.empty <;> simp
  · have hobj := hobj'.symm.trans hget
    split at hobj
    · contradiction
    · exact Option.some.inj hobj

/-- A set of two members. -/
def pairSet : RedisSet := ⟨[ascii "a", ascii "b"], by decide⟩

theorem sPopCmd_partitions_pair : ∃ members left, Partition pairSet members left ∧
    (members.length : Int) = 1 ∧
      (sPopCmd ⟨(∅ : Dict).set (ascii "s") (RedisObject.createSet.withValue (.set pairSet)),
        ⟨ascii "SPOP", [ascii "s"]⟩, 0, fun _ _ => 1⟩).1 = membersPopped false members := by
  obtain ⟨members, left, -, hreply, hlen, hpart, -⟩ :=
    @sPopCmd_partitions
      ((∅ : Dict).set (ascii "s") (RedisObject.createSet.withValue (.set pairSet)))
      (ascii "SPOP") (ascii "s") [] 0 (fun _ _ => 1) _ pairSet 1 rfl rfl rfl
  exact ⟨members, left, hpart, hlen, hreply⟩

end RedisLike
