import Mathlib

/-!
# RedisLike.Lib.Unordered

`std::unordered_map` and `std::unordered_set`.

A map is a Mathlib `AList`, an association list without duplicate keys; a set
is a list without duplicates.  The order of the list is the iteration order.
The standard leaves that order open, so nothing may depend on it: two maps
mean the same when they have the same lookups, two sets when they have the
same members.
-/

namespace RedisLike

/-- `std::unordered_map<α, β>`. -/
abbrev UnorderedMap (α β : Type*) := AList fun _ : α => β

namespace UnorderedMap

variable {α β : Type*}

/-- `map.size()`. -/
def size (m : UnorderedMap α β) : Nat := m.entries.length

/-- `map.empty()`. -/
def empty (m : UnorderedMap α β) : Bool := m.entries.isEmpty

/-- The pairs in iteration order. -/
def pairs (m : UnorderedMap α β) : List (α × β) := m.entries.map fun e => (e.1, e.2)

theorem map_fst_pairs (m : UnorderedMap α β) : m.pairs.map Prod.fst = m.keys := by
  simp [pairs, AList.keys, List.keys]

theorem nodup_map_fst_pairs (m : UnorderedMap α β) : (m.pairs.map Prod.fst).Nodup := by
  rw [map_fst_pairs]
  exact m.nodupKeys

variable [DecidableEq α]

theorem lookup_insert_eq (a b : α) (v : β) (m : UnorderedMap α β) :
    (m.insert b v).lookup a = if a = b then some v else m.lookup a := by
  split
  · next h => rw [h, AList.lookup_insert]
  · next h => exact AList.lookup_insert_ne h

theorem lookup_erase_eq (a b : α) (m : UnorderedMap α β) :
    (m.erase b).lookup a = if a = b then none else m.lookup a := by
  split
  · next h => rw [h, AList.lookup_erase]
  · next h => exact AList.lookup_erase_ne h

theorem mem_pairs {a : α} {b : β} {m : UnorderedMap α β} :
    (a, b) ∈ m.pairs ↔ m.lookup a = some b := by
  rw [← Option.mem_def, AList.mem_lookup_iff]
  constructor
  · intro h
    obtain ⟨e, he, heq⟩ := List.mem_map.mp h
    cases heq
    exact he
  · exact fun h => List.mem_map.mpr ⟨⟨a, b⟩, h, rfl⟩

/-- An empty map is one without lookups. -/
theorem empty_iff {m : UnorderedMap α β} : m.empty = true ↔ ∀ a, m.lookup a = none := by
  constructor
  · intro h a
    have he : m.entries = [] := by simpa [empty] using h
    have hm : m = ∅ := AList.ext he
    rw [hm, AList.lookup_empty]
  · intro h
    rw [empty, List.isEmpty_iff]
    cases he : m.entries with
    | nil => rfl
    | cons e l =>
        have hmem : e ∈ m.entries := by rw [he]; simp
        have := AList.mem_lookup_iff.mpr hmem
        rw [h e.1] at this
        simp at this

/-- Pairs with different keys stored one by one: each is found again, and no
other key has changed. -/
theorem lookup_foldl_insert {l : List (α × β)} (hl : (l.map Prod.fst).Nodup)
    (m : UnorderedMap α β) :
    (∀ p ∈ l, (l.foldl (fun m p => m.insert p.1 p.2) m).lookup p.1 = some p.2) ∧
      ∀ a ∉ l.map Prod.fst, (l.foldl (fun m p => m.insert p.1 p.2) m).lookup a = m.lookup a := by
  induction l generalizing m with
  | nil => exact ⟨fun p hp => absurd hp List.not_mem_nil, fun _ _ => rfl⟩
  | cons q l ih =>
      rw [List.map_cons, List.nodup_cons] at hl
      obtain ⟨hmem, hother⟩ := ih hl.2 (m.insert q.1 q.2)
      refine ⟨List.forall_mem_cons.mpr ⟨?_, hmem⟩, fun a ha => ?_⟩
      · rw [List.foldl_cons, hother q.1 hl.1, AList.lookup_insert]
      · rw [List.map_cons, List.mem_cons, not_or] at ha
        rw [List.foldl_cons, hother a ha.2, AList.lookup_insert_ne ha.1]

/-- What is found was stored. -/
theorem mem_of_lookup_foldl_insert {l : List (α × β)} {m : UnorderedMap α β} {a : α} {b : β}
    (h : (l.foldl (fun m p => m.insert p.1 p.2) m).lookup a = some b) :
    (a, b) ∈ l ∨ m.lookup a = some b := by
  induction l generalizing m with
  | nil => exact .inr h
  | cons p l ih =>
      rcases ih h with hmem | hs
      · exact .inl (List.mem_cons_of_mem p hmem)
      · rw [lookup_insert_eq] at hs
        split at hs
        · next ha => exact .inl (List.mem_cons.mpr (.inl (Prod.ext ha (Option.some.inj hs).symm)))
        · exact .inr hs

/-- Storing the pairs of a map one by one gives a map with its lookups. -/
theorem lookup_foldl_insert_pairs (m : UnorderedMap α β) (a : α) :
    (m.pairs.foldl (fun m p => m.insert p.1 p.2) (∅ : UnorderedMap α β)).lookup a =
      m.lookup a := by
  obtain ⟨hmem, hother⟩ := lookup_foldl_insert m.nodup_map_fst_pairs (∅ : UnorderedMap α β)
  cases hl : m.lookup a with
  | none =>
      rw [hother a, AList.lookup_empty]
      rwa [map_fst_pairs, ← AList.mem_keys, ← AList.lookup_eq_none]
  | some b => exact hmem (a, b) (mem_pairs.mpr hl)

end UnorderedMap

/-- `std::unordered_set<α>`. -/
structure UnorderedSet (α : Type*) where
  elems : List α
  nodup : elems.Nodup
deriving DecidableEq

namespace UnorderedSet

variable {α : Type*}

instance : Membership α (UnorderedSet α) := ⟨fun s a => a ∈ s.elems⟩

theorem mem_def {a : α} {s : UnorderedSet α} : a ∈ s ↔ a ∈ s.elems := Iff.rfl

instance : EmptyCollection (UnorderedSet α) := ⟨⟨[], List.nodup_nil⟩⟩

@[simp] theorem notMem_empty (a : α) : a ∉ (∅ : UnorderedSet α) := List.not_mem_nil

/-- `set.size()`. -/
def size (s : UnorderedSet α) : Nat := s.elems.length

/-- `set.empty()`. -/
def empty (s : UnorderedSet α) : Bool := s.elems.isEmpty

/-- An empty set is one without members. -/
theorem empty_iff {s : UnorderedSet α} : s.empty = true ↔ ∀ a, a ∉ s := by
  simp [empty, mem_def, List.isEmpty_iff, List.eq_nil_iff_forall_not_mem]

/-- Sets with the same members have the same size. -/
theorem size_eq_of_mem_iff {s s' : UnorderedSet α} (h : ∀ a, a ∈ s ↔ a ∈ s') :
    s.size = s'.size :=
  ((List.perm_ext_iff_of_nodup s.nodup s'.nodup).mpr h).length_eq

variable [DecidableEq α]

instance (a : α) (s : UnorderedSet α) : Decidable (a ∈ s) :=
  inferInstanceAs (Decidable (a ∈ s.elems))

/-- `set.count(a) != 0`. -/
def contains (s : UnorderedSet α) (a : α) : Bool := decide (a ∈ s)

/-- `set.insert(a)`. -/
def insert (a : α) (s : UnorderedSet α) : UnorderedSet α := ⟨s.elems.insert a, s.nodup.insert⟩

/-- `set.erase(a)`. -/
def erase (a : α) (s : UnorderedSet α) : UnorderedSet α := ⟨s.elems.erase a, s.nodup.erase a⟩

@[simp] theorem mem_insert {a b : α} {s : UnorderedSet α} :
    a ∈ s.insert b ↔ a = b ∨ a ∈ s := by
  simp [mem_def, insert]

@[simp] theorem mem_erase {a b : α} {s : UnorderedSet α} :
    a ∈ s.erase b ↔ a ≠ b ∧ a ∈ s := by
  simp [mem_def, erase, s.nodup.mem_erase_iff]

theorem size_erase_of_mem {a : α} {s : UnorderedSet α} (h : a ∈ s) :
    (s.erase a).size = s.size - 1 := by
  simp only [size, erase]
  exact List.length_erase_of_mem (mem_def.mp h)

theorem mem_foldl_insert {a : α} (l : List α) (s : UnorderedSet α) :
    a ∈ l.foldl (fun s b => s.insert b) s ↔ a ∈ l ∨ a ∈ s := by
  induction l generalizing s with
  | nil => simp
  | cons b l ih => rw [List.foldl_cons, ih, mem_insert, List.mem_cons]; tauto

end UnorderedSet

end RedisLike
