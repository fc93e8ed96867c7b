import Mathlib

/-!
# RedisLike.Lib.Chain

Singly linked chains, seen through a successor function.

`Linked next a l` says that following `next` from `a` visits exactly the nodes
`l` and then ends.  The module has the laws a linked structure is verified
with: what a chain looks like behind a prefix (`Linked.drop`,
`Linked.next_getLastD`), frame (`Linked.congr`), insertion and removal of one
node (`Linked.insert`, `Linked.remove`), and the two loops over a chain, the
search for a predecessor (`walk`) and the traversal (`follow`).
-/

namespace RedisLike.Chain

variable {α : Type*}

/-- Following `next` from `a` visits exactly `l`, then ends. -/
def Linked (next : α → Option α) : α → List α → Prop
  | a, [] => next a = none
  | a, b :: l => next a = some b ∧ Linked next b l

variable {next next' : α → Option α} {a : α} {l l₁ l₂ : List α}

/-! ## Parts of a chain -/

theorem Linked.next_eq (h : Linked next a l) : next a = l.head? := by
  cases l with
  | nil => exact h
  | cons b l => exact h.1

/-- Behind a prefix the chain goes on from the last node of the prefix. -/
theorem Linked.drop (h : Linked next a (l₁ ++ l₂)) : Linked next (l₁.getLastD a) l₂ := by
  induction l₁ generalizing a with
  | nil => exact h
  | cons b l₁ ih =>
      rw [List.getLastD_cons]
      exact ih h.2

/-- The successor of the last node of a prefix is the head of the rest. -/
theorem Linked.next_getLastD (h : Linked next a (l₁ ++ l₂)) :
    next (l₁.getLastD a) = l₂.head? :=
  h.drop.next_eq

/-- A chain only depends on the successors of the nodes it visits. -/
theorem Linked.congr (h : Linked next a l) (hc : ∀ x ∈ a :: l, next' x = next x) :
    Linked next' a l := by
  induction l generalizing a with
  | nil => exact (hc a (by simp)).trans h
  | cons b l ih =>
      refine ⟨(hc a (by simp)).trans h.1, ih h.2 fun x hx => hc x ?_⟩
      exact List.mem_cons_of_mem a hx

/-! ## Changing one link -/

theorem getLastD_append (l₁ l₂ : List α) (a : α) :
    (l₁ ++ l₂).getLastD a = l₂.getLastD (l₁.getLastD a) := by
  induction l₁ generalizing a with
  | nil => simp
  | cons b l₁ ih => rw [List.cons_append, List.getLastD_cons, List.getLastD_cons, ih]

theorem getLastD_mem (l : List α) (a : α) : l.getLastD a ∈ a :: l := by
  induction l generalizing a with
  | nil => simp
  | cons b l ih => rw [List.getLastD_cons]; exact List.mem_cons_of_mem a (ih b)

/-- **Insertion**: linking a new node `n` behind the last node of a prefix
puts it between the prefix and the rest. -/
theorem Linked.insert {n : α} (h : Linked next a (l₁ ++ l₂)) (hnd : (a :: (l₁ ++ l₂)).Nodup)
    (hn : n ∉ a :: (l₁ ++ l₂)) (hp : next' (l₁.getLastD a) = some n)
    (hnext : next' n = l₂.head?) (hc : ∀ x, x ≠ n → x ≠ l₁.getLastD a → next' x = next x) :
    Linked next' a (l₁ ++ n :: l₂) := by
  induction l₁ generalizing a with
  | nil =>
      refine ⟨hp, ?_⟩
      cases l₂ with
      | nil => exact hnext
      | cons b l₂ =>
          refine ⟨hnext, Linked.congr h.2 fun x hx => hc x ?_ ?_⟩
          · rintro rfl; exact hn (List.mem_cons_of_mem a hx)
          · rintro rfl; exact (List.nodup_cons.mp hnd).1 hx
  | cons b l₁ ih =>
      rw [List.getLastD_cons] at hp hc
      have hmem := getLastD_mem l₁ b
      have hane : a ≠ l₁.getLastD b := by
        intro he
        refine (List.nodup_cons.mp hnd).1 ?_
        rw [he]
        exact List.mem_append_left l₂ hmem
      have han : a ≠ n := by rintro rfl; exact hn (by simp)
      refine ⟨(hc a han hane).trans h.1, ih h.2 (List.nodup_cons.mp hnd).2 ?_ hp hc⟩
      exact fun hx => hn (List.mem_cons_of_mem a hx)

/-- **Removal**: relinking the last node of a prefix past `d` takes `d` out of
the chain. -/
theorem Linked.remove {d : α} (h : Linked next a (l₁ ++ d :: l₂))
    (hnd : (a :: (l₁ ++ d :: l₂)).Nodup) (hp : next' (l₁.getLastD a) = l₂.head?)
    (hc : ∀ x, x ≠ d → x ≠ l₁.getLastD a → next' x = next x) :
    Linked next' a (l₁ ++ l₂) := by
  induction l₁ generalizing a with
  | nil =>
      have hrest := (List.nodup_cons.mp hnd)
      cases l₂ with
      | nil => exact hp
      | cons b l₂ =>
          refine ⟨hp, Linked.congr h.2.2 fun x hx => hc x ?_ ?_⟩
          · rintro rfl; exact (List.nodup_cons.mp hrest.2).1 hx
          · rintro rfl; exact hrest.1 (List.mem_cons_of_mem d hx)
  | cons b l₁ ih =>
      rw [List.getLastD_cons] at hp hc
      have hmem := getLastD_mem l₁ b
      have hane : a ≠ l₁.getLastD b := by
        intro he
        refine (List.nodup_cons.mp hnd).1 ?_
        rw [he]
        exact List.mem_append_left _ hmem
      have had : a ≠ d := by
        rintro rfl
        exact (List.nodup_cons.mp hnd).1 (by simp)
      exact ⟨(hc a had hane).trans h.1, ih h.2 (List.nodup_cons.mp hnd).2 hp hc⟩

/-- The last element of a sublist picked by `p` is also the last element of a
prefix of the list. -/
theorem exists_prefix_getLastD_filter (p : α → Bool) (l : List α) (a : α) :
    ∃ l₁ l₂, l = l₁ ++ l₂ ∧ (l.filter p).getLastD a = l₁.getLastD a := by
  induction l generalizing a with
  | nil => exact ⟨[], [], rfl, rfl⟩
  | cons b l ih =>
      by_cases hb : p b = true
      · obtain ⟨l₁, l₂, hl, hlast⟩ := ih b
        refine ⟨b :: l₁, l₂, by simp [← hl], ?_⟩
        rw [List.filter_cons_of_pos hb, List.getLastD_cons, List.getLastD_cons, hlast]
      · obtain ⟨l₁, l₂, hl, hlast⟩ := ih a
        rw [List.filter_cons_of_neg hb]
        cases l₁ with
        | nil => exact ⟨[], b :: l, rfl, hlast⟩
        | cons c l₁ => exact ⟨b :: c :: l₁, l₂, by simp [hl], by simpa using hlast⟩

/-! ## Sorted prefixes -/

/-- On a list sorted by a relation that `p` respects, the longest prefix that
satisfies `p` is all of the list that does. -/
theorem takeWhile_eq_filter {r : α → α → Prop} {p : α → Bool}
    (hl : l.Pairwise r) (hp : ∀ a b, r a b → p b = true → p a = true) :
    l.takeWhile p = l.filter p ∧ l.dropWhile p = l.filter (fun a => !p a) := by
  induction l with
  | nil => exact ⟨rfl, rfl⟩
  | cons a l ih =>
      obtain ⟨ha, hl⟩ := List.pairwise_cons.mp hl
      by_cases hpa : p a = true
      · simp [hpa, ih hl]
      · have hnone : ∀ b ∈ l, p b = false := by
          intro b hb
          by_contra hpb
          exact hpa (hp a b (ha b hb) (by simpa using hpb))
        have h1 : l.filter p = [] := List.filter_eq_nil_iff.mpr fun b hb => by simp [hnone b hb]
        have h2 : l.filter (fun a => !p a) = l :=
          List.filter_eq_self.mpr fun b hb => by simp [hnone b hb]
        simp [hpa, h1, h2]

/-! ## The two loops -/

/-- `while (next(node) && p(next(node))) node = next(node);`, with a bound on
the number of rounds. -/
def walk (next : α → Option α) (p : α → Bool) : Nat → α → α
  | 0, a => a
  | fuel + 1, a =>
    match next a with
    | none => a
    | some b => if p b then walk next p fuel b else a

/-- The loop ends at the last node of the longest prefix that satisfies `p`. -/
theorem walk_eq {p : α → Bool} (fuel : Nat) (h : Linked next a (l₁ ++ l₂))
    (hp : ∀ x ∈ l₁, p x = true) (hstop : ∀ x, l₂.head? = some x → p x = false)
    (hfuel : l₁.length ≤ fuel) : walk next p fuel a = l₁.getLastD a := by
  induction l₁ generalizing a fuel with
  | nil =>
      have hn := Linked.next_eq h
      simp only [List.nil_append, List.getLastD_nil] at hn ⊢
      cases fuel with
      | zero => rfl
      | succ fuel =>
          rw [walk, hn]
          cases hl : l₂.head? with
          | none => rfl
          | some x => simp [hstop x hl]
  | cons b l₁ ih =>
      cases fuel with
      | zero => simp at hfuel
      | succ fuel =>
          rw [walk, h.1]
          simp only [hp b (by simp), if_true, List.getLastD_cons]
          exact ih fuel h.2 (fun x hx => hp x (List.mem_cons_of_mem b hx)) (by simpa using hfuel)

/-- The nodes that `for (node = start; node; node = next(node))` visits, with
a bound on the number of rounds. -/
def follow (next : α → Option α) : Nat → Option α → List α
  | 0, _ => []
  | _ + 1, none => []
  | fuel + 1, some a => a :: follow next fuel (next a)

theorem follow_eq {fuel : Nat} (h : Linked next a l) (hfuel : l.length ≤ fuel) :
    follow next fuel (next a) = l := by
  induction l generalizing a fuel with
  | nil =>
      have hn : next a = none := h
      cases fuel <;> simp [follow, hn]
  | cons b l ih =>
      cases fuel with
      | zero => simp at hfuel
      | succ fuel =>
          rw [h.1, follow, ih h.2 (by simpa using hfuel)]

end RedisLike.Chain
