import Mathlib

/-!
# RedisLike.Lib.LastWriter

Cells under last-writer-wins writes, up to an equivalence on the values.

A write stores a value or clears the cell; storing a value that is equivalent to
the one in the cell keeps the old one.  Whatever the writes, running them again
on their own result changes nothing (`storeAll_storeAll`): this is what makes a
log of such writes safe to replay on top of a snapshot that already has them.
-/

namespace RedisLike

namespace LastWriter

variable {κ β : Type*} (same : β → β → Bool)

/-- One write to a cell: `some v` stores `v`, `none` clears. -/
def write (x : Option β) : Option β → Option β
  | none => none
  | some v =>
    match x with
    | none => some v
    | some old => if same old v then some old else some v

theorem write_some_ne_none (x : Option β) (v : β) : write same x (some v) ≠ none := by
  cases x with
  | none => simp [write]
  | some old => rw [write]; split <;> simp

/-- Writes to many cells, in order. -/
def storeAll [DecidableEq κ] (cells : κ → Option β) (writes : List (κ × Option β)) :
    κ → Option β :=
  writes.foldl (fun cells w => Function.update cells w.1 (write same (cells w.1) w.2)) cells

section cells

variable [DecidableEq κ]

theorem storeAll_append (cells : κ → Option β) (ws ws' : List (κ × Option β)) :
    storeAll same cells (ws ++ ws') = storeAll same (storeAll same cells ws) ws' := by
  rw [storeAll, List.foldl_append]
  rfl

/-- A cell sees the writes to it. -/
theorem storeAll_apply (cells : κ → Option β) (writes : List (κ × Option β)) (c : κ) :
    storeAll same cells writes c =
      ((writes.filter fun w => w.1 = c).map Prod.snd).foldl (write same) (cells c) := by
  induction writes generalizing cells with
  | nil => rfl
  | cons w writes ih =>
      rw [storeAll, List.foldl_cons, ← storeAll, ih]
      by_cases hc : w.1 = c
      · rw [List.filter_cons_of_pos (by simpa using hc), List.map_cons, List.foldl_cons, hc,
          Function.update_self]
      · rw [List.filter_cons_of_neg (by simpa using hc), Function.update_of_ne (Ne.symm hc)]

/-- Clearing cells does not fill any. -/
theorem storeAll_clear {cells : κ → Option β} {writes : List (κ × Option β)}
    (hw : ∀ w ∈ writes, w.2 = none) {c : κ} (hc : cells c = none) :
    storeAll same cells writes c = none := by
  rw [storeAll_apply, hc]
  have hall : ∀ u ∈ (writes.filter fun w => w.1 = c).map Prod.snd, u = none := by
    intro u hu
    obtain ⟨w, hmem, rfl⟩ := List.mem_map.mp hu
    exact hw w (List.mem_of_mem_filter hmem)
  generalize (writes.filter fun w => w.1 = c).map Prod.snd = us at hall
  induction us with
  | nil => rfl
  | cons u us ih =>
      rw [List.foldl_cons, hall u (by simp)]
      exact ih fun v hv => hall v (List.mem_cons_of_mem u hv)

/-- Cleared cells are empty. -/
theorem storeAll_clear_of_mem {cells : κ → Option β} {writes : List (κ × Option β)}
    (hw : ∀ w ∈ writes, w.2 = none) {c : κ} (hc : c ∈ writes.map Prod.fst) :
    storeAll same cells writes c = none := by
  induction writes generalizing cells with
  | nil => exact absurd hc List.not_mem_nil
  | cons w ws ih =>
      rw [List.forall_mem_cons] at hw
      rw [storeAll, List.foldl_cons, ← storeAll]
      by_cases hmem : c ∈ ws.map Prod.fst
      · exact ih hw.2 hmem
      · have hwc : c = w.1 := (List.mem_cons.mp hc).resolve_right hmem
        refine storeAll_clear same hw.2 ?_
        rw [hwc, Function.update_self, hw.1]
        rfl

/-- Writes that empty every cell empty those that were empty before. -/
theorem storeAll_none {cells : κ → Option β} {writes : List (κ × Option β)}
    (h : storeAll same cells writes = fun _ => none) :
    storeAll same (fun _ => none) writes = fun _ => none := by
  funext c
  have hc := congrFun h c
  rw [storeAll_apply] at hc ⊢
  generalize (writes.filter fun w => w.1 = c).map Prod.snd = us at hc
  cases us using List.reverseRecOn with
  | nil => rfl
  | append_singleton us u =>
      rw [List.foldl_append, List.foldl_cons, List.foldl_nil] at hc ⊢
      cases u with
      | none => rfl
      | some v => exact absurd hc (write_some_ne_none same _ v)

/-- The cell of the last write holds something, if that write stores. -/
theorem exists_storeAll_ne_none {cells : κ → Option β} {writes : List (κ × Option β)}
    (hne : writes ≠ []) (hw : ∀ w ∈ writes, w.2 ≠ none) :
    ∃ c, storeAll same cells writes c ≠ none := by
  obtain ⟨ws, w, rfl⟩ := List.eq_nil_or_concat' writes |>.resolve_left hne
  refine ⟨w.1, ?_⟩
  obtain ⟨v, hv⟩ := Option.ne_none_iff_exists'.mp (hw w (by simp))
  rw [storeAll_append, storeAll, List.foldl_cons, List.foldl_nil, Function.update_self, hv]
  exact write_some_ne_none same _ v

end cells

/-! ## Writing again -/

section again

variable (hsymm : ∀ a b, same a b = same b a)
  (htrans : ∀ a b c, same a b = true → same b c = true → same a c = true)

include hsymm htrans in
/-- **A run of writes to one cell** leaves it alone, or sets it whatever it held,
or acts like a single stored value. -/
theorem foldl_write_cases (us : List (Option β)) :
    us = [] ∨ (∃ y, ∀ x, us.foldl (write same) x = y) ∨
      ∃ v, ∀ x, us.foldl (write same) x = write same x (some v) := by
  induction us using List.reverseRecOn with
  | nil => exact .inl rfl
  | append_singleton us u ih =>
      simp only [List.foldl_append, List.foldl_cons, List.foldl_nil]
      refine .inr ?_
      cases u with
      | none => exact .inl ⟨none, fun _ => rfl⟩
      | some v =>
          obtain rfl | ⟨y, hy⟩ | ⟨v', hv'⟩ := ih
          · exact .inr ⟨v, fun _ => rfl⟩
          · exact .inl ⟨write same y (some v), fun x => by rw [hy x]⟩
          · by_cases hvv : same v' v = true
            · -- the second value is kept out by the first
              refine .inr ⟨v', fun x => ?_⟩
              rw [hv' x]
              cases x with
              | none => simp [write, hvv]
              | some old =>
                  by_cases ho : same old v' = true
                  · simp [write, ho, htrans old v' v ho hvv]
                  · simp [write, ho, hvv]
            · -- the second value replaces whatever the first left
              refine .inl ⟨some v, fun x => ?_⟩
              rw [hv' x]
              cases x with
              | none => simp [write, hvv]
              | some old =>
                  by_cases ho : same old v' = true
                  · have hov : ¬ same old v = true := fun h =>
                      hvv (htrans v' old v (by rw [hsymm]; exact ho) h)
                    simp [write, ho, hov]
                  · simp [write, ho, hvv]

include hsymm htrans in
theorem foldl_write_foldl_write (us : List (Option β)) :
    us.foldl (write same) (us.foldl (write same) none) = us.foldl (write same) none := by
  obtain rfl | ⟨y, hy⟩ | ⟨v, hv⟩ := foldl_write_cases same hsymm htrans us
  · rfl
  · rw [hy, hy]
  · rw [hv none, hv]
    simp [write]

include hsymm htrans in
/-- **Replaying writes on their own result changes nothing.** -/
theorem storeAll_storeAll [DecidableEq κ] (writes : List (κ × Option β)) :
    storeAll same (storeAll same (fun _ => none) writes) writes =
      storeAll same (fun _ => none) writes := by
  funext c
  rw [storeAll_apply, storeAll_apply]
  exact foldl_write_foldl_write same hsymm htrans _

end again

end LastWriter

end RedisLike
