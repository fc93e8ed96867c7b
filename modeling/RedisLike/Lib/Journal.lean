import Mathlib

/-!
# RedisLike.Lib.Journal

Machines that write a journal.

An operation writes at most one record, behind those of the operations before.  A
crash keeps some first bytes of the journal: the records of some first operations,
and perhaps the front of one more record (`exists_cut`).
-/

namespace RedisLike

/-- A machine, the record that an operation writes, and its bytes. -/
structure Journal (σ ο ρ β : Type*) where
  next : σ → ο → σ
  record : σ → ο → Option ρ
  encode : ρ → List β

namespace Journal

variable {σ ο ρ β : Type*} (J : Journal σ ο ρ β)

/-- The records of some operations. -/
def records (s : σ) : List ο → List ρ
  | [] => []
  | op :: ops => (J.record s op).toList ++ records (J.next s op) ops

/-- The journal behind some operations. -/
def bytes (s : σ) (ops : List ο) : List β := (J.records s ops).flatMap J.encode

theorem records_append (s : σ) (ops ops' : List ο) :
    J.records s (ops ++ ops') = J.records s ops ++ J.records (ops.foldl J.next s) ops' := by
  induction ops generalizing s with
  | nil => rfl
  | cons op ops ih =>
      rw [List.cons_append, records, records, ih, List.append_assoc, List.foldl_cons]

theorem bytes_cons (s : σ) (op : ο) (ops : List ο) :
    J.bytes s (op :: ops) =
      (J.record s op).toList.flatMap J.encode ++ J.bytes (J.next s op) ops := by
  rw [bytes, records, List.flatMap_append, bytes]

/-- The first bytes `p` of the journal of `ops` are those of the operations `pre`,
and the front of one more record.  Every operation whose record is in `p`, with
those before it, is in `pre`. -/
structure Cut (s : σ) (ops : List ο) (p : List β) (pre post : List ο) (torn : List β) : Prop where
  ops_eq : ops = pre ++ post
  bytes_eq : p = J.bytes s pre ++ torn
  torn_eq : torn = [] ∨ ∃ r, torn <+: J.encode r ∧ torn ≠ J.encode r ∧
    J.records s pre ++ [r] <+: J.records s ops
  kept : ∀ pre' post', ops = pre' ++ post' → (J.bytes s pre').length ≤ p.length →
    pre'.length ≤ pre.length

theorem Cut.nil (s : σ) : J.Cut s [] [] [] [] [] where
  ops_eq := rfl
  bytes_eq := rfl
  torn_eq := .inl rfl
  kept pre' post' h _ := by
    obtain ⟨rfl, -⟩ := List.append_eq_nil_iff.mp h.symm
    exact le_rfl

variable {J}

/-- A cut behind the first operation. -/
theorem Cut.cons {s : σ} {op : ο} {ops pre post : List ο} {p torn : List β}
    (h : J.Cut (J.next s op) ops p pre post torn) :
    J.Cut s (op :: ops) ((J.record s op).toList.flatMap J.encode ++ p) (op :: pre) post torn where
  ops_eq := by rw [h.ops_eq, List.cons_append]
  bytes_eq := by rw [bytes_cons, List.append_assoc, ← h.bytes_eq]
  torn_eq := h.torn_eq.imp id fun ⟨r, hr, hne, hin⟩ => by
    refine ⟨r, hr, hne, ?_⟩
    rw [records, records, List.append_assoc]
    exact (List.prefix_append_right_inj _).mpr hin
  kept pre' post' hops hlen := by
    cases pre' with
    | nil => exact Nat.zero_le _
    | cons op' pre' =>
        obtain ⟨rfl, rfl⟩ := List.cons.inj hops
        rw [bytes_cons, List.length_append, List.length_append] at hlen
        have := h.kept pre' post' rfl (by omega)
        rw [List.length_cons, List.length_cons]
        omega

/-- A cut inside the record of the first operation. -/
theorem Cut.inside {s : σ} {op : ο} {ops : List ο} {p : List β} {r : ρ}
    (hr : J.record s op = some r) (hp : p <+: J.encode r) (hne : p ≠ J.encode r) :
    J.Cut s (op :: ops) p [] (op :: ops) p where
  ops_eq := rfl
  bytes_eq := rfl
  torn_eq := .inr ⟨r, hp, hne, by simp [records, hr]⟩
  kept pre' post' hops hlen := by
    cases pre' with
    | nil => exact le_rfl
    | cons op' pre' =>
        obtain ⟨rfl, rfl⟩ := List.cons.inj hops
        rw [bytes_cons, hr, Option.toList_some, List.flatMap_singleton, List.length_append] at hlen
        exact absurd (hp.eq_of_length_le (by omega)) hne

/-- **Every cut of the journal** is one behind some first operations. -/
theorem exists_cut {s : σ} {ops : List ο} {p : List β} (h : p <+: J.bytes s ops) :
    ∃ pre post torn, J.Cut s ops p pre post torn := by
  induction ops generalizing s p with
  | nil =>
      obtain rfl := List.prefix_nil.mp h
      exact ⟨[], [], [], Cut.nil J s⟩
  | cons op ops ih =>
      rw [bytes_cons] at h
      by_cases hle : ((J.record s op).toList.flatMap J.encode).length ≤ p.length
      · obtain ⟨p', rfl⟩ := List.prefix_of_prefix_length_le (List.prefix_append _ _) h hle
        obtain ⟨pre, post, torn, hcut⟩ := ih ((List.prefix_append_right_inj _).mp h)
        exact ⟨op :: pre, post, torn, hcut.cons⟩
      · have hp := List.prefix_of_prefix_length_le h (List.prefix_append _ _) (by omega)
        cases hr : J.record s op with
        | none => simp [hr] at hle
        | some r =>
            rw [hr, Option.toList_some, List.flatMap_singleton] at hp hle
            exact ⟨[], op :: ops, p, Cut.inside hr hp fun heq => hle (by rw [heq])⟩

end Journal

end RedisLike
