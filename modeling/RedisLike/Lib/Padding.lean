import Mathlib

/-!
# RedisLike.Lib.Padding

Bytes that are cut short and filled up with zeros.

`Fills bytes rest` says that `rest`, with zeros for what is missing, starts with
`bytes`.  It composes along `++`, as the fields of a record do.  For words of a
code in which no word starts another, a list that is cut short is only filled
up to a rearrangement of itself if what is missing was zero
(`eq_of_fills_flatten`).
-/

namespace RedisLike

/-! ## Padding -/

/-- The first `n` bytes of `s`, with zeros for those that are missing. -/
def pad : Nat → List UInt8 → List UInt8
  | 0, _ => []
  | n + 1, [] => 0 :: pad n []
  | n + 1, b :: s => b :: pad n s

@[simp] theorem length_pad (n : Nat) (s : List UInt8) : (pad n s).length = n := by
  induction n generalizing s with
  | zero => rfl
  | succ n ih => cases s <;> simp [pad, ih]

theorem pad_nil (n : Nat) : pad n [] = List.replicate n 0 := by
  induction n with
  | zero => rfl
  | succ n ih => rw [pad, ih, List.replicate_succ]

theorem pad_add (m n : Nat) (s : List UInt8) : pad (m + n) s = pad m s ++ pad n (s.drop m) := by
  induction m generalizing s with
  | zero => rw [Nat.zero_add, pad, List.nil_append, List.drop_zero]
  | succ m ih =>
      rw [Nat.succ_add]
      cases s with
      | nil => rw [pad, pad, ih, List.drop_nil, List.drop_nil, List.cons_append]
      | cons b s => rw [pad, pad, ih, List.drop_succ_cons, List.cons_append]

theorem pad_of_le {n : Nat} {s : List UInt8} (h : n ≤ s.length) : pad n s = s.take n := by
  induction n generalizing s with
  | zero => rfl
  | succ n ih =>
      cases s with
      | nil => simp at h
      | cons b s => rw [pad, List.take_succ_cons, ih (by simpa using h)]

theorem pad_of_length_le {n : Nat} {s : List UInt8} (h : s.length ≤ n) :
    pad n s = s ++ List.replicate (n - s.length) 0 := by
  obtain ⟨k, rfl⟩ := Nat.exists_eq_add_of_le h
  rw [pad_add, pad_of_le le_rfl, List.take_length, List.drop_length, pad_nil,
    Nat.add_sub_cancel_left]

/-! ## Filling up -/

/-- `rest`, filled up with zeros, starts with `bytes`. -/
def Fills (bytes rest : List UInt8) : Prop := pad bytes.length rest = bytes

instance (bytes rest : List UInt8) : Decidable (Fills bytes rest) :=
  inferInstanceAs (Decidable (pad bytes.length rest = bytes))

theorem fills_pad (n : Nat) (rest : List UInt8) : Fills (pad n rest) rest := by
  rw [Fills, length_pad]

theorem fills_append {a b rest : List UInt8} :
    Fills (a ++ b) rest ↔ Fills a rest ∧ Fills b (rest.drop a.length) := by
  rw [Fills, List.length_append, pad_add]
  constructor
  · intro h
    exact List.append_inj h (length_pad _ _)
  · rintro ⟨ha, hb⟩
    rw [ha, hb]

theorem fills_of_isPrefix {bytes rest : List UInt8} (h : bytes <+: rest) : Fills bytes rest := by
  rw [Fills, pad_of_le h.length_le]
  exact (List.prefix_iff_eq_take.mp h).symm

theorem Fills.prefix_of_le {bytes rest : List UInt8} (h : Fills bytes rest)
    (hlen : bytes.length ≤ rest.length) : bytes <+: rest := by
  rw [Fills, pad_of_le hlen] at h
  rw [← h]
  exact List.take_prefix _ _

theorem fills_nil_iff {bytes : List UInt8} :
    Fills bytes [] ↔ bytes = List.replicate bytes.length 0 := by
  rw [Fills, pad_nil, eq_comm]

/-- What is filled up from zeros alone is the same from anything that they fill up. -/
theorem Fills.trans_nil {a b : List UInt8} (ha : Fills a []) (hb : Fills b a) : Fills b [] := by
  rw [fills_nil_iff] at ha
  rw [Fills, ha] at hb
  rw [Fills, pad_nil, ← hb]
  have hzeros : ∀ n k, pad n (List.replicate k 0) = List.replicate n 0 := by
    intro n
    induction n with
    | zero => exact fun _ => rfl
    | succ n ih =>
        intro k
        cases k with
        | zero => exact pad_nil _
        | succ k => rw [List.replicate_succ, pad, ih, List.replicate_succ]
  rw [hzeros, List.length_replicate]

/-! ## Lists of code words -/

section Code

variable {α : Type*} {word : α → List UInt8}

/-- No word of the code starts another. -/
def PrefixFree (word : α → List UInt8) (ok : α → Prop) : Prop :=
  ∀ a b rest, ok a → ok b → Fills (word a) rest → Fills (word b) rest → a = b

/-- Whatever is filled up starts with a word. -/
def Total (word : α → List UInt8) (ok : α → Prop) : Prop := ∀ rest, ∃ a, ok a ∧ Fills (word a) rest

/-- A word of each of two codes. -/
theorem Total.append {β : Type*} {word' : β → List UInt8} {ok : α → Prop} {ok' : β → Prop}
    (h : Total word ok) (h' : Total word' ok') :
    Total (fun p : α × β => word p.1 ++ word' p.2) fun p => ok p.1 ∧ ok' p.2 := by
  intro rest
  obtain ⟨a, ha, hfill⟩ := h rest
  obtain ⟨b, hb, hfill'⟩ := h' (rest.drop (word a).length)
  exact ⟨(a, b), ⟨ha, hb⟩, fills_append.mpr ⟨hfill, hfill'⟩⟩

/-- As many words as one asks for. -/
theorem Total.exists_flatten {ok : α → Prop} (h : Total word ok) (n : Nat) (rest : List UInt8) :
    ∃ as : List α, as.length = n ∧ (∀ a ∈ as, ok a) ∧ Fills (as.map word).flatten rest := by
  induction n generalizing rest with
  | zero => exact ⟨[], rfl, nofun, rfl⟩
  | succ n ih =>
      obtain ⟨a, ha, hfill⟩ := h rest
      obtain ⟨as, hlen, has, hfills⟩ := ih (rest.drop (word a).length)
      refine ⟨a :: as, congrArg (· + 1) hlen, List.forall_mem_cons.mpr ⟨ha, has⟩, ?_⟩
      rw [List.map_cons, List.flatten_cons]
      exact fills_append.mpr ⟨hfill, hfills⟩

variable {ok : α → Prop} {zero : α}

/-- A word read from what is left of another is not shorter than that. -/
theorem PrefixFree.length_le (hfree : PrefixFree word ok) {a b : α} {cut : List UInt8} (ha : ok a)
    (hb : ok b) (hcut : cut <+: word a) (hfill : Fills (word b) cut) :
    cut.length ≤ (word b).length := by
  by_contra hshort
  have hba : word b <+: word a := (hfill.prefix_of_le (by omega)).trans hcut
  have heq : b = a := hfree b a (word a) hb ha (fills_of_isPrefix hba)
    (fills_of_isPrefix (List.prefix_refl _))
  have hle := hcut.length_le
  rw [heq] at hshort
  omega

/-- Words read from zeros alone. -/
theorem eq_zero_of_fills_nil (hfree : PrefixFree word ok) (hok : ok zero)
    (hzero : Fills (word zero) []) {as : List α} (has : ∀ a ∈ as, ok a)
    (h : Fills (as.map word).flatten []) : ∀ a ∈ as, a = zero := by
  induction as with
  | nil => exact nofun
  | cons a as ih =>
      rw [List.map_cons, List.flatten_cons, fills_append, List.drop_nil] at h
      have ha : a = zero := hfree a zero [] (has a List.mem_cons_self) hok h.1 hzero
      have hrest := ih (fun b hb => has b (List.mem_cons_of_mem a hb)) h.2
      exact List.forall_mem_cons.mpr ⟨ha, hrest⟩

/-- **A list cut short and filled up** is the list itself, if it is a
rearrangement of it: all that was missing is zero. -/
theorem eq_of_fills_flatten (hfree : PrefixFree word ok) (hok : ok zero)
    (hzero : Fills (word zero) []) {as bs : List α} {cut : List UInt8} (has : ∀ a ∈ as, ok a)
    (hcut : cut <+: (as.map word).flatten) (hfill : Fills (bs.map word).flatten cut)
    (hperm : bs.Perm as) : bs = as := by
  induction as generalizing bs cut with
  | nil => exact hperm.eq_nil
  | cons a as ih =>
      cases bs with
      | nil => exact absurd hperm.length_eq (by simp)
      | cons b bs =>
          have hb : ok b := has b (hperm.subset List.mem_cons_self)
          have ha : ok a := has a List.mem_cons_self
          have hbs : ∀ c ∈ bs, ok c := fun c hc => has c (hperm.subset (List.mem_cons_of_mem b hc))
          rw [List.map_cons, List.flatten_cons] at hcut hfill
          obtain ⟨hword, hrest⟩ := fills_append.mp hfill
          by_cases hlen : (word a).length ≤ cut.length
          · -- the first word is all there
            have hpre : word a <+: cut :=
              List.prefix_of_prefix_length_le (List.prefix_append _ _) hcut hlen
            obtain rfl : b = a := hfree b a cut hb ha hword (fills_of_isPrefix hpre)
            have hdrop : cut.drop (word b).length <+: (as.map word).flatten := by
              have hd := hcut.drop (word b).length
              rwa [List.drop_left] at hd
            rw [ih (fun c hc => has c (List.mem_cons_of_mem b hc)) hdrop hrest
              (List.perm_cons b |>.mp hperm)]
          · -- the first word is cut, and behind it there are only zeros
            have hpre : cut <+: word a :=
              List.prefix_of_prefix_length_le hcut (List.prefix_append _ _) (by omega)
            have hlong : cut.length ≤ (word b).length := hfree.length_le ha hb hpre hword
            rw [List.drop_eq_nil_of_le hlong] at hrest
            have hzeros := eq_zero_of_fills_nil hfree hok hzero hbs hrest
            by_cases heq : b = a
            · subst heq
              have hperm' : bs.Perm as := List.perm_cons b |>.mp hperm
              have hbs' : bs = List.replicate bs.length zero :=
                List.eq_replicate_of_mem hzeros
              have has' : as = List.replicate as.length zero :=
                List.eq_replicate_of_mem fun c hc => hzeros c (hperm'.symm.subset hc)
              rw [hbs', has', hperm'.length_eq]
            · have hmem : a ∈ bs :=
                (List.mem_cons.mp (hperm.symm.subset List.mem_cons_self)).resolve_left (Ne.symm heq)
              have hazero : Fills (word a) [] := hzeros a hmem ▸ hzero
              have hcutzero : Fills cut [] := by
                obtain ⟨t, ht⟩ := hpre
                rw [← ht] at hazero
                exact (fills_append.mp hazero).1
              exact absurd (hfree b a [] hb ha (hcutzero.trans_nil hword) hazero) heq

end Code

end RedisLike
