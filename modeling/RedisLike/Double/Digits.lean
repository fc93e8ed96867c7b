import RedisLike.Double.Integer

/-!
# RedisLike.Double.Digits

Decimal digits, and what rounding to six of them keeps.
-/

namespace RedisLike

/-! ## Values of digits -/

theorem digitsValue_append (a b : Bytes) :
    digitsValue (a ++ b) = digitsValue a * 10 ^ b.length + digitsValue b := by
  have hstart : ∀ (l : Bytes) (v : Nat), l.foldl (fun n d => 10 * n + (d.toNat - 48)) v =
      v * 10 ^ l.length + digitsValue l := by
    intro l
    induction l with
    | nil => intro v; simp [digitsValue]
    | cons c l ih =>
        intro v
        rw [digitsValue, List.foldl_cons, List.foldl_cons, ih, ih (10 * 0 + _), List.length_cons]
        ring
  rw [digitsValue, List.foldl_append]
  exact hstart b _

theorem digitsValue_replicate_zero (k : Nat) : digitsValue (List.replicate k 48) = 0 := by
  induction k with
  | zero => rfl
  | succ k ih =>
      rw [List.replicate_succ', digitsValue_append, ih]
      rfl

theorem digitsValue_lt {s : Bytes} (hs : ∀ c ∈ s, isDigit c = true) :
    digitsValue s < 10 ^ s.length := by
  induction s with
  | nil => exact one_pos
  | cons c s ih =>
      rw [List.forall_mem_cons, isDigit_iff] at hs
      have hlt := ih hs.2
      have hc : digitsValue [c] = c.toNat - 48 := by simp [digitsValue]
      rw [← List.singleton_append, digitsValue_append, hc, List.singleton_append, List.length_cons,
        pow_succ]
      have hmul : (c.toNat - 48) * 10 ^ s.length ≤ 9 * 10 ^ s.length :=
        Nat.mul_le_mul_right _ (by omega)
      omega

/-! ## The digits of a number -/

theorem length_toDecimal_le_iff {n k : Nat} (hk : 0 < k) :
    (toDecimal n).length ≤ k ↔ n < 10 ^ k := by
  rw [toDecimal, List.length_map]
  exact Nat.length_toDigits_le_iff (by decide) hk

theorem length_toDecimal_pos (n : Nat) : 0 < (toDecimal n).length :=
  List.length_pos_of_ne_nil (toDecimal_ne_nil n)

theorem lt_pow_length_toDecimal (n : Nat) : n < 10 ^ (toDecimal n).length :=
  (length_toDecimal_le_iff (length_toDecimal_pos n)).mp le_rfl

theorem pow_le_of_length_toDecimal {n x : Nat} (hpos : 0 < n)
    (hx : (toDecimal n).length = x + 1) : 10 ^ x ≤ n := by
  cases x with
  | zero => exact hpos
  | succ x =>
      by_contra hlt
      have hle := (length_toDecimal_le_iff (Nat.succ_pos x)).mpr (not_le.mp hlt)
      omega

/-- A positive number does not start with a zero. -/
theorem head_toDecimal {n : Nat} (hpos : 0 < n) : ∃ c s, toDecimal n = c :: s ∧ c ≠ 48 := by
  obtain ⟨c, s, hcs⟩ := List.exists_cons_of_ne_nil (toDecimal_ne_nil n)
  refine ⟨c, s, hcs, ?_⟩
  rintro rfl
  have hle := @pow_le_of_length_toDecimal n s.length hpos (by rw [hcs]; rfl)
  have hval := digitsValue_toDecimal n
  have hlt := @digitsValue_lt s fun c hc =>
    isDigit_of_mem_toDecimal (hcs ▸ List.mem_cons_of_mem _ hc)
  have hzero : digitsValue [48] = 0 := rfl
  rw [hcs, ← List.singleton_append, digitsValue_append, hzero] at hval
  omega

/-- The zeros that are stripped off. -/
theorem stripZeros_append (s : Bytes) : ∃ k, s = Double.stripZeros s ++ List.replicate k 48 := by
  have hzeros : s.reverse.takeWhile (· = 48) =
      List.replicate (s.reverse.takeWhile (· = 48)).length 48 := by
    refine List.eq_replicate_of_mem fun c hc => ?_
    simpa using List.mem_takeWhile_imp hc
  refine ⟨(s.reverse.takeWhile (· = 48)).length, ?_⟩
  rw [Double.stripZeros, ← List.reverse_inj, List.reverse_append, List.reverse_reverse,
    List.reverse_replicate, ← hzeros, List.takeWhile_append_dropWhile]

/-! ## Significant digits -/

/-- At most `k` significant digits. -/
def SigDigits (k n : Nat) : Prop := ∃ m e, m < 10 ^ k ∧ n = m * 10 ^ e

/-- A number with more digits has zeros behind the first `k`. -/
theorem sigDigits_iff {k x n : Nat} (hlow : 10 ^ x ≤ n) (hhigh : n < 10 ^ (x + 1))
    (hk : k ≤ x + 1) : SigDigits k n ↔ 10 ^ (x + 1 - k) ∣ n := by
  constructor
  · rintro ⟨m, e, hm, rfl⟩
    have hlt : x < k + e := by
      refine (Nat.pow_lt_pow_iff_right (show 1 < 10 by decide)).mp (hlow.trans_lt ?_)
      rw [pow_add]
      exact Nat.mul_lt_mul_of_pos_right hm (by positivity)
    exact Dvd.dvd.mul_left (Nat.pow_dvd_pow 10 (by omega)) m
  · rintro ⟨m, rfl⟩
    refine ⟨m, x + 1 - k, ?_, Nat.mul_comm _ _⟩
    have hpow : (10 : Nat) ^ (x + 1) = 10 ^ (x + 1 - k) * 10 ^ k := by
      rw [← pow_add]
      congr 1
      omega
    rw [hpow] at hhigh
    exact Nat.lt_of_mul_lt_mul_left hhigh

namespace Double

/-- A number rounded to six significant digits. -/
def rounded (n : Nat) : Nat :=
  let x := (toDecimal n).length - 1
  if x ≤ 5 then n else roundDiv n (10 ^ (x - 5)) * 10 ^ (x - 5)

theorem roundDiv_mul_eq_iff {n q : Nat} (hq : 0 < q) : roundDiv n q * q = n ↔ q ∣ n := by
  constructor
  · intro h
    exact Dvd.intro_left _ h
  · intro h
    rw [roundDiv_of_dvd h hq, Nat.div_mul_cancel h]

/-- **Six digits are enough** for the numbers that have no more. -/
theorem rounded_eq_self_iff {n : Nat} (hpos : 0 < n) : rounded n = n ↔ SigDigits 6 n := by
  obtain ⟨x, hx⟩ : ∃ x, (toDecimal n).length = x + 1 :=
    ⟨_, (Nat.sub_add_cancel (length_toDecimal_pos n)).symm⟩
  have hhigh := lt_pow_length_toDecimal n
  rw [hx] at hhigh
  simp only [rounded, hx, Nat.add_sub_cancel]
  by_cases hsmall : x ≤ 5
  · rw [if_pos hsmall]
    refine iff_of_true rfl ⟨n, 0, hhigh.trans_le ?_, (Nat.mul_one n).symm⟩
    exact Nat.pow_le_pow_right (by decide) (by omega)
  · have hexp : x + 1 - 6 = x - 5 := by omega
    rw [if_neg hsmall, roundDiv_mul_eq_iff (by positivity),
      sigDigits_iff (pow_le_of_length_toDecimal hpos hx) hhigh (by omega), hexp]

theorem roundDiv_bounds (n q : Nat) : n / q ≤ roundDiv n q ∧ roundDiv n q ≤ n / q + 1 := by
  simp only [roundDiv]
  split <;> omega

/-- Numbers below `2 ^ 53` have at most 16 digits. -/
theorem length_toDecimal_lt {n x : Nat} (hpos : 0 < n) (hlt : n < 2 ^ 53)
    (hx : (toDecimal n).length = x + 1) : x < 16 := by
  have hlow := pow_le_of_length_toDecimal hpos hx
  exact (Nat.pow_lt_pow_iff_right (show 1 < 10 by decide)).mp (by omega)

/-- Rounding an integer gives one that is a double. -/
theorem exact_rounded {n : Nat} (hpos : 0 < n) (hlt : n < 2 ^ 53) : Exact (rounded n) := by
  obtain ⟨x, hx⟩ : ∃ x, (toDecimal n).length = x + 1 :=
    ⟨_, (Nat.sub_add_cancel (length_toDecimal_pos n)).symm⟩
  have hlow := pow_le_of_length_toDecimal hpos hx
  have hdigits := length_toDecimal_lt hpos hlt hx
  simp only [rounded, hx, Nat.add_sub_cancel]
  by_cases hsmall : x ≤ 5
  · rw [if_pos hsmall]
    exact exact_of_lt hpos hlt
  rw [if_neg hsmall]
  have hq : (10 : Nat) ^ (x - 5) ≤ 10 ^ 10 := Nat.pow_le_pow_right (by decide) (by omega)
  have hqn : 10 ^ (x - 5) ≤ n := (Nat.pow_le_pow_right (by decide) (by omega)).trans hlow
  have heven : 2 ∣ 10 ^ (x - 5) := (by decide : 2 ∣ 10).trans (dvd_pow_self 10 (by omega))
  have hqpos : 0 < 10 ^ (x - 5) := by positivity
  generalize 10 ^ (x - 5) = q at hq hqn heven hqpos ⊢
  obtain ⟨hge, hle⟩ := roundDiv_bounds n q
  have hquot : 0 < n / q := Nat.div_pos hqn hqpos
  have hmul : roundDiv n q * q ≤ n + q := by
    calc roundDiv n q * q ≤ (n / q + 1) * q := Nat.mul_le_mul_right q hle
      _ = n / q * q + q := Nat.succ_mul _ _
      _ ≤ n + q := Nat.add_le_add_right (Nat.div_mul_le_self n q) q
  exact exact_of_even (Nat.mul_pos (by omega) hqpos) (by omega) (Dvd.dvd.mul_left heven _)

end Double

end RedisLike
