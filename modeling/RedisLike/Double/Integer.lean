import RedisLike.Double

/-!
# RedisLike.Double.Integer

Integers among the doubles.

An integer of at most 53 bits is a double exactly, and `nearest` finds its bits
(`nearest_integer`).  So two integers that are doubles have different bits
(`integerBits_injective`).
-/

namespace RedisLike

namespace Double

/-! ## Values -/

/-- The number that a finite double stands for. -/
def value (d : Double) : ℚ :=
  (if d.negative then -1 else 1) * ((fraction d.magnitude).1 / (fraction d.magnitude).2)

/-- The double is the integer. -/
structure IsInteger (d : Double) (n : Int) : Prop where
  finite : d.magnitude < infinityMagnitude
  value : d.value = n

theorem scale2_snd_pos {num den : Nat} (hden : 0 < den) (e : Int) : 0 < (scale2 num den e).2 := by
  unfold scale2
  split
  · exact hden
  · positivity

theorem fraction_snd_pos (magnitude : Nat) : 0 < (fraction magnitude).2 := by
  unfold fraction
  dsimp only
  split <;> exact scale2_snd_pos one_pos _

theorem IsInteger.isNaN {d : Double} {n : Int} (h : d.IsInteger n) : d.isNaN = false :=
  decide_eq_false (Nat.lt_asymm h.finite)

/-- The fraction of an integer has no remainder. -/
theorem IsInteger.fraction_eq {d : Double} {n : Int} (h : d.IsInteger n) :
    (fraction d.magnitude).1 = n.natAbs * (fraction d.magnitude).2 := by
  have hden : ((fraction d.magnitude).2 : ℚ) ≠ 0 := by
    exact_mod_cast (fraction_snd_pos d.magnitude).ne'
  have habs : |d.value| = (n.natAbs : ℚ) := by rw [h.value, Nat.cast_natAbs, Int.cast_abs]
  have hsign : |(if d.negative then -1 else 1 : ℚ)| = 1 := by split <;> simp
  rw [Double.value, abs_mul, hsign, one_mul, abs_of_nonneg (by positivity), div_eq_iff hden] at habs
  exact_mod_cast habs

/-! ## Bits -/

/-- The magnitude bits of an integer that is a double. -/
def integerBits (n : Nat) : Nat := (n.log2 + 1022) * 2 ^ 52 + n * 2 ^ 52 / 2 ^ n.log2

/-- A positive integer of at most 53 bits, up to zeros at the end. -/
structure Exact (n : Nat) : Prop where
  pos : 0 < n
  lt : n < 2 ^ 54
  dvd : 2 ^ n.log2 ∣ n * 2 ^ 52

theorem exact_of_lt {n : Nat} (hpos : 0 < n) (hlt : n < 2 ^ 53) : Exact n := by
  refine ⟨hpos, by omega, ?_⟩
  have hlog : n.log2 < 53 := (Nat.log2_lt hpos.ne').mpr hlt
  exact Dvd.dvd.mul_left (Nat.pow_dvd_pow 2 (by omega)) n

theorem exact_of_even {n : Nat} (hpos : 0 < n) (hlt : n < 2 ^ 54) (heven : 2 ∣ n) : Exact n := by
  refine ⟨hpos, hlt, ?_⟩
  have hlog : n.log2 < 54 := (Nat.log2_lt hpos.ne').mpr hlt
  obtain ⟨m, rfl⟩ := heven
  have hmul : 2 * m * 2 ^ 52 = m * 2 ^ 53 := by ring
  rw [hmul]
  exact Dvd.dvd.mul_left (Nat.pow_dvd_pow 2 (by omega)) m

theorem Exact.log2_lt {n : Nat} (h : Exact n) : n.log2 < 54 := (Nat.log2_lt h.pos.ne').mpr h.lt

/-- The significand has 53 bits. -/
theorem Exact.significand {n : Nat} (h : Exact n) :
    2 ^ 52 ≤ n * 2 ^ 52 / 2 ^ n.log2 ∧ n * 2 ^ 52 / 2 ^ n.log2 < 2 ^ 53 := by
  have hle : 2 ^ n.log2 ≤ n := Nat.log2_self_le h.pos.ne'
  have hlt : n < 2 ^ (n.log2 + 1) := Nat.lt_log2_self
  constructor
  · rw [Nat.le_div_iff_mul_le (by positivity), Nat.mul_comm]
    exact Nat.mul_le_mul_right _ hle
  · rw [Nat.div_lt_iff_lt_mul (by positivity)]
    calc n * 2 ^ 52 < 2 ^ (n.log2 + 1) * 2 ^ 52 := Nat.mul_lt_mul_of_pos_right hlt (by positivity)
      _ = 2 ^ 53 * 2 ^ n.log2 := by ring

/-- Different integers have different bits. -/
theorem integerBits_injective {m n : Nat} (hm : Exact m) (hn : Exact n)
    (h : integerBits m = integerBits n) : m = n := by
  obtain ⟨hlow, hhigh⟩ := hm.significand
  obtain ⟨hlow', hhigh'⟩ := hn.significand
  unfold integerBits at h
  have hlog : m.log2 = n.log2 := by omega
  have hsig : m * 2 ^ 52 / 2 ^ m.log2 = n * 2 ^ 52 / 2 ^ n.log2 := by omega
  have hmul : m * 2 ^ 52 = n * 2 ^ 52 := by
    rw [← Nat.div_mul_cancel hm.dvd, ← Nat.div_mul_cancel hn.dvd, hsig, hlog]
  exact Nat.eq_of_mul_eq_mul_right (by positivity) hmul

theorem Exact.integerBits_pos {n : Nat} (h : Exact n) : 0 < integerBits n := by
  have hsig := h.significand.1
  unfold integerBits
  omega

/-- An integer of at most 54 bits is finite. -/
theorem Exact.integerBits_lt {n : Nat} (h : Exact n) : integerBits n < infinityMagnitude := by
  have hlog := h.log2_lt
  have hsig := h.significand.2
  unfold integerBits infinityMagnitude
  omega

/-- A quotient without remainder is not rounded. -/
theorem roundDiv_of_dvd {num den : Nat} (h : den ∣ num) (hden : 0 < den) :
    roundDiv num den = num / den := by
  have hmod : num % den = 0 := Nat.mod_eq_zero_of_dvd h
  simp only [roundDiv, hmod]
  rw [if_neg (by omega)]

theorem scale2_natCast (num den k : Nat) : scale2 num den (k : Int) = (num * 2 ^ k, den) := by
  rw [scale2, if_pos (Int.natCast_nonneg k), Int.toNat_natCast]

theorem scale2_neg_natCast (num den k : Nat) :
    scale2 num den (-(k : Int)) = (num, den * 2 ^ k) := by
  cases k with
  | zero => simp [scale2]
  | succ k => rw [scale2, if_neg (by omega), Int.neg_neg, Int.toNat_natCast]

/-- The significand of an integer, as `nearest` computes it. -/
theorem roundDiv_scale2 {n : Nat} (h : Exact n) :
    roundDiv (scale2 n 1 (52 - (n.log2 : Int))).1 (scale2 n 1 (52 - (n.log2 : Int))).2 =
      n * 2 ^ 52 / 2 ^ n.log2 := by
  rcases Nat.le_total n.log2 52 with hle | hle
  · obtain ⟨k, hk⟩ := Nat.exists_eq_add_of_le hle
    have he : (52 : Int) - n.log2 = (k : Int) := by omega
    rw [he, scale2_natCast, roundDiv_of_dvd (one_dvd _) one_pos, Nat.div_one, hk, pow_add,
      Nat.mul_left_comm, Nat.mul_div_cancel_left _ (by positivity)]
  · obtain ⟨k, hk⟩ := Nat.exists_eq_add_of_le hle
    have he : (52 : Int) - n.log2 = -(k : Int) := by omega
    have hdvd : 2 ^ k ∣ n := by
      have h' := h.dvd
      rw [hk, pow_add, Nat.mul_comm n] at h'
      exact Nat.dvd_of_mul_dvd_mul_left (by positivity) h'
    rw [he, scale2_neg_natCast, one_mul, roundDiv_of_dvd hdvd (by positivity), hk, pow_add,
      Nat.mul_comm n, Nat.mul_div_mul_left _ _ (by positivity)]

/-- **Integers are read exactly.** -/
theorem nearest_integer {n : Nat} (h : Exact n) : nearest n 1 = integerBits n := by
  have hlog := h.log2_lt
  have hone : Nat.log2 1 = 0 := rfl
  have hguess : (scale2 n 1 (-(n.log2 : Int))).2 ≤ (scale2 n 1 (-(n.log2 : Int))).1 := by
    rw [scale2_neg_natCast, one_mul]
    exact Nat.log2_self_le h.pos.ne'
  have hexp : max (n.log2 : Int) (-1022) = n.log2 := max_eq_left (by omega)
  unfold nearest
  simp only [h.pos.ne', if_false, hone, Nat.cast_zero, sub_zero, if_pos hguess, hexp,
    roundDiv_scale2 h]
  have hnat : ((n.log2 : Int) + 1022).toNat = n.log2 + 1022 := by omega
  rw [hnat]
  exact min_eq_left h.integerBits_lt.le

/-- The bits of a significand of 53 bits with `k` bits behind the point. -/
theorem integerBits_of_significand {n f k : Nat} (hpos : 0 < n) (hf : f < 2 ^ 52)
    (h : f + 2 ^ 52 = n * 2 ^ k) : k ≤ 52 ∧ integerBits n = (1075 - k) * 2 ^ 52 + f := by
  have hk : k < 53 := by
    refine (Nat.pow_lt_pow_iff_right Nat.one_lt_two).mp ?_
    calc 2 ^ k ≤ n * 2 ^ k := Nat.le_mul_of_pos_left _ hpos
      _ < 2 ^ 53 := by omega
  obtain ⟨j, hj⟩ := Nat.exists_eq_add_of_le (show k ≤ 52 by omega)
  have hlow : 2 ^ j ≤ n := by
    refine Nat.le_of_mul_le_mul_right ?_ (show 0 < 2 ^ k by positivity)
    rw [← pow_add, Nat.add_comm, ← hj]
    omega
  have hhigh : n < 2 ^ (j + 1) := by
    have hmul : n * 2 ^ k < 2 ^ (j + 1) * 2 ^ k := by
      rw [← pow_add, Nat.add_right_comm, Nat.add_comm j, ← hj]
      omega
    exact Nat.lt_of_mul_lt_mul_right hmul
  have hlog : n.log2 = j := (Nat.log2_eq_iff hpos.ne').mpr ⟨hlow, hhigh⟩
  have hsig : n * 2 ^ 52 / 2 ^ j = f + 2 ^ 52 := by
    rw [h, hj, pow_add, ← Nat.mul_assoc, Nat.mul_div_cancel _ (by positivity)]
  have hexp : 1075 - k = j + 1023 := by omega
  refine ⟨by omega, ?_⟩
  rw [integerBits, hlog, hsig, hexp]
  ring

/-- The bits of a double that is an integer. -/
theorem eq_integerBits {magnitude n : Nat} (hpos : 0 < n) (hlt : n < 2 ^ 53)
    (h : (fraction magnitude).1 = n * (fraction magnitude).2) : magnitude = integerBits n := by
  have hf : magnitude % 2 ^ 52 < 2 ^ 52 := Nat.mod_lt _ (by positivity)
  have hdecomp : magnitude = magnitude / 2 ^ 52 * 2 ^ 52 + magnitude % 2 ^ 52 :=
    (Nat.div_add_mod' _ _).symm
  unfold fraction at h
  generalize magnitude / 2 ^ 52 = e at h hdecomp
  generalize magnitude % 2 ^ 52 = f at h hdecomp hf
  subst hdecomp
  dsimp only at h
  by_cases he : e = 0
  · -- a denormal is less than 1
    obtain ⟨k, hk, hle⟩ : ∃ k : Nat, (-1074 : Int) = -(k : Int) ∧ 52 ≤ k := ⟨1074, rfl, by decide⟩
    rw [if_pos he, hk, scale2_neg_natCast, one_mul] at h
    have hbig : 2 ^ 52 ≤ n * 2 ^ k :=
      (Nat.pow_le_pow_right two_pos hle).trans (Nat.le_mul_of_pos_left _ hpos)
    dsimp only at h
    omega
  rw [if_neg he] at h
  rcases Nat.le_total e 1075 with hle | hle
  · obtain ⟨k, hk⟩ := Nat.exists_eq_add_of_le hle
    rw [show (e : Int) - 1075 = -(k : Int) by omega, scale2_neg_natCast, one_mul] at h
    obtain ⟨-, hbits⟩ := integerBits_of_significand hpos hf h
    rw [hbits, show 1075 - k = e by omega]
  · obtain ⟨k, hk⟩ := Nat.exists_eq_add_of_le hle
    rw [show (e : Int) - 1075 = (k : Int) by omega, scale2_natCast] at h
    dsimp only at h
    have hk0 : k = 0 := by
      by_contra hne
      have htwo : 2 ≤ 2 ^ k := Nat.le_self_pow hne 2
      have hmul : 2 ^ 52 * 2 ≤ (f + 2 ^ 52) * 2 ^ k := Nat.mul_le_mul (Nat.le_add_left _ _) htwo
      omega
    subst hk0
    obtain ⟨-, hbits⟩ := @integerBits_of_significand n f 0 hpos hf (by simpa using h)
    rw [hbits, hk]

end Double

end RedisLike
