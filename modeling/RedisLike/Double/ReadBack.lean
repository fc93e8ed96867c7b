import RedisLike.Double.Text

/-!
# RedisLike.Double.ReadBack

Which integers survive being printed.

`ParseDouble` reads the integer rounded to six significant digits
(`parseDouble_toText`), so it reads back the integers that have no more
(`readsBack_toText_iff`), and two integers have one text if they are rounded to
one (`toText_eq_iff`).
-/

namespace RedisLike

namespace Double

/-! ## Printing and reading back -/

/-- The text reads back as the same number. -/
def ReadsBack (d : Double) (text : Bytes) : Prop :=
  ∃ d', parseDouble text = some d' ∧ d'.eq d = true

theorem toNat_ofMagnitude (negative : Bool) {m : Nat} (hm : m < 2 ^ 63) :
    (ofMagnitude negative m).bits.toNat = m + if negative then 2 ^ 63 else 0 := by
  rw [ofMagnitude, Nat.toUInt64, UInt64.toNat_ofNat', Nat.mod_eq_of_lt]
  split <;> omega

theorem magnitude_ofMagnitude (negative : Bool) {m : Nat} (hm : m < 2 ^ 63) :
    (ofMagnitude negative m).magnitude = m := by
  rw [magnitude, toNat_ofMagnitude negative hm]
  split <;> omega

theorem negative_ofMagnitude (negative : Bool) {m : Nat} (hm : m < 2 ^ 63) :
    (ofMagnitude negative m).negative = negative := by
  rw [Double.negative, toNat_ofMagnitude negative hm]
  cases negative with
  | false => exact decide_eq_false (by simpa using hm)
  | true => exact decide_eq_true (Nat.le_add_left _ _)

theorem infinityMagnitude_lt : infinityMagnitude < 2 ^ 63 := by decide

/-- A finite value is equal to its own magnitude only, under its sign. -/
theorem ofMagnitude_eq_iff {d : Double} {m : Nat} (hd : d.magnitude < infinityMagnitude)
    (hm : m < infinityMagnitude) :
    (ofMagnitude d.negative m).eq d = true ↔ m = d.magnitude := by
  have hm63 := hm.trans infinityMagnitude_lt
  have hmag := magnitude_ofMagnitude d.negative hm63
  have hnan : d.isNaN = false := decide_eq_false (Nat.lt_asymm hd)
  have hnan' : (ofMagnitude d.negative m).isNaN = false :=
    decide_eq_false (by rw [hmag]; exact Nat.lt_asymm hm)
  rw [eq_eq hnan' hnan, decide_eq_true_iff, ord, ord, negative_ofMagnitude d.negative hm63, hmag]
  split <;> omega

theorem magnitude_eq_zero {magnitude : Nat} (h : (fraction magnitude).1 = 0) : magnitude = 0 := by
  have hscale : ∀ (num : Nat) (e : Int), (scale2 num 1 e).1 = 0 → num = 0 := by
    intro num e hnum
    rw [scale2] at hnum
    split at hnum
    · exact (Nat.mul_eq_zero.mp hnum).resolve_right (by positivity)
    · exact hnum
  unfold fraction at h
  dsimp only at h
  split at h
  · have hf := hscale _ _ h
    omega
  · have hf := hscale _ _ h
    omega

/-- Magnitude bits of the rounded integer. -/
def roundedBits (n : Nat) : Nat := if n = 0 then 0 else integerBits (rounded n)

theorem roundedBits_of_pos {n : Nat} (hpos : 0 < n) : roundedBits n = integerBits (rounded n) :=
  if_neg hpos.ne'

theorem roundedBits_lt {n : Nat} (hn : n < 2 ^ 53) : roundedBits n < infinityMagnitude := by
  unfold roundedBits
  split
  · decide
  · next hpos => exact (exact_rounded (Nat.pos_of_ne_zero hpos) hn).integerBits_lt

theorem rounded_zero : rounded 0 = 0 := rfl

theorem roundedBits_inj {m n : Nat} (hm : m < 2 ^ 53) (hn : n < 2 ^ 53) :
    roundedBits m = roundedBits n ↔ rounded m = rounded n := by
  rcases Nat.eq_zero_or_pos m with rfl | hmpos <;> rcases Nat.eq_zero_or_pos n with rfl | hnpos
  · exact iff_of_true rfl rfl
  · have hexact := exact_rounded hnpos hn
    rw [roundedBits_of_pos hnpos, rounded_zero]
    exact iff_of_false hexact.integerBits_pos.ne hexact.pos.ne
  · have hexact := exact_rounded hmpos hm
    rw [roundedBits_of_pos hmpos, rounded_zero]
    exact iff_of_false hexact.integerBits_pos.ne' hexact.pos.ne'
  · rw [roundedBits_of_pos hmpos, roundedBits_of_pos hnpos]
    exact ⟨integerBits_injective (exact_rounded hmpos hm) (exact_rounded hnpos hn),
      congrArg integerBits⟩

theorem IsInteger.magnitude_eq_zero {d : Double} (h : d.IsInteger 0) : d.magnitude = 0 :=
  Double.magnitude_eq_zero (by rw [h.fraction_eq]; exact Nat.zero_mul _)

theorem IsInteger.magnitude_eq {d : Double} {n : Int} (h : d.IsInteger n) (hn : n.natAbs < 2 ^ 53)
    (hzero : n ≠ 0) : d.magnitude = integerBits n.natAbs :=
  eq_integerBits (Int.natAbs_pos.mpr hzero) hn h.fraction_eq

theorem toText_zero {d : Double} (h : d.IsInteger 0) :
    d.toText = if d.negative then 45 :: ascii "0" else ascii "0" := by
  have hnan : ¬ d.isNaN = true := by rw [h.isNaN]; exact Bool.false_ne_true
  simp only [toText, if_neg hnan, if_neg h.finite.ne, if_pos h.magnitude_eq_zero]

theorem toText_of_ne_zero {d : Double} {n : Int} (h : d.IsInteger n) (hn : n.natAbs < 2 ^ 53)
    (hzero : n ≠ 0) :
    d.toText = if d.negative then 45 :: formatFinite d.magnitude else formatFinite d.magnitude := by
  have hnan : ¬ d.isNaN = true := by rw [h.isNaN]; exact Bool.false_ne_true
  have hmag : d.magnitude ≠ 0 := by
    rw [h.magnitude_eq hn hzero]
    exact (exact_of_lt (Int.natAbs_pos.mpr hzero) hn).integerBits_pos.ne'
  simp only [toText, if_neg hnan, if_neg h.finite.ne, if_neg hmag]

/-- **What is printed of an integer is the integer rounded to six digits.** -/
theorem parseDouble_toText {d : Double} {n : Int} (h : d.IsInteger n) (hn : n.natAbs < 2 ^ 53) :
    parseDouble d.toText = some (ofMagnitude d.negative (roundedBits n.natAbs)) := by
  by_cases hzero : n = 0
  · subst hzero
    have hread : Numerates (ascii "0") 0 := ⟨List.forall_mem_singleton.mpr (.inl rfl), rfl, rfl⟩
    rw [toText_zero h, parseDouble_numerates hread d.negative]
    rfl
  · have hpos : 0 < n.natAbs := Int.natAbs_pos.mpr hzero
    rw [toText_of_ne_zero h hn hzero, roundedBits_of_pos hpos,
      parseDouble_numerates (numerates_formatFinite hpos hn h.fraction_eq) d.negative]

/-- **An integer reads back if it has six significant digits at most.** -/
theorem readsBack_toText_iff {d : Double} {n : Int} (h : d.IsInteger n) (hn : n.natAbs < 2 ^ 53) :
    d.ReadsBack d.toText ↔ SigDigits 6 n.natAbs := by
  have hread : d.ReadsBack d.toText ↔ roundedBits n.natAbs = d.magnitude := by
    rw [← ofMagnitude_eq_iff h.finite (roundedBits_lt hn), ReadsBack, parseDouble_toText h hn]
    simp only [Option.some.injEq, exists_eq_left']
  rw [hread]
  by_cases hzero : n = 0
  · subst hzero
    exact iff_of_true h.magnitude_eq_zero.symm ⟨0, 0, by decide, rfl⟩
  · have hpos : 0 < n.natAbs := Int.natAbs_pos.mpr hzero
    rw [roundedBits_of_pos hpos, h.magnitude_eq hn hzero, ← rounded_eq_self_iff hpos]
    exact ⟨integerBits_injective (exact_rounded hpos hn) (exact_of_lt hpos hn),
      congrArg integerBits⟩

/-- The sign bit of an integer other than zero is its sign. -/
theorem IsInteger.negative_eq {d : Double} {n : Int} (h : d.IsInteger n) (hzero : n ≠ 0) :
    d.negative = decide (n < 0) := by
  have hvalue := h.value
  rw [Double.value] at hvalue
  have hnonneg : (0 : ℚ) ≤ (fraction d.magnitude).1 / (fraction d.magnitude).2 := by positivity
  cases hneg : d.negative with
  | false =>
      rw [hneg, if_neg Bool.false_ne_true, one_mul] at hvalue
      rw [hvalue, Int.cast_nonneg_iff] at hnonneg
      exact (decide_eq_false (not_lt.mpr hnonneg)).symm
  | true =>
      rw [hneg, if_pos rfl, neg_one_mul, neg_eq_iff_eq_neg] at hvalue
      rw [hvalue, ← Int.cast_neg, Int.cast_nonneg_iff] at hnonneg
      exact (decide_eq_true (by omega)).symm

/-- An integer rounded to six significant digits. -/
def roundedInt (n : Int) : Int := if n < 0 then -(rounded n.natAbs : Int) else rounded n.natAbs

theorem roundedInt_eq_iff {n n' : Int} (hn : n.natAbs < 2 ^ 53) (hn' : n'.natAbs < 2 ^ 53)
    (hzero : n ≠ 0) (hzero' : n' ≠ 0) : roundedInt n = roundedInt n' ↔
      decide (n < 0) = decide (n' < 0) ∧ rounded n.natAbs = rounded n'.natAbs := by
  have hpos := (exact_rounded (Int.natAbs_pos.mpr hzero) hn).pos
  have hpos' := (exact_rounded (Int.natAbs_pos.mpr hzero') hn').pos
  rw [decide_eq_decide]
  unfold roundedInt
  split <;> split <;> omega

theorem roundedInt_ne_zero {n : Int} (hn : n.natAbs < 2 ^ 53) (hzero : n ≠ 0) :
    roundedInt n ≠ 0 := by
  have hpos := (exact_rounded (Int.natAbs_pos.mpr hzero) hn).pos
  unfold roundedInt
  split <;> omega

/-- The sign and the rounded bits of an integer determine the rounded integer. -/
theorem ofMagnitude_roundedBits_eq_iff {b b' : Bool} {n n' : Nat} (hn : n < 2 ^ 53)
    (hn' : n' < 2 ^ 53) : ofMagnitude b (roundedBits n) = ofMagnitude b' (roundedBits n') ↔
      b = b' ∧ rounded n = rounded n' := by
  have hlt := (roundedBits_lt hn).trans infinityMagnitude_lt
  have hlt' := (roundedBits_lt hn').trans infinityMagnitude_lt
  rw [← roundedBits_inj hn hn']
  constructor
  · intro h
    have hneg := congrArg Double.negative h
    have hmag := congrArg Double.magnitude h
    rw [negative_ofMagnitude b hlt, negative_ofMagnitude b' hlt'] at hneg
    rw [magnitude_ofMagnitude b hlt, magnitude_ofMagnitude b' hlt'] at hmag
    exact ⟨hneg, hmag⟩
  · rintro ⟨rfl, h⟩
    rw [h]

/-- Zero is the only integer with its texts. -/
theorem toText_ne_of_zero {d d' : Double} {n' : Int} (h : d.IsInteger 0) (h' : d'.IsInteger n')
    (hn' : n'.natAbs < 2 ^ 53) (hzero : n' ≠ 0) : d.toText ≠ d'.toText := by
  intro htext
  have hparse := parseDouble_toText h (by decide)
  rw [htext, parseDouble_toText h' hn', Option.some.injEq,
    ofMagnitude_roundedBits_eq_iff hn' (by decide)] at hparse
  have hpos := (exact_rounded (Int.natAbs_pos.mpr hzero) hn').pos
  rw [hparse.2] at hpos
  exact absurd hpos (by decide)

/-- **Different integers have one text** if they are rounded to one. -/
theorem toText_eq_iff {d d' : Double} {n n' : Int} (h : d.IsInteger n) (h' : d'.IsInteger n')
    (hn : n.natAbs < 2 ^ 53) (hn' : n'.natAbs < 2 ^ 53) (hne : n ≠ n') :
    d.toText = d'.toText ↔ roundedInt n = roundedInt n' := by
  by_cases hzero : n = 0
  · subst hzero
    exact iff_of_false (toText_ne_of_zero h h' hn' hne.symm) (roundedInt_ne_zero hn' hne.symm).symm
  by_cases hzero' : n' = 0
  · subst hzero'
    exact iff_of_false (toText_ne_of_zero h' h hn hne).symm (roundedInt_ne_zero hn hne)
  rw [roundedInt_eq_iff hn hn' hzero hzero', ← h.negative_eq hzero, ← h'.negative_eq hzero']
  constructor
  · intro htext
    have hparse := parseDouble_toText h hn
    rw [htext, parseDouble_toText h' hn', Option.some.injEq] at hparse
    exact (ofMagnitude_roundedBits_eq_iff hn hn').mp hparse.symm
  · rintro ⟨hneg, hrounded⟩
    rw [toText_of_ne_zero h hn hzero, toText_of_ne_zero h' hn' hzero', hneg,
      formatFinite_eq (Int.natAbs_pos.mpr hzero) h.fraction_eq,
      formatFinite_eq (Int.natAbs_pos.mpr hzero') h'.fraction_eq, hrounded]

/-! ## Equal scores -/

theorem eq_iff {a b : Double} :
    a.eq b = true ↔ a.isNaN = false ∧ b.isNaN = false ∧ a.ord = b.ord := by
  rw [eq, Bool.and_eq_true, Bool.and_eq_true, Bool.not_eq_true', Bool.not_eq_true',
    decide_eq_true_iff, and_assoc]

theorem magnitude_of_ord_eq {d s : Double} (h : s.ord = d.ord) :
    s.magnitude = d.magnitude ∧ (s.negative = d.negative ∨ d.magnitude = 0) := by
  unfold ord at h
  cases hs : s.negative <;> cases hd : d.negative <;>
    simp only [hs, hd, if_true, if_false, Bool.false_eq_true] at h
  · exact ⟨by omega, .inl rfl⟩
  · exact ⟨by omega, .inr (by omega)⟩
  · exact ⟨by omega, .inr (by omega)⟩
  · exact ⟨by omega, .inl rfl⟩

theorem value_of_magnitude_eq_zero {d : Double} (h : d.magnitude = 0) : d.value = 0 := by
  have hzero : (fraction 0).1 = 0 := rfl
  rw [value, h, hzero, Nat.cast_zero, zero_div, mul_zero]

/-- A score equal to an integer is the integer. -/
theorem IsInteger.of_eq {d s : Double} {n : Int} (h : d.IsInteger n) (heq : s.eq d = true) :
    s.IsInteger n := by
  obtain ⟨hmag, hneg⟩ := magnitude_of_ord_eq (eq_iff.mp heq).2.2
  refine ⟨by rw [hmag]; exact h.finite, ?_⟩
  rcases hneg with hneg | hzero
  · rw [Double.value, hneg, hmag]
    exact h.value
  · rw [value_of_magnitude_eq_zero (hmag.trans hzero), ← value_of_magnitude_eq_zero hzero, h.value]

/-- Equal scores are read back from the same texts. -/
theorem readsBack_congr {d s : Double} (heq : s.eq d = true) (text : Bytes) :
    d.ReadsBack text ↔ s.ReadsBack text := by
  obtain ⟨hs, hd, hord⟩ := eq_iff.mp heq
  have hiff : ∀ d' : Double, d'.eq d = true ↔ d'.eq s = true := by
    intro d'
    rw [eq_iff, eq_iff, hs, hd, hord]
  simp only [ReadsBack, hiff]

end Double

end RedisLike
