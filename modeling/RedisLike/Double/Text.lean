import RedisLike.Double.Digits
import RedisLike.Numeral

/-!
# RedisLike.Double.Text

What `std::ostringstream` prints of an integer, and what `strtod` makes of it.

An integer of at most six digits is printed digit by digit, a longer one rounded
to six digits with an exponent.  The text is a numeral for the rounded integer
(`numerates_formatFinite`).
-/

namespace RedisLike

namespace Double

/-! ## Reading -/

theorem nearestDecimal_natCast {m : Nat} (len : Nat) {k : Nat} (hm : m ≠ 0) (hk : k ≤ 310) :
    nearestDecimal m len (k : Int) = nearest (m * 10 ^ k) 1 := by
  rw [nearestDecimal, if_neg hm, if_neg (by omega), if_neg (by omega),
    if_pos (Int.natCast_nonneg k), Int.toNat_natCast]

theorem dropWhile_eq_self {p : UInt8 → Bool} {s : Bytes} (h : s.takeWhile p = []) :
    s.dropWhile p = s := by
  have hsplit := @List.takeWhile_append_dropWhile _ p s
  rwa [h, List.nil_append] at hsplit

/-- A numeral without a point. -/
theorem mantissaPart_whole {whole tail : Bytes} (hwhole : ∀ c ∈ whole, isDigit c = true)
    (htail : tail.takeWhile isDigit = []) (hpoint : tail.head? ≠ some 46) :
    mantissaPart isDigit (whole ++ tail) = (whole, [], whole.length) := by
  unfold mantissaPart
  rw [List.takeWhile_append_of_pos hwhole, htail, List.append_nil,
    List.dropWhile_append_of_pos hwhole, dropWhile_eq_self htail]
  cases tail with
  | nil => rfl
  | cons b rest =>
      have hb : b ≠ 46 := fun h => hpoint (by rw [h]; rfl)
      split
      · next heq => exact absurd (List.cons.inj heq).1 hb
      · rfl

/-- A numeral with a point. -/
theorem mantissaPart_point {whole frac tail : Bytes} (hwhole : ∀ c ∈ whole, isDigit c = true)
    (hne : whole ≠ []) (hfrac : ∀ c ∈ frac, isDigit c = true)
    (htail : tail.takeWhile isDigit = []) :
    mantissaPart isDigit (whole ++ 46 :: (frac ++ tail)) =
      (whole, frac, whole.length + 1 + frac.length) := by
  have hstop : (46 :: (frac ++ tail)).takeWhile isDigit = [] := rfl
  unfold mantissaPart
  rw [List.takeWhile_append_of_pos hwhole, hstop, List.append_nil,
    List.dropWhile_append_of_pos hwhole, dropWhile_eq_self hstop]
  simp only [List.takeWhile_append_of_pos hfrac, htail, List.append_nil]
  rw [if_neg fun h => hne h.1]

/-- An exponent with a plus. -/
theorem exponentPart_plus {ds : Bytes} (hds : ∀ c ∈ ds, isDigit c = true) (hne : ds ≠ []) :
    exponentPart 69 (101 :: 43 :: ds) = ((digitsValue ds : Int), 2 + ds.length) := by
  have hupper : toUpper 101 = 69 := by decide
  have hall : ds.takeWhile isDigit = ds := List.takeWhile_eq_self_iff.mpr hds
  simp only [exponentPart, hupper, if_true, splitSign, hall, if_neg hne]
  rfl

theorem decimalPart_plain {s : Bytes} (hs : ∀ c ∈ s, isDigit c = true) (hne : s ≠ []) :
    decimalPart s = (nearestDecimal (digitsValue s) s.length 0, s.length) := by
  have hmantissa := @mantissaPart_whole s [] hs rfl nofun
  rw [List.append_nil] at hmantissa
  have hlen : s.length ≠ 0 := fun h => hne (List.length_eq_zero_iff.mp h)
  simp only [decimalPart, hmantissa, if_neg hlen, List.drop_length, exponentPart, List.append_nil]
  rfl

theorem decimalPart_exponent {whole frac ds : Bytes} (hwhole : ∀ c ∈ whole, isDigit c = true)
    (hne : whole ≠ []) (hfrac : ∀ c ∈ frac, isDigit c = true) (hds : ∀ c ∈ ds, isDigit c = true)
    (hne' : ds ≠ []) :
    decimalPart (whole ++ ((if frac = [] then [] else 46 :: frac) ++ 101 :: 43 :: ds)) =
      (nearestDecimal (digitsValue (whole ++ frac)) (whole ++ frac).length
        ((digitsValue ds : Int) - frac.length),
        (whole ++ ((if frac = [] then [] else 46 :: frac) ++ 101 :: 43 :: ds)).length) := by
  have htail : (101 :: 43 :: ds).takeWhile isDigit = [] := rfl
  have hexp := exponentPart_plus hds hne'
  have hlen : whole.length ≠ 0 := fun h => hne (List.length_eq_zero_iff.mp h)
  by_cases hempty : frac = []
  · have hmantissa := @mantissaPart_whole whole (101 :: 43 :: ds) hwhole htail nofun
    simp only [hempty, if_true, List.nil_append, decimalPart, hmantissa, if_neg hlen,
      List.drop_left, hexp, List.append_nil, List.length_append, List.length_cons, List.length_nil]
    congr 1
    omega
  · have hmantissa := mantissaPart_point hwhole hne hfrac htail
    have hdrop : (whole ++ 46 :: (frac ++ 101 :: 43 :: ds)).drop (whole.length + 1 + frac.length) =
        101 :: 43 :: ds := by
      rw [List.append_cons, ← List.append_assoc]
      refine List.drop_left' ?_
      rw [List.length_append, List.length_append, List.length_singleton]
    have hlen' : whole.length + 1 + frac.length ≠ 0 := by omega
    simp only [if_neg hempty, List.cons_append, decimalPart, hmantissa, if_neg hlen', hdrop, hexp,
      List.length_append, List.length_cons]
    congr 1
    omega

/-- The characters of a printed number. -/
def Printed (c : UInt8) : Prop := isDigit c = true ∨ c = 46 ∨ c = 101 ∨ c = 43

theorem Printed.ne {c : UInt8} (h : Printed c) :
    c ≠ 0 ∧ toUpper c ≠ 73 ∧ toUpper c ≠ 78 ∧ toUpper c ≠ 88 := by
  rcases h with h | rfl | rfl | rfl
  · have hupper : toUpper c = c := by
      rw [isDigit_iff] at h
      refine if_neg fun h97 => ?_
      have hle := UInt8.le_iff_toNat_le.mp h97.1
      simp only [UInt8.reduceToNat] at hle
      omega
    rw [hupper]
    refine ⟨(ne_of_isDigit h).1, ?_, ?_, ?_⟩ <;>
      · rintro rfl
        revert h
        decide
  all_goals decide

/-- A printed number is no infinity, no NaN and not hexadecimal. -/
theorem unsignedPart_printed {s : Bytes} (hs : ∀ c ∈ s, Printed c) :
    unsignedPart s = decimalPart s := by
  have hno : ∀ (word : Bytes) (b : UInt8), b ∈ word → (∀ c ∈ s, toUpper c ≠ b) →
      word.isPrefixOf (s.map toUpper) = false := by
    intro word b hb hne
    rw [Bool.eq_false_iff]
    intro hprefix
    obtain ⟨c, hc, rfl⟩ := List.mem_map.mp ((List.isPrefixOf_iff_prefix.mp hprefix).subset hb)
    exact hne c hc rfl
  have hinfinity := hno (ascii "INFINITY") 73 (by decide) fun c hc => (hs c hc).ne.2.1
  have hinf := hno (ascii "INF") 73 (by decide) fun c hc => (hs c hc).ne.2.1
  have hnan := hno (ascii "NAN") 78 (by decide) fun c hc => (hs c hc).ne.2.2.1
  have hhex := hno (ascii "0X") 88 (by decide) fun c hc => (hs c hc).ne.2.2.2
  simp only [unsignedPart, hinfinity, hinf, hnan, hhex, Bool.false_eq_true, if_false, false_and]

/-- The whole of a text is a decimal numeral with these magnitude bits. -/
structure Numerates (s : Bytes) (magnitude : Nat) : Prop where
  printed : ∀ c ∈ s, Printed c
  head : s.head?.map isDigit = some true
  decimal : decimalPart s = (magnitude, s.length)

theorem parseDouble_numerates {s : Bytes} {magnitude : Nat} (h : Numerates s magnitude)
    (negative : Bool) :
    parseDouble (if negative then 45 :: s else s) = some (ofMagnitude negative magnitude) := by
  obtain ⟨hs, hhead, hdecimal⟩ := h
  cases s with
  | nil => cases hhead
  | cons c rest =>
  have hc : isDigit c = true := Option.some.inj hhead
  obtain ⟨sign, hsign, htext⟩ : ∃ sign : NumeralSign, sign.negative = negative ∧
      (if negative then 45 :: c :: rest else c :: rest) = sign.text ++ c :: rest := by
    cases negative with
    | false => exact ⟨.none, rfl, rfl⟩
    | true => exact ⟨.minus, rfl, rfl⟩
  have hzero : cStr (sign.text ++ c :: rest) = sign.text ++ c :: rest := by
    refine List.takeWhile_eq_self_iff.mpr fun b hb => decide_eq_true ?_
    exact (List.mem_append.mp hb).elim (ne_zero_of_mem_text sign) fun hb => (hs b hb).ne.1
  have hspaces := takeWhile_isSpace_text sign hc rest
  have hdrop := dropWhile_eq_self hspaces
  have hstrtod : strtod (sign.text ++ c :: rest) =
      (ofMagnitude negative magnitude, (sign.text ++ c :: rest).length) := by
    have hlen : (c :: rest).length ≠ 0 := Nat.succ_ne_zero _
    simp only [strtod, hzero, hspaces, hdrop, splitSign_text sign hc rest, hsign,
      unsignedPart_printed hs, hdecimal, if_neg hlen, List.length_nil, Nat.zero_add,
      List.length_append]
  have hne : (sign.text ++ c :: rest).length ≠ 0 := by
    rw [List.length_append, List.length_cons]
    omega
  have htrail : trailing (sign.text ++ c :: rest) (sign.text ++ c :: rest).length = false := by
    rw [trailing, List.getD_eq_default _ _ le_rfl]
    rfl
  rw [htext]
  simp only [parseDouble, hstrtod, htrail, hne, false_or, Bool.false_eq_true, if_false]

/-! ## Printing -/

theorem roundDiv_mul_mul_right (a b : Nat) {c : Nat} (hc : 0 < c) :
    roundDiv (a * c) (b * c) = roundDiv a b := by
  have hlt : b * c < 2 * (a % b * c) ↔ b < 2 * (a % b) := by
    rw [← Nat.mul_assoc, Nat.mul_lt_mul_right hc]
  have heq : 2 * (a % b * c) = b * c ↔ 2 * (a % b) = b := by
    rw [← Nat.mul_assoc, Nat.mul_right_cancel_iff hc]
  simp only [roundDiv, Nat.mul_div_mul_right _ _ hc, Nat.mul_mod_mul_right, hlt, heq]

theorem toDecimal_mul_ten {n : Nat} (hpos : 0 < n) : toDecimal (n * 10) = toDecimal n ++ [48] := by
  have hdigits := @Nat.toDigits_append_toDigits 10 n 0 (by decide) hpos (by decide)
  rw [toDecimal, Nat.mul_comm n, ← Nat.add_zero (10 * n), ← hdigits, List.map_append]
  rfl

theorem toDecimal_mul_pow {n : Nat} (hpos : 0 < n) (k : Nat) :
    toDecimal (n * 10 ^ k) = toDecimal n ++ List.replicate k 48 := by
  induction k with
  | zero => rw [pow_zero, Nat.mul_one, List.replicate_zero, List.append_nil]
  | succ k ih =>
      rw [pow_succ, ← Nat.mul_assoc, toDecimal_mul_ten (by positivity), ih, List.append_assoc,
        List.replicate_succ']

theorem fractionPart_zeros (k : Nat) : fractionPart (List.replicate k 48) = [] := by
  have hstrip : stripZeros (List.replicate k 48) = [] := by
    rw [stripZeros, List.reverse_replicate, List.dropWhile_replicate, if_pos (by rfl),
      List.reverse_nil]
  simp only [fractionPart, hstrip, if_true]

theorem decimalExponent_natCast {n x c : Nat} (hpos : 0 < n) (hx : (toDecimal n).length = x + 1)
    (hc : 0 < c) : decimalExponent (n * c) c = x := by
  rw [decimalExponent, if_pos (Nat.le_mul_of_pos_left c hpos), Nat.mul_div_cancel _ hc, hx]
  omega

/-- An integer of at most six digits is printed digit by digit. -/
theorem formatFinite_small {magnitude n x : Nat} (hpos : 0 < n)
    (hx : (toDecimal n).length = x + 1) (hsmall : x ≤ 5)
    (h : (fraction magnitude).1 = n * (fraction magnitude).2) :
    formatFinite magnitude = toDecimal n := by
  have hc := fraction_snd_pos magnitude
  have hfraction : fraction magnitude = (n * (fraction magnitude).2, (fraction magnitude).2) :=
    Prod.ext h rfl
  generalize (fraction magnitude).2 = c at hc hfraction
  have hlt : n * 10 ^ (5 - x) < 10 ^ 6 := by
    have hhigh := lt_pow_length_toDecimal n
    calc n * 10 ^ (5 - x) < 10 ^ (x + 1) * 10 ^ (5 - x) :=
          Nat.mul_lt_mul_of_pos_right (hx ▸ hhigh) (by positivity)
      _ = 10 ^ 6 := by rw [← pow_add]; congr 1; omega
  have hdigits : sixDigits (n * c) c = (n * 10 ^ (5 - x), (x : Int)) := by
    have hexp : ((5 : Int) - x).toNat = 5 - x := by omega
    have hle : (x : Int) ≤ 5 := by omega
    have hround : roundDiv (n * c * 10 ^ (5 - x)) c = n * 10 ^ (5 - x) := by
      rw [Nat.mul_right_comm, roundDiv_of_dvd (Nat.dvd_mul_left c _) hc, Nat.mul_div_cancel _ hc]
    simp only [sixDigits, decimalExponent_natCast hpos hx hc, if_pos hle, hexp, hround,
      if_neg hlt.ne]
  have hfixed : ¬ ((x : Int) < -4 ∨ 6 ≤ (x : Int)) := by omega
  have htake : (toDecimal n ++ List.replicate (5 - x) 48).take (x + 1) = toDecimal n :=
    List.take_left' hx
  have hdrop : (toDecimal n ++ List.replicate (5 - x) 48).drop (x + 1) =
      List.replicate (5 - x) 48 := List.drop_left' hx
  simp only [formatFinite, hfraction, hdigits, if_neg hfixed, Int.natCast_nonneg, if_true,
    toDecimal_mul_pow hpos, Int.toNat_natCast, htake, hdrop, fractionPart_zeros, List.append_nil]

/-- A longer integer is rounded to six digits. -/
theorem sixDigits_natCast {n x c : Nat} (hpos : 0 < n) (hx : (toDecimal n).length = x + 1)
    (hlong : 5 < x) (hc : 0 < c) : ∃ digits y : Nat, sixDigits (n * c) c = (digits, (y : Int)) ∧
      (toDecimal digits).length = 6 ∧ x ≤ y ∧ y ≤ x + 1 ∧ digits * 10 ^ (y - 5) = rounded n := by
  have hexp : ((x : Int) - 5).toNat = x - 5 := by omega
  have hnot : ¬ (x : Int) ≤ 5 := by omega
  have hround : roundDiv (n * c) (c * 10 ^ (x - 5)) = roundDiv n (10 ^ (x - 5)) := by
    rw [Nat.mul_comm c, roundDiv_mul_mul_right _ _ hc]
  have hrounded : rounded n = roundDiv n (10 ^ (x - 5)) * 10 ^ (x - 5) := by
    simp only [rounded, hx, Nat.add_sub_cancel, if_neg (not_le.mpr hlong)]
  have hsix : sixDigits (n * c) c = if roundDiv n (10 ^ (x - 5)) = 10 ^ 6
      then (10 ^ 5, (x : Int) + 1) else (roundDiv n (10 ^ (x - 5)), (x : Int)) := by
    simp only [sixDigits, decimalExponent_natCast hpos hx hc, if_neg hnot, hexp, hround]
  have hlow : 10 ^ 5 ≤ n / 10 ^ (x - 5) := by
    rw [Nat.le_div_iff_mul_le (by positivity), ← pow_add]
    have hle := pow_le_of_length_toDecimal hpos hx
    rwa [show 5 + (x - 5) = x by omega]
  have hhigh : n / 10 ^ (x - 5) < 10 ^ 6 := by
    rw [Nat.div_lt_iff_lt_mul (by positivity), ← pow_add]
    have hlt := lt_pow_length_toDecimal n
    rwa [hx, show x + 1 = 6 + (x - 5) by omega] at hlt
  obtain ⟨hge, hle⟩ := roundDiv_bounds n (10 ^ (x - 5))
  rw [hsix, hrounded]
  by_cases htop : roundDiv n (10 ^ (x - 5)) = 10 ^ 6
  · refine ⟨10 ^ 5, x + 1, if_pos htop, by decide, Nat.le_succ x, le_rfl, ?_⟩
    rw [htop, ← pow_add, ← pow_add]
    congr 1
    omega
  · refine ⟨_, x, if_neg htop, ?_, le_rfl, Nat.le_succ x, rfl⟩
    have hupper := (@length_toDecimal_le_iff (roundDiv n (10 ^ (x - 5))) 6 (by decide)).mpr
      (by omega)
    have hlower := (@length_toDecimal_le_iff (roundDiv n (10 ^ (x - 5))) 5 (by decide)).not.mpr
      (by omega)
    omega

/-- The digits of an exponent, two at least. -/
def exponentDigits (y : Nat) : Bytes :=
  if (toDecimal y).length = 1 then 48 :: toDecimal y else toDecimal y

theorem exponentDigits_spec (y : Nat) : (∀ c ∈ exponentDigits y, isDigit c = true) ∧
    exponentDigits y ≠ [] ∧ digitsValue (exponentDigits y) = y := by
  unfold exponentDigits
  split
  · refine ⟨List.forall_mem_cons.mpr ⟨by decide, fun c => isDigit_of_mem_toDecimal⟩, nofun, ?_⟩
    have hzero : digitsValue [48] = 0 := rfl
    rw [← List.singleton_append, digitsValue_append, hzero, Nat.zero_mul, Nat.zero_add,
      digitsValue_toDecimal]
  · exact ⟨fun c => isDigit_of_mem_toDecimal, toDecimal_ne_nil y, digitsValue_toDecimal y⟩

/-- Six digits with a positive exponent. -/
def exponentText (digits y : Nat) : Bytes :=
  (toDecimal digits).take 1 ++
    (fractionPart ((toDecimal digits).drop 1) ++ 101 :: 43 :: exponentDigits y)

/-- A longer integer is printed with an exponent. -/
theorem formatFinite_long {magnitude n x : Nat} (hpos : 0 < n)
    (hx : (toDecimal n).length = x + 1) (hlong : 5 < x)
    (h : (fraction magnitude).1 = n * (fraction magnitude).2) :
    ∃ digits y : Nat, formatFinite magnitude = exponentText digits y ∧
      (toDecimal digits).length = 6 ∧ x ≤ y ∧ y ≤ x + 1 ∧ digits * 10 ^ (y - 5) = rounded n := by
  have hc := fraction_snd_pos magnitude
  have hfraction : fraction magnitude = (n * (fraction magnitude).2, (fraction magnitude).2) :=
    Prod.ext h rfl
  generalize (fraction magnitude).2 = c at hc hfraction
  obtain ⟨digits, y, hsix, hlen, hlow, hhigh, hrounded⟩ := sixDigits_natCast hpos hx hlong hc
  have hexp : (y : Int) < -4 ∨ 6 ≤ (y : Int) := by omega
  have hplus : ¬ (y : Int) < 0 := by omega
  have htext : ascii "e+" = [101, 43] := by decide
  refine ⟨digits, y, ?_, hlen, hlow, hhigh, hrounded⟩
  simp only [formatFinite, hfraction, hsix, if_pos hexp, if_neg hplus, Int.natAbs_natCast, htext,
    List.append_assoc, List.cons_append, List.nil_append]
  rfl

theorem printed_fractionPart {s : Bytes} (hs : ∀ c ∈ stripZeros s, isDigit c = true) :
    ∀ c ∈ fractionPart s, Printed c := by
  intro c hc
  simp only [fractionPart] at hc
  split at hc
  · cases hc
  · rcases List.mem_cons.mp hc with rfl | hc
    · exact .inr (.inl rfl)
    · exact .inl (hs c hc)

/-- What is read of six digits, the zeros at their end left out. -/
theorem numerates_exponentText {digits y : Nat} (hlen : (toDecimal digits).length = 6)
    (hpos : 0 < digits) (hlow : 5 < y) (hhigh : y ≤ 310) :
    Numerates (exponentText digits y) (nearest (digits * 10 ^ (y - 5)) 1) := by
  obtain ⟨hds, hne, hvalue⟩ := exponentDigits_spec y
  obtain ⟨c, s, hcs⟩ := List.exists_cons_of_ne_nil (toDecimal_ne_nil digits)
  have hdig : ∀ b ∈ c :: s, isDigit b = true := fun b hb => isDigit_of_mem_toDecimal (hcs ▸ hb)
  rw [List.forall_mem_cons] at hdig
  obtain ⟨k, hk⟩ := stripZeros_append s
  have hfrac : ∀ b ∈ stripZeros s, isDigit b = true := fun b hb =>
    hdig.2 b (hk ▸ List.mem_append_left _ hb)
  have hlength : (stripZeros s).length + k = 5 := by
    rw [hcs, List.length_cons, hk, List.length_append, List.length_replicate] at hlen
    omega
  have hdigits : digitsValue (c :: stripZeros s) * 10 ^ k = digits := by
    have hv := digitsValue_toDecimal digits
    rw [hcs, hk, ← List.cons_append, digitsValue_append, digitsValue_replicate_zero,
      List.length_replicate] at hv
    exact hv
  rw [exponentText, hcs, List.take_one, List.head?_cons, Option.toList_some, List.drop_one,
    List.tail_cons]
  refine ⟨fun b hb => ?_, ?_, ?_⟩
  · rcases List.mem_append.mp hb with hb | hb
    · exact .inl (List.mem_singleton.mp hb ▸ hdig.1)
    · rcases List.mem_append.mp hb with hb | hb
      · exact printed_fractionPart hfrac b hb
      · rcases List.mem_cons.mp hb with rfl | hb
        · exact .inr (.inr (.inl rfl))
        · rcases List.mem_cons.mp hb with rfl | hb
          · exact .inr (.inr (.inr rfl))
          · exact .inl (hds b hb)
  · rw [List.singleton_append, List.head?_cons, Option.map_some, hdig.1]
  · have hread := @nearestDecimal_natCast (digitsValue (c :: stripZeros s))
      (c :: stripZeros s).length (y - 5 + k) (fun h0 => by rw [h0] at hdigits; omega) (by omega)
    have he : ((y - 5 + k : Nat) : Int) =
        (digitsValue (exponentDigits y) : Int) - (stripZeros s).length := by omega
    rw [he, pow_add, Nat.mul_comm (10 ^ (y - 5)), ← Nat.mul_assoc, hdigits] at hread
    have hpart := @decimalPart_exponent [c] (stripZeros s) (exponentDigits y)
      (by simpa using hdig.1) nofun hfrac hds hne
    rw [List.singleton_append (l := stripZeros s), hread] at hpart
    exact hpart

/-- The text of a positive integer is a numeral for the rounded integer. -/
theorem numerates_formatFinite {magnitude n : Nat} (hpos : 0 < n) (hlt : n < 2 ^ 53)
    (h : (fraction magnitude).1 = n * (fraction magnitude).2) :
    Numerates (formatFinite magnitude) (integerBits (rounded n)) := by
  obtain ⟨x, hx⟩ : ∃ x, (toDecimal n).length = x + 1 :=
    ⟨_, (Nat.sub_add_cancel (length_toDecimal_pos n)).symm⟩
  rw [← nearest_integer (exact_rounded hpos hlt)]
  by_cases hsmall : x ≤ 5
  · have hrounded : rounded n = n := by simp only [rounded, hx, Nat.add_sub_cancel, if_pos hsmall]
    rw [formatFinite_small hpos hx hsmall h, hrounded]
    refine ⟨fun c hc => .inl (isDigit_of_mem_toDecimal hc), ?_, ?_⟩
    · obtain ⟨c, s, hcs, -⟩ := head_toDecimal hpos
      have hc := @isDigit_of_mem_toDecimal n c (hcs ▸ List.mem_cons_self)
      rw [hcs, List.head?_cons, Option.map_some, hc]
    · have hread := @nearestDecimal_natCast n (toDecimal n).length 0 hpos.ne' (Nat.zero_le _)
      rw [pow_zero, Nat.mul_one] at hread
      rw [decimalPart_plain (fun c => isDigit_of_mem_toDecimal) (toDecimal_ne_nil n),
        digitsValue_toDecimal]
      exact congrArg₂ _ hread rfl
  · obtain ⟨digits, y, htext, hlen, hlow, hhigh, hrounded⟩ :=
      formatFinite_long hpos hx (not_le.mp hsmall) h
    have hx16 := length_toDecimal_lt hpos hlt hx
    have hdigits : 0 < digits := by
      have hrpos := (exact_rounded hpos hlt).pos
      rw [← hrounded] at hrpos
      exact Nat.pos_of_mul_pos_right hrpos
    rw [htext, ← hrounded]
    exact numerates_exponentText hlen hdigits (by omega) (by omega)

/-- The text of an integer of six significant digits. -/
def integerText (m : Nat) : Bytes :=
  let y := (toDecimal m).length - 1
  if y ≤ 5 then toDecimal m else exponentText (m / 10 ^ (y - 5)) y

/-- The rounded integer determines the text. -/
theorem formatFinite_eq {magnitude n : Nat} (hpos : 0 < n)
    (h : (fraction magnitude).1 = n * (fraction magnitude).2) :
    formatFinite magnitude = integerText (rounded n) := by
  obtain ⟨x, hx⟩ : ∃ x, (toDecimal n).length = x + 1 :=
    ⟨_, (Nat.sub_add_cancel (length_toDecimal_pos n)).symm⟩
  by_cases hsmall : x ≤ 5
  · have hrounded : rounded n = n := by simp only [rounded, hx, Nat.add_sub_cancel, if_pos hsmall]
    simp only [formatFinite_small hpos hx hsmall h, hrounded, integerText, hx, Nat.add_sub_cancel,
      if_pos hsmall]
  · obtain ⟨digits, y, htext, hlen, hlow, -, hrounded⟩ :=
      formatFinite_long hpos hx (not_le.mp hsmall) h
    have hdigits : 0 < digits := by
      by_contra hzero
      rw [Nat.eq_zero_of_not_pos hzero] at hlen
      exact absurd hlen (by decide)
    have hy : (toDecimal (rounded n)).length - 1 = y := by
      rw [← hrounded, toDecimal_mul_pow hdigits, List.length_append, hlen, List.length_replicate]
      omega
    have hquot : rounded n / 10 ^ (y - 5) = digits := by
      rw [← hrounded, Nat.mul_div_cancel _ (by positivity)]
    simp only [htext, integerText, hy, hquot, if_neg (show ¬ y ≤ 5 by omega)]

end Double

end RedisLike
