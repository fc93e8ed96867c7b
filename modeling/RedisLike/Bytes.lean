import Mathlib

/-!
# RedisLike.Bytes

Byte strings and the parts of the C and C++ standard libraries that the
server uses on them: the order of `std::string`, C strings, `std::toupper`,
`std::to_string`, `std::strtoll` and the little-endian memory image of an
integer.

A `std::string` is the list of its bytes.  Positions and lengths are `Nat`;
where the source computes with `size_t` or `int64_t` in a way that can wrap,
the wrap is written out at that place.
-/

namespace RedisLike

/-- A `std::string`: its bytes, NUL included. -/
abbrev Bytes := List UInt8

/-- The bytes of an ASCII string literal. -/
def ascii (s : String) : Bytes := s.toList.map fun c => c.toNat.toUInt8

/-! ## The order of `std::string` -/

/-- Bytes compare as `unsigned char`, as `std::char_traits<char>` does. -/
instance instLinearOrderUInt8 : LinearOrder UInt8 where
  le_refl a := UInt8.le_refl a
  le_trans _ _ _ := UInt8.le_trans
  lt_iff_le_not_ge a b := by simp only [UInt8.lt_iff_toNat_lt, UInt8.le_iff_toNat_le]; omega
  le_antisymm _ _ := UInt8.le_antisymm
  le_total := UInt8.le_total
  toDecidableLE := inferInstance
  toDecidableEq := inferInstance
  toDecidableLT := inferInstance

/-- `==` of `std::string` is equality. -/
instance instLawfulBEqBytes : LawfulBEq Bytes := inferInstanceAs (LawfulBEq (List UInt8))

/-! ## Characters -/

/-- `'\r'`. -/
def cr : UInt8 := 13

/-- `'\n'`. -/
def lf : UInt8 := 10

/-- The line end of the protocol, `"\r\n"`. -/
def crlf : Bytes := [cr, lf]

/-- `std::isspace` in the "C" locale. -/
def isSpace (c : UInt8) : Bool := c = 32 || (9 ≤ c && c ≤ 13)

/-- `std::isdigit`. -/
def isDigit (c : UInt8) : Bool := 48 ≤ c && c ≤ 57

/-- `std::toupper` in the "C" locale. -/
def toUpper (c : UInt8) : UInt8 := if 97 ≤ c ∧ c ≤ 122 then c - 32 else c

/-- The characters `s.c_str()` shows to a C function: up to the first NUL. -/
def cStr (s : Bytes) : Bytes := s.takeWhile (· ≠ 0)

/-- `*end != '\0'`, for `end = s.c_str() + e`: the byte at `e`, or the
terminating NUL behind the last byte, is not NUL. -/
def trailing (s : Bytes) (e : Nat) : Bool := s.getD e 0 ≠ 0

/-! ## Decimal numerals -/

/-- `std::to_string` of an unsigned number. -/
def toDecimal (n : Nat) : Bytes := (Nat.toDigits 10 n).map fun c => c.toNat.toUInt8

/-- `std::to_string` of a signed number. -/
def intToDecimal (n : Int) : Bytes :=
  if n < 0 then 45 :: toDecimal n.natAbs else toDecimal n.natAbs

/-- The value of a run of decimal digits. -/
def digitsValue (ds : Bytes) : Nat := ds.foldl (fun n d => 10 * n + (d.toNat - 48)) 0

/-- The largest `int64_t`. -/
def int64Max : Int := 2 ^ 63 - 1

/-- The smallest `int64_t`. -/
def int64Min : Int := -2 ^ 63

/-- `strtoll` saturates at the ends of the `int64_t` range. -/
def saturate (v : Int) : Int := max int64Min (min int64Max v)

/-- The optional sign of a numeral: whether it is a minus, how many
characters it takes, and what follows it. -/
def splitSign : Bytes → Bool × Nat × Bytes
  | 45 :: rest => (true, 1, rest)
  | 43 :: rest => (false, 1, rest)
  | body => (false, 0, body)

/-- `std::strtoll(s.c_str(), &end, 10)`: the value, and `end - s.c_str()`,
which is 0 when there is no numeral. -/
def strtoll (s : Bytes) : Int × Nat :=
  let text := cStr s
  let spaces := text.takeWhile isSpace
  let (negative, sign, body) := splitSign (text.dropWhile isSpace)
  let digits := body.takeWhile isDigit
  if digits = [] then (0, 0)
  else
    let v : Int := digitsValue digits
    (saturate (if negative then -v else v), spaces.length + sign + digits.length)

/-- `ParseInt`: the three copies in the string, list and zset command files
have this body. -/
def parseInt (s : Bytes) : Option Int64 :=
  let (v, e) := strtoll s
  if e = 0 ∨ trailing s e then none else some (Int64.ofInt v)

/-! ### Numerals read back -/

theorem strtoll_lt (s : Bytes) : (strtoll s).1 < 2 ^ 63 := by
  simp only [strtoll]
  split
  · simp
  · simp only [saturate, int64Max, int64Min]
    omega

theorem isDigit_iff (c : UInt8) : isDigit c = true ↔ 48 ≤ c.toNat ∧ c.toNat ≤ 57 := by
  simp [isDigit, UInt8.le_iff_toNat_le]

/-- A digit is no NUL, no space, no sign and no line end. -/
theorem ne_of_isDigit {c : UInt8} (h : isDigit c = true) :
    c ≠ 0 ∧ isSpace c = false ∧ c ≠ 45 ∧ c ≠ 43 ∧ c ≠ cr := by
  rw [isDigit_iff] at h
  refine ⟨?_, ?_, ?_, ?_, ?_⟩
  · rintro rfl; simp at h
  · have h32 : c ≠ 32 := by rintro rfl; simp at h
    have h13 : ¬ c ≤ 13 := by rw [UInt8.le_iff_toNat_le]; simp; omega
    simp [isSpace, h32, h13]
  · rintro rfl; simp at h
  · rintro rfl; simp at h
  · rintro rfl; simp [cr] at h

/-- Nothing is split off a numeral that starts with neither sign. -/
theorem splitSign_of_ne {c : UInt8} (hm : c ≠ 45) (hp : c ≠ 43) (ds : Bytes) :
    splitSign (c :: ds) = (false, 0, c :: ds) := by
  unfold splitSign
  split <;> simp_all

theorem toDecimal_ne_nil (n : Nat) : toDecimal n ≠ [] := by
  simp [toDecimal, Nat.toDigits_ne_nil]

/-- A digit character keeps its code when it becomes a byte. -/
private theorem toNat_toUInt8_of_isDigit {c : Char} (h : c.isDigit = true) :
    c.toNat.toUInt8.toNat = c.toNat := by
  rw [Char.isDigit_iff_toNat] at h
  have h9 : '9'.toNat = 57 := rfl
  simp only [Nat.toUInt8_eq, UInt8.toNat_ofNat']
  omega

theorem isDigit_of_mem_toDecimal {n : Nat} {c : UInt8} (h : c ∈ toDecimal n) :
    isDigit c = true := by
  obtain ⟨d, hd, rfl⟩ := List.mem_map.mp h
  have hdig := Nat.isDigit_of_mem_toDigits (by decide) (by decide) hd
  rw [isDigit_iff, toNat_toUInt8_of_isDigit hdig]
  rw [Char.isDigit_iff_toNat] at hdig
  exact hdig

/-- `std::to_string` and the digit loop are inverse. -/
theorem digitsValue_toDecimal (n : Nat) : digitsValue (toDecimal n) = n := by
  have hmap : ∀ (l : List Char) (v : Nat), (∀ c ∈ l, c.isDigit = true) →
      (l.map fun c => c.toNat.toUInt8).foldl (fun n d => 10 * n + (d.toNat - 48)) v =
        Nat.ofDigitChars 10 l v := by
    intro l
    induction l with
    | nil => intro v _; simp
    | cons c l ih =>
        intro v hl
        have hc := toNat_toUInt8_of_isDigit (hl c (by simp))
        rw [List.map_cons, List.foldl_cons, hc, Nat.ofDigitChars_cons]
        exact ih _ fun d hd => hl d (List.mem_cons_of_mem c hd)
  rw [digitsValue, toDecimal, hmap _ _ fun c hc =>
    Nat.isDigit_of_mem_toDigits (by decide) (by decide) hc]
  exact Nat.ofDigitChars_ten_toDigits

/-- **Numeral roundtrip**: `strtoll` reads what `to_string` printed, and
stops behind its last digit. -/
theorem strtoll_toDecimal {n : Nat} (h : n < 2 ^ 63) :
    strtoll (toDecimal n) = ((n : Int), (toDecimal n).length) := by
  have hdig := fun (c : UInt8) (hc : c ∈ toDecimal n) => isDigit_of_mem_toDecimal hc
  have htext : cStr (toDecimal n) = toDecimal n := by
    rw [cStr, List.takeWhile_eq_self_iff]
    intro c hc
    simpa using (ne_of_isDigit (hdig c hc)).1
  have hsat : saturate (n : Int) = n := by
    unfold saturate int64Max int64Min; omega
  have hval := digitsValue_toDecimal n
  have hdigits : (toDecimal n).takeWhile isDigit = toDecimal n :=
    List.takeWhile_eq_self_iff.mpr hdig
  cases hd : toDecimal n with
  | nil => exact absurd hd (toDecimal_ne_nil n)
  | cons c ds =>
      rw [hd] at htext hval hdigits hdig
      obtain ⟨-, hspace, hminus, hplus, -⟩ := ne_of_isDigit (hdig c (by simp))
      have hbody := splitSign_of_ne hminus hplus ds
      have hspaces : (c :: ds).takeWhile isSpace = [] := by simp [hspace]
      have hrest : (c :: ds).dropWhile isSpace = c :: ds := by simp [hspace]
      simp only [strtoll, htext, hspaces, hrest, hbody, hdigits, hval]
      simp [hsat]

/-! ## Memory images -/

/-- The `k` bytes of `n` in memory on a little-endian host; higher bits are
dropped, as by a conversion to the `k`-byte unsigned type. -/
def leBytes : Nat → Nat → Bytes
  | 0, _ => []
  | k + 1, n => (n % 256).toUInt8 :: leBytes k (n / 256)

/-- The number whose little-endian image is `bs`. -/
def leValue : Bytes → Nat
  | [] => 0
  | b :: bs => b.toNat + 256 * leValue bs

@[simp] theorem length_leBytes (k n : Nat) : (leBytes k n).length = k := by
  induction k generalizing n with
  | zero => rfl
  | succ k ih => simp [leBytes, ih]

/-- A number that fits reads back from its memory image. -/
theorem leValue_leBytes {k n : Nat} (h : n < 256 ^ k) : leValue (leBytes k n) = n := by
  induction k generalizing n with
  | zero => simp [leBytes, leValue] at h ⊢; omega
  | succ k ih =>
      have hdiv : n / 256 < 256 ^ k := by rw [pow_succ] at h; omega
      rw [leBytes, leValue, ih hdiv]
      have hmod : (n % 256).toUInt8.toNat = n % 256 := by
        simp only [Nat.toUInt8_eq, UInt8.toNat_ofNat']; omega
      rw [hmod]
      omega

end RedisLike
