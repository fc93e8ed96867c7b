import RedisLike.Bytes

/-!
# RedisLike.Double

The `double` of the sorted sets: an IEEE 754 binary64 bit pattern with the
comparisons of the language, `std::strtod` (as `ParseDouble` calls it) and the
default output of `std::ostringstream << double`.

The order is read off the bit pattern: for values other than NaN, the sign and
the magnitude bits order like the numbers they stand for (`Double.ord`), with
`-0.0` and `0.0` at the same place.  Every comparison with a NaN is false.
-/

namespace RedisLike

/-- A C++ `double`, by its bit pattern. -/
structure Double where
  bits : UInt64
deriving DecidableEq

namespace Double

/-- Magnitude bits of the infinities; larger magnitudes are NaNs. -/
def infinityMagnitude : Nat := 0x7FF0000000000000

/-- The bits below the sign bit. -/
def magnitude (d : Double) : Nat := d.bits.toNat % 2 ^ 63

/-- The sign bit. -/
def negative (d : Double) : Bool := 2 ^ 63 ≤ d.bits.toNat

def isNaN (d : Double) : Bool := infinityMagnitude < d.magnitude

/-- Position of a value other than NaN in the order of the numbers. -/
def ord (d : Double) : Int := if d.negative then -(d.magnitude : Int) else d.magnitude

/-! ## The comparisons of the language -/

/-- `a < b`. -/
def lt (a b : Double) : Bool := !a.isNaN && !b.isNaN && a.ord < b.ord

/-- `a <= b`. -/
def le (a b : Double) : Bool := !a.isNaN && !b.isNaN && a.ord ≤ b.ord

/-- `a == b`. -/
def eq (a b : Double) : Bool := !a.isNaN && !b.isNaN && a.ord = b.ord

theorem lt_eq {a b : Double} (ha : a.isNaN = false) (hb : b.isNaN = false) :
    a.lt b = decide (a.ord < b.ord) := by simp [lt, ha, hb]

theorem le_eq {a b : Double} (ha : a.isNaN = false) (hb : b.isNaN = false) :
    a.le b = decide (a.ord ≤ b.ord) := by simp [le, ha, hb]

theorem eq_eq {a b : Double} (ha : a.isNaN = false) (hb : b.isNaN = false) :
    a.eq b = decide (a.ord = b.ord) := by simp [eq, ha, hb]

/-! ## Reading -/

/-- The double with the given sign and magnitude bits. -/
def ofMagnitude (negative : Bool) (magnitude : Nat) : Double :=
  ⟨(magnitude + if negative then 2 ^ 63 else 0).toUInt64⟩

/-- Quotient rounded to the nearest integer, ties to even. -/
def roundDiv (num den : Nat) : Nat :=
  let q := num / den
  let r := num % den
  if den < 2 * r ∨ (2 * r = den ∧ q % 2 = 1) then q + 1 else q

/-- `num * 2 ^ e / den` as a fraction. -/
def scale2 (num den : Nat) (e : Int) : Nat × Nat :=
  if 0 ≤ e then (num * 2 ^ e.toNat, den) else (num, den * 2 ^ (-e).toNat)

/-- Magnitude bits of the double nearest to `num / den`, ties to even; values
beyond the largest finite double give the infinity. -/
def nearest (num den : Nat) : Nat :=
  if num = 0 then 0
  else
    let guess : Int := Nat.log2 num - Nat.log2 den
    let (n, d) := scale2 num den (-guess)
    let exponent := max (if d ≤ n then guess else guess - 1) (-1022)
    let (n, d) := scale2 num den (52 - exponent)
    min ((exponent + 1022).toNat * 2 ^ 52 + roundDiv n d) infinityMagnitude

/-- Magnitude bits nearest to `m * 10 ^ e`, where `m` has at most `len`
digits.  Exponents far outside the range need no big power. -/
def nearestDecimal (m len : Nat) (e : Int) : Nat :=
  if m = 0 then 0
  else if 310 < e then infinityMagnitude
  else if e + len < -330 then 0
  else if 0 ≤ e then nearest (m * 10 ^ e.toNat) 1
  else nearest m (10 ^ (-e).toNat)

/-- Magnitude bits nearest to `m * 2 ^ e`. -/
def nearestBinary (m : Nat) (e : Int) : Nat :=
  if m = 0 then 0
  else if 1100 < e + Nat.log2 m then infinityMagnitude
  else if e + Nat.log2 m < -1200 then 0
  else
    let (n, d) := scale2 m 1 e
    nearest n d

/-- Value of a hexadecimal digit. -/
def hexDigit (c : UInt8) : Option Nat :=
  if 48 ≤ c ∧ c ≤ 57 then some (c.toNat - 48)
  else if 97 ≤ c ∧ c ≤ 102 then some (c.toNat - 87)
  else if 65 ≤ c ∧ c ≤ 70 then some (c.toNat - 55)
  else none

/-- The optional exponent of a floating numeral, `mark` being its letter in
upper case: its value and length.  Without a digit it is not an exponent. -/
def exponentPart (mark : UInt8) (s : Bytes) : Int × Nat :=
  match s with
  | c :: rest =>
    if toUpper c = mark then
      let (negative, sign, body) := splitSign rest
      let digits := body.takeWhile isDigit
      if digits = [] then (0, 0)
      else
        let v : Int := digitsValue digits
        (if negative then -v else v, 1 + sign + digits.length)
    else (0, 0)
  | [] => (0, 0)

/-- Integer part, fraction part and length of `digits [. digits]`; the length
is 0 when there is no digit. -/
def mantissaPart (digit : UInt8 → Bool) (s : Bytes) : Bytes × Bytes × Nat :=
  let whole := s.takeWhile digit
  match s.dropWhile digit with
  | 46 :: rest =>
    let frac := rest.takeWhile digit
    if whole = [] ∧ frac = [] then ([], [], 0)
    else (whole, frac, whole.length + 1 + frac.length)
  | _ => (whole, [], whole.length)

/-- A decimal numeral: its magnitude bits and length. -/
def decimalPart (s : Bytes) : Nat × Nat :=
  let (whole, frac, len) := mantissaPart isDigit s
  if len = 0 then (0, 0)
  else
    let (e, elen) := exponentPart 69 (s.drop len)
    let digits := whole ++ frac
    (nearestDecimal (digitsValue digits) digits.length (e - frac.length), len + elen)

/-- A hexadecimal numeral behind its `0x`: its magnitude bits and length. -/
def hexPart (s : Bytes) : Nat × Nat :=
  let (whole, frac, len) := mantissaPart (fun c => (hexDigit c).isSome) s
  if len = 0 then (0, 0)
  else
    let (e, elen) := exponentPart 80 (s.drop len)
    let m := (whole ++ frac).foldl (fun n c => 16 * n + (hexDigit c).getD 0) 0
    (nearestBinary m (e - 4 * frac.length), len + elen)

/-- Length of the optional `(n-char-sequence)` behind `nan`. -/
def nanSuffix : Bytes → Nat
  | 40 :: rest =>
    let body := rest.takeWhile fun c =>
      isDigit c || (65 ≤ toUpper c && toUpper c ≤ 90) || c = 95
    if rest.drop body.length |>.head? |> (· = some 41) then body.length + 2 else 0
  | _ => 0

/-- The payload of a `nan(n-char-sequence)`, as glibc has it: the number of all its
characters, read as by `strtoull` with any base, in the 51 bits below the quiet bit. -/
def nanPayload (chars : Bytes) : Nat :=
  let (base, digits) := match chars with
    | 48 :: c :: rest => if toUpper c = 88 ∧ rest ≠ [] then (16, rest) else (8, c :: rest)
    | _ => (10, chars)
  if digits.all fun c => (hexDigit c).any (· < base) then
    min (digits.foldl (fun n c => base * n + (hexDigit c).getD 0) 0) (2 ^ 64 - 1) % 2 ^ 51
  else 0

/-- The numeral behind spaces and sign: magnitude bits and length. -/
def unsignedPart (s : Bytes) : Nat × Nat :=
  let upper := s.map toUpper
  if (ascii "INFINITY").isPrefixOf upper then (infinityMagnitude, 8)
  else if (ascii "INF").isPrefixOf upper then (infinityMagnitude, 3)
  else if (ascii "NAN").isPrefixOf upper then
    let len := nanSuffix (s.drop 3)
    (0x7FF8000000000000 + nanPayload ((s.drop 4).take (len - 2)), 3 + len)
  else if (ascii "0X").isPrefixOf upper ∧ (hexPart (s.drop 2)).2 ≠ 0 then
    let (m, len) := hexPart (s.drop 2)
    (m, len + 2)
  else decimalPart s

end Double

/-- `std::strtod(s.c_str(), &end)`: the value, and `end - s.c_str()`, which is
0 when there is no numeral. -/
def strtod (s : Bytes) : Double × Nat :=
  let text := cStr s
  let spaces := text.takeWhile isSpace
  let (negative, sign, body) := splitSign (text.dropWhile isSpace)
  let (magnitude, len) := Double.unsignedPart body
  if len = 0 then (Double.ofMagnitude false 0, 0)
  else (Double.ofMagnitude negative magnitude, spaces.length + sign + len)

/-- `ParseDouble` of the zset command file. -/
def parseDouble (s : Bytes) : Option Double :=
  let (v, e) := strtod s
  if e = 0 ∨ trailing s e then none else some v

/-! ## Writing -/

namespace Double

/-- Strip trailing `'0'` characters. -/
def stripZeros (s : Bytes) : Bytes := (s.reverse.dropWhile (· = 48)).reverse

/-- A fraction part, with its point when there is something behind it. -/
def fractionPart (s : Bytes) : Bytes :=
  let frac := stripZeros s
  if frac = [] then [] else 46 :: frac

/-- The finite nonzero magnitude as a fraction. -/
def fraction (magnitude : Nat) : Nat × Nat :=
  let e : Nat := magnitude / 2 ^ 52
  let f := magnitude % 2 ^ 52
  if e = 0 then scale2 f 1 (-1074) else scale2 (f + 2 ^ 52) 1 ((e : Int) - 1075)

/-- The decimal exponent of `n / d`: the `x` with `10 ^ x ≤ n / d < 10 ^ (x + 1)`. -/
def decimalExponent (n d : Nat) : Int :=
  if d ≤ n then (toDecimal (n / d)).length - 1 else -((toDecimal ((d - 1) / n)).length : Int)

/-- `n / d` rounded to six significant digits (ties to even), and the decimal
exponent of the rounded value. -/
def sixDigits (n d : Nat) : Nat × Int :=
  let x := decimalExponent n d
  let digits :=
    if x ≤ 5 then roundDiv (n * 10 ^ (5 - x).toNat) d else roundDiv n (d * 10 ^ (x - 5).toNat)
  if digits = 10 ^ 6 then (10 ^ 5, x + 1) else (digits, x)

/-- `printf`'s `%g` of a finite nonzero magnitude. -/
def formatFinite (magnitude : Nat) : Bytes :=
  let (n, d) := fraction magnitude
  let (digits, x) := sixDigits n d
  let s := toDecimal digits
  if x < -4 ∨ 6 ≤ x then
    let e := toDecimal x.natAbs
    s.take 1 ++ fractionPart (s.drop 1) ++ ascii (if x < 0 then "e-" else "e+") ++
      (if e.length = 1 then 48 :: e else e)
  else if 0 ≤ x then
    s.take (x.toNat + 1) ++ fractionPart (s.drop (x.toNat + 1))
  else
    48 :: fractionPart (List.replicate ((-x).toNat - 1) 48 ++ s)

/-- `std::ostringstream() << d`, which prints like `%g` with six significant
digits. -/
def toText (d : Double) : Bytes :=
  let body :=
    if d.isNaN then ascii "nan"
    else if d.magnitude = infinityMagnitude then ascii "inf"
    else if d.magnitude = 0 then ascii "0"
    else formatFinite d.magnitude
  if d.negative then 45 :: body else body

end Double

end RedisLike
