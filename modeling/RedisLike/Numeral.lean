import RedisLike.Bytes

/-!
# RedisLike.Numeral

What `ParseInt` reads.

A `Numeral` is spaces, a sign or none, and digits.  `strtoll` reads it from the
front of a C string and saturates its value, and `ParseInt` takes no look at
what stands behind the first NUL: `parseInt_eq_some_iff` says what it accepts,
and `readsExactly_iff` when this is what the string denotes.
-/

namespace RedisLike

/-- The sign in front of a numeral. -/
inductive NumeralSign where
  | none
  | plus
  | minus

namespace NumeralSign

def text : NumeralSign → Bytes
  | none => []
  | plus => [43]
  | minus => [45]

def negative : NumeralSign → Bool
  | minus => true
  | _ => false

end NumeralSign

/-- A decimal numeral: spaces, a sign or none, and digits. -/
structure Numeral where
  spaces : Bytes
  sign : NumeralSign
  digits : Bytes
  spaces_all : ∀ c ∈ spaces, isSpace c = true
  digits_all : ∀ c ∈ digits, isDigit c = true
  digits_ne : digits ≠ []

namespace Numeral

def text (x : Numeral) : Bytes := x.spaces ++ (x.sign.text ++ x.digits)

def value (x : Numeral) : Int :=
  if x.sign.negative then -(digitsValue x.digits : Int) else digitsValue x.digits

end Numeral

/-- The whole of `s` is a numeral for `n`. -/
def Denotes (s : Bytes) (n : Int) : Prop := ∃ x : Numeral, x.text = s ∧ x.value = n

/-! ## Reading a numeral -/

theorem ne_zero_of_isSpace {c : UInt8} (h : isSpace c = true) : c ≠ 0 := by
  rintro rfl
  revert h
  decide

/-- The digits of a numeral start with no sign. -/
theorem splitSign_text (sign : NumeralSign) {c : UInt8} (hc : isDigit c = true) (ds : Bytes) :
    splitSign (sign.text ++ c :: ds) = (sign.negative, sign.text.length, c :: ds) := by
  cases sign with
  | none =>
      obtain ⟨-, -, hminus, hplus, -⟩ := ne_of_isDigit hc
      exact splitSign_of_ne hminus hplus ds
  | plus => rfl
  | minus => rfl

theorem takeWhile_isSpace_text (sign : NumeralSign) {c : UInt8} (hc : isDigit c = true)
    (ds : Bytes) : (sign.text ++ c :: ds).takeWhile isSpace = [] := by
  cases sign with
  | none =>
      obtain ⟨-, hspace, -⟩ := ne_of_isDigit hc
      simp [NumeralSign.text, hspace]
  | plus => rfl
  | minus => rfl

theorem ne_zero_of_mem_text (sign : NumeralSign) {c : UInt8} (hc : c ∈ sign.text) : c ≠ 0 := by
  rintro rfl
  revert hc
  cases sign <;> decide

theorem splitSign_eq (s : Bytes) : ∃ sign : NumeralSign,
    s = sign.text ++ (splitSign s).2.2 ∧ (splitSign s).1 = sign.negative ∧
      (splitSign s).2.1 = sign.text.length := by
  fun_cases splitSign s with
  | case1 rest => exact ⟨.minus, rfl, rfl, rfl⟩
  | case2 rest => exact ⟨.plus, rfl, rfl, rfl⟩
  | case3 => exact ⟨.none, rfl, rfl, rfl⟩

namespace Numeral

/-- No character of a numeral is NUL. -/
theorem ne_zero (x : Numeral) : ∀ c ∈ x.text, c ≠ 0 := by
  intro c hc
  rw [text, List.mem_append, List.mem_append] at hc
  rcases hc with hc | hc | hc
  · exact ne_zero_of_isSpace (x.spaces_all c hc)
  · exact ne_zero_of_mem_text x.sign hc
  · exact (ne_of_isDigit (x.digits_all c hc)).1

/-- The parts of a numeral are found from the front. -/
theorem takeWhile_text (x : Numeral) (tail : Bytes) :
    (x.text ++ tail).takeWhile isSpace = x.spaces ∧
      splitSign ((x.text ++ tail).dropWhile isSpace) =
        (x.sign.negative, x.sign.text.length, x.digits ++ tail) := by
  obtain ⟨c, ds, hds⟩ := List.exists_cons_of_ne_nil x.digits_ne
  have hc : isDigit c = true := x.digits_all c (hds ▸ List.mem_cons_self)
  have hbody : (x.sign.text ++ (x.digits ++ tail)).takeWhile isSpace = [] := by
    rw [hds]
    exact takeWhile_isSpace_text x.sign hc (ds ++ tail)
  have hspaces : (x.text ++ tail).takeWhile isSpace = x.spaces := by
    rw [text, List.append_assoc, List.append_assoc, List.takeWhile_append_of_pos x.spaces_all,
      hbody, List.append_nil]
  refine ⟨hspaces, ?_⟩
  have hsplit := List.takeWhile_append_dropWhile (p := isSpace) (l := x.text ++ tail)
  rw [hspaces] at hsplit
  have hdrop : (x.text ++ tail).dropWhile isSpace = x.sign.text ++ (x.digits ++ tail) := by
    refine List.append_cancel_left (hsplit.trans ?_)
    rw [text, List.append_assoc, List.append_assoc]
  rw [hdrop, hds]
  exact splitSign_text x.sign hc (ds ++ tail)

theorem takeWhile_digits (x : Numeral) {tail : Bytes} (htail : tail.takeWhile isDigit = []) :
    (x.digits ++ tail).takeWhile isDigit = x.digits := by
  rw [List.takeWhile_append_of_pos x.digits_all, htail, List.append_nil]

end Numeral

/-- A string is a numeral for one number at most. -/
theorem Denotes.unique {s : Bytes} {n n' : Int} (h : Denotes s n) (h' : Denotes s n') : n = n' := by
  obtain ⟨x, rfl, rfl⟩ := h
  obtain ⟨x', hx, rfl⟩ := h'
  have hsplit := (x.takeWhile_text []).2
  rw [← hx, (x'.takeWhile_text []).2, List.append_nil, List.append_nil] at hsplit
  rw [Numeral.value, Numeral.value, (Prod.mk.inj hsplit).1,
    (Prod.mk.inj (Prod.mk.inj hsplit).2).2]

/-- `strtoll` reads a numeral that no further digit follows, and saturates. -/
theorem strtoll_text {s tail : Bytes} (x : Numeral) (hs : cStr s = x.text ++ tail)
    (htail : tail.takeWhile isDigit = []) :
    strtoll s = (saturate x.value, x.text.length) := by
  obtain ⟨hspaces, hsplit⟩ := x.takeWhile_text tail
  simp only [strtoll, hs, hspaces, hsplit, x.takeWhile_digits htail, if_neg x.digits_ne]
  rw [Numeral.value, Numeral.text, List.length_append, List.length_append, Nat.add_assoc]

/-- What `strtoll` stops behind is a numeral. -/
theorem exists_of_strtoll {s : Bytes} (h : (strtoll s).2 ≠ 0) : ∃ (x : Numeral) (tail : Bytes),
    cStr s = x.text ++ tail ∧ tail.takeWhile isDigit = [] := by
  obtain ⟨sign, hbody, hneg, hlen⟩ := splitSign_eq ((cStr s).dropWhile isSpace)
  have hne : (splitSign ((cStr s).dropWhile isSpace)).2.2.takeWhile isDigit ≠ [] := by
    intro hnil
    exact h (by simp only [strtoll, hnil, if_true])
  generalize (splitSign ((cStr s).dropWhile isSpace)).2.2 = body at hbody hne
  refine ⟨⟨(cStr s).takeWhile isSpace, sign, body.takeWhile isDigit,
    fun c hc => List.mem_takeWhile_imp hc, fun c hc => List.mem_takeWhile_imp hc, hne⟩,
    body.dropWhile isDigit, ?_, ?_⟩
  · rw [Numeral.text, List.append_assoc, List.append_assoc, List.takeWhile_append_dropWhile,
      ← hbody, List.takeWhile_append_dropWhile]
  · exact List.takeWhile_eq_nil_iff.mpr fun hl => by
      have := List.dropWhile_get_zero_not (p := isDigit) (l := body) hl
      simpa using this

/-! ## `ParseInt` -/

/-- `*end` is NUL where the C string ends, and not before. -/
theorem trailing_eq_false_iff {s : Bytes} {e : Nat} (h : e ≤ (cStr s).length) :
    trailing s e = false ↔ e = (cStr s).length := by
  have hsplit : ∀ i, s.getD i 0 = (cStr s ++ s.dropWhile (· ≠ 0)).getD i 0 := by
    rw [cStr, List.takeWhile_append_dropWhile]
    exact fun _ => rfl
  have hend : s.getD (cStr s).length 0 = 0 := by
    rw [hsplit, List.getD_append_right _ _ _ _ le_rfl, Nat.sub_self]
    cases hd : s.dropWhile (· ≠ 0) with
    | nil => rfl
    | cons c rest =>
        have hc := List.head?_dropWhile_not (fun c : UInt8 => decide (c ≠ 0)) s
        rw [hd] at hc
        simpa using hc
  rw [trailing, decide_eq_false_iff_not, not_not]
  constructor
  · intro hzero
    by_contra hne
    have hlt : e < (cStr s).length := by omega
    have hmem : (cStr s)[e] ∈ cStr s := List.getElem_mem hlt
    have hget : s.getD e 0 = (cStr s)[e] := by
      rw [hsplit, List.getD_append _ _ _ _ hlt, List.getD_eq_getElem _ _ hlt]
    have hnz := List.mem_takeWhile_imp hmem
    rw [← hget, hzero] at hnz
    simp at hnz
  · rintro rfl
    exact hend

/-- **What `ParseInt` accepts**: a C string that is a numeral, with its value
saturated. -/
theorem parseInt_eq_some_iff {s : Bytes} {v : Int64} :
    parseInt s = some v ↔ ∃ n, Denotes (cStr s) n ∧ v = Int64.ofInt (saturate n) := by
  constructor
  · intro h
    have he : (strtoll s).2 ≠ 0 := by
      intro he
      simp [parseInt, he] at h
    obtain ⟨x, tail, hs, htail⟩ := exists_of_strtoll he
    have hstrtoll := strtoll_text x hs htail
    simp only [parseInt, hstrtoll] at h
    split at h
    · contradiction
    · next hend =>
      rw [not_or, Bool.not_eq_true] at hend
      have hle : x.text.length ≤ (cStr s).length := by
        rw [hs, List.length_append]
        omega
      have hlen := (trailing_eq_false_iff hle).mp hend.2
      have htail' : tail = [] := by
        rw [hs, List.length_append] at hlen
        exact List.eq_nil_of_length_eq_zero (by omega)
      rw [htail', List.append_nil] at hs
      exact ⟨x.value, ⟨x, hs.symm, rfl⟩, (Option.some.inj h).symm⟩
  · rintro ⟨n, ⟨x, hx, rfl⟩, rfl⟩
    have hs : cStr s = x.text ++ [] := by rw [hx, List.append_nil]
    have hpos : x.text.length ≠ 0 := by
      have hdigits := List.length_pos_of_ne_nil x.digits_ne
      rw [Numeral.text, List.length_append, List.length_append]
      omega
    have hend : trailing s x.text.length = false :=
      (trailing_eq_false_iff (by rw [hx])).mpr (by rw [hx])
    simp only [parseInt, strtoll_text x hs rfl]
    rw [if_neg (by simp [hpos, hend])]

/-! ## Exactness -/

theorem Denotes.cStr_eq {s : Bytes} {n : Int} (h : Denotes s n) : cStr s = s := by
  obtain ⟨x, rfl, -⟩ := h
  exact List.takeWhile_eq_self_iff.mpr fun c hc => by simpa using x.ne_zero c hc

theorem cStr_eq_self_iff {s : Bytes} : cStr s = s ↔ 0 ∉ s := by
  rw [cStr, List.takeWhile_eq_self_iff]
  constructor
  · intro h h0
    simpa using h 0 h0
  · intro h c hc
    have hne : c ≠ 0 := fun h0 => h (h0 ▸ hc)
    simpa using hne

theorem saturate_bounds (n : Int) : -2 ^ 63 ≤ saturate n ∧ saturate n ≤ 2 ^ 63 - 1 := by
  unfold saturate int64Min int64Max
  omega

theorem saturate_eq_self {n : Int} (hmin : int64Min ≤ n) (hmax : n ≤ int64Max) :
    saturate n = n := by
  unfold saturate
  omega

theorem toInt_bounds (v : Int64) : int64Min ≤ v.toInt ∧ v.toInt ≤ int64Max := by
  have hle := v.le_toInt
  have hlt := v.toInt_lt
  unfold int64Min int64Max
  omega

/-- `ParseInt` returns `v` exactly for the numerals of `v`. -/
def ReadsExactly (s : Bytes) : Prop := ∀ v : Int64, parseInt s = some v ↔ Denotes s v.toInt

/-- **Integers are read exactly**, unless a numeral is out of range or a NUL
hides what follows it. -/
theorem readsExactly_iff (s : Bytes) : ReadsExactly s ↔
    ∀ n, Denotes (cStr s) n → 0 ∉ s ∧ int64Min ≤ n ∧ n ≤ int64Max := by
  constructor
  · intro h n hn
    have hs := (h _).mp (parseInt_eq_some_iff.mpr ⟨n, hn, rfl⟩)
    have heq := hs.cStr_eq
    rw [heq] at hn
    rw [hn.unique hs]
    exact ⟨cStr_eq_self_iff.mp heq, toInt_bounds _⟩
  · intro h v
    rw [parseInt_eq_some_iff]
    constructor
    · rintro ⟨n, hn, rfl⟩
      obtain ⟨hnul, hmin, hmax⟩ := h n hn
      rw [cStr_eq_self_iff.mpr hnul] at hn
      rw [saturate_eq_self hmin hmax, Int64.toInt_ofInt_of_le (by unfold int64Min at hmin; omega)
        (by unfold int64Max at hmax; omega)]
      exact hn
    · intro hs
      have hbounds := toInt_bounds v
      refine ⟨v.toInt, hs.cStr_eq.symm ▸ hs, ?_⟩
      rw [saturate_eq_self hbounds.1 hbounds.2, Int64.ofInt_toInt]

/-- A numeral behind the largest `int64_t`, and one with a NUL behind it. -/
theorem not_readsExactly_tooLarge : ¬ ReadsExactly (ascii "9223372036854775808") ∧
    ¬ ReadsExactly (ascii "10" ++ 0 :: ascii "x") := by
  constructor
  · intro h
    have hmax := (h 9223372036854775807).mp (by decide +kernel)
    have hdigits : ∀ c ∈ ascii "9223372036854775808", isDigit c = true := by
      decide +kernel
    have hvalue : (digitsValue (ascii "9223372036854775808") : Int) = 9223372036854775808 := by
      decide +kernel
    have hexact : Denotes (ascii "9223372036854775808") 9223372036854775808 :=
      ⟨⟨[], .none, ascii "9223372036854775808", nofun, hdigits, by decide⟩, rfl, hvalue⟩
    exact absurd (hexact.unique hmax) (by decide)
  · intro h
    have hten := (h 10).mp (by decide +kernel)
    exact absurd hten.cStr_eq (by decide)

end RedisLike
