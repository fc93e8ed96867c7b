import RedisLike.Resp.RoundTrip

/-!
# RedisLike.Resp.Reply

The replies as a client reads them: RESP values, a reader of one value from
the front of a stream, and which of the codec's replies are one value
(`oneValue_error_iff` for the one whose text a client chooses).
-/

namespace RedisLike

/-- A RESP value; `bulk none` is the null bulk string. -/
inductive RespValue where
  | simple (s : Bytes)
  | error (msg : Bytes)
  | integer (n : Int)
  | bulk (s : Option Bytes)
  | array (items : List RespValue)

namespace RespValue

/-! ## The reader -/

/-- A line of digits, as a number. -/
def natural (line : Bytes) : Option Nat :=
  if line ≠ [] ∧ line.all isDigit then some (digitsValue line) else none

/-- A decimal number with an optional minus. -/
def number : Bytes → Option Int
  | 45 :: ds => (natural ds).map fun n : Nat => -(n : Int)
  | ds => (natural ds).map fun n : Nat => (n : Int)

/-- The payload of a bulk string: `n` bytes with a line end behind them. -/
def payload (n : Nat) (s : Bytes) : Option (Bytes × Bytes) :=
  if (s.drop n).take 2 = crlf then some (s.take n, s.drop (n + 2)) else none

/-- `n` values, one after another. -/
def readItems (read : Bytes → Option (RespValue × Bytes)) :
    Nat → Bytes → Option (List RespValue × Bytes)
  | 0, s => some ([], s)
  | n + 1, s =>
    match read s with
    | none => none
    | some (v, s) => (readItems read n s).map fun (vs, s) => (v :: vs, s)

/-- The value at the front of a stream and what follows it, where arrays nest
less than `depth` deep. -/
def read : Nat → Bytes → Option (RespValue × Bytes)
  | 0, _ => none
  | _, [] => none
  | depth + 1, mark :: s =>
    match splitLine s with
    | none => none
    | some (line, rest) =>
      if mark = 43 then some (simple line, rest)
      else if mark = 45 then some (error line, rest)
      else if mark = 58 then (number line).map fun n => (integer n, rest)
      else if mark = dollar then
        match number line with
        | none => none
        | some n =>
          if n = -1 then some (bulk none, rest)
          else if n < 0 then none
          else (payload n.toNat rest).map fun (s, rest) => (bulk (some s), rest)
      else if mark = star then
        match number line with
        | none => none
        | some n =>
          if n < 0 then none
          else (readItems (read depth) n.toNat rest).map fun (vs, rest) => (array vs, rest)
      else none

end RespValue

/-- The bytes are one complete value, with nothing behind it. -/
def OneValue (s : Bytes) : Prop := ∃ depth v, RespValue.read depth s = some (v, [])

/-- The bytes are one value, whatever follows them. -/
def ReadsValue (depth : Nat) (s : Bytes) : Prop :=
  ∃ v, ∀ rest, RespValue.read depth (s ++ rest) = some (v, rest)

theorem ReadsValue.oneValue {depth : Nat} {s : Bytes} (h : ReadsValue depth s) : OneValue s := by
  obtain ⟨v, hv⟩ := h
  refine ⟨depth, v, ?_⟩
  have hnil := hv []
  rwa [List.append_nil] at hnil

/-! ## Lines -/

/-- The line of a text ends at the line end behind it exactly if there is none
inside. -/
theorem splitLine_append_crlf_iff (s : Bytes) :
    (∃ line, splitLine (s ++ crlf) = some (line, [])) ↔ ¬ crlf <:+: s := by
  constructor
  · rintro ⟨line, h⟩ ⟨a, b, rfl⟩
    obtain ⟨⟨l, r⟩, hfirst⟩ := Option.isSome_iff_exists.mp (isSome_splitLine_append_crlf a)
    have hall := splitLine_append (b ++ crlf) hfirst
    rw [← List.append_assoc, h] at hall
    have hrest := congrArg Prod.snd (Option.some.inj hall)
    simp [crlf] at hrest
  · intro h
    have hline := splitLine_of_not_infix h []
    rw [List.append_nil] at hline
    exact ⟨s, hline⟩

/-! ## Numbers -/

theorem natural_toDecimal (n : Nat) : RespValue.natural (toDecimal n) = some n := by
  have hall : (toDecimal n).all isDigit = true :=
    List.all_eq_true.mpr fun _ hc => isDigit_of_mem_toDecimal hc
  rw [RespValue.natural, if_pos ⟨toDecimal_ne_nil n, hall⟩, digitsValue_toDecimal]

theorem number_toDecimal (n : Nat) : RespValue.number (toDecimal n) = some (n : Int) := by
  have hnat := natural_toDecimal n
  cases hd : toDecimal n with
  | nil => exact absurd hd (toDecimal_ne_nil n)
  | cons c ds =>
      have hc : isDigit c = true := isDigit_of_mem_toDecimal (hd ▸ List.mem_cons_self)
      have hminus : c ≠ 45 := (ne_of_isDigit hc).2.2.1
      rw [hd] at hnat
      rw [RespValue.number, hnat]
      · rfl
      · rintro ds' ⟨⟩
        exact hminus rfl

theorem number_intToDecimal (n : Int) : RespValue.number (intToDecimal n) = some n := by
  rw [intToDecimal]
  split
  · rw [RespValue.number, natural_toDecimal, Option.map_some]
    congr 1
    omega
  · rw [number_toDecimal]
    congr 1
    omega

theorem cr_notMem_intToDecimal (n : Int) : cr ∉ intToDecimal n := by
  rw [intToDecimal]
  split
  · rw [List.mem_cons, not_or]
    exact ⟨by decide, cr_notMem_toDecimal _⟩
  · exact cr_notMem_toDecimal _

/-! ## The serializers -/

theorem readsValue_simpleString {s : Bytes} (h : cr ∉ s) (depth : Nat) :
    ReadsValue (depth + 1) (RespCodec.simpleString s) := by
  refine ⟨.simple s, fun rest => ?_⟩
  have hmark : RespCodec.simpleString s ++ rest = 43 :: (s ++ crlf ++ rest) := rfl
  rw [hmark, RespValue.read, splitLine_of_notMem h]
  rfl

theorem readsValue_error_of_not_infix {msg : Bytes} (h : ¬ crlf <:+: msg) (depth : Nat) :
    ReadsValue (depth + 1) (RespCodec.error msg) := by
  refine ⟨.error msg, fun rest => ?_⟩
  have hmark : RespCodec.error msg ++ rest = 45 :: (msg ++ crlf ++ rest) := rfl
  rw [hmark, RespValue.read, splitLine_of_not_infix h]
  rfl

theorem readsValue_error {msg : Bytes} (h : cr ∉ msg) (depth : Nat) :
    ReadsValue (depth + 1) (RespCodec.error msg) :=
  readsValue_error_of_not_infix (fun hin => h (hin.subset (by simp [crlf]))) depth

theorem readsValue_integer (n : Int) (depth : Nat) :
    ReadsValue (depth + 1) (RespCodec.integer n) := by
  refine ⟨.integer n, fun rest => ?_⟩
  have hmark : RespCodec.integer n ++ rest = 58 :: (intToDecimal n ++ crlf ++ rest) := rfl
  rw [hmark, RespValue.read, splitLine_of_notMem (cr_notMem_intToDecimal n)]
  simp [number_intToDecimal]

/-- A payload may have any bytes, line ends too. -/
theorem payload_append (s rest : Bytes) :
    RespValue.payload s.length (s ++ crlf ++ rest) = some (s, rest) := by
  rw [RespValue.payload, if_pos (by simp [crlf])]
  simp [crlf]

theorem read_bulkString (s : Bytes) (depth : Nat) (rest : Bytes) :
    RespValue.read (depth + 1) (RespCodec.bulkString s ++ rest) = some (.bulk (some s), rest) := by
  have hmark : RespCodec.bulkString s ++ rest =
      dollar :: (toDecimal s.length ++ crlf ++ (s ++ crlf ++ rest)) := by
    simp [bulkString_eq]
  rw [hmark, RespValue.read, splitLine_toDecimal]
  have hone : (s.length : Int) ≠ -1 := by omega
  simp only [number_toDecimal, Int.toNat_natCast, payload_append]
  simp [dollar, hone]

theorem readsValue_bulkString (s : Bytes) (depth : Nat) :
    ReadsValue (depth + 1) (RespCodec.bulkString s) := ⟨_, read_bulkString s depth⟩

theorem readsValue_nullBulkString (depth : Nat) : ReadsValue (depth + 1) RespCodec.nullBulkString := by
  refine ⟨.bulk none, fun rest => ?_⟩
  have hmark : RespCodec.nullBulkString ++ rest = dollar :: (ascii "-1" ++ crlf ++ rest) := rfl
  have hnumber : RespValue.number (ascii "-1") = some (-1) := by decide +kernel
  rw [hmark, RespValue.read, splitLine_of_notMem (by decide +kernel)]
  simp [hnumber, dollar]

/-- Values one after another are read back, each from its own bytes. -/
theorem readItems_flatten {read : Bytes → Option (RespValue × Bytes)} {items : List Bytes}
    (h : ∀ item ∈ items, ∃ v, ∀ rest, read (item ++ rest) = some (v, rest)) :
    ∃ vs, List.Forall₂ (fun v item => ∀ rest, read (item ++ rest) = some (v, rest)) vs items ∧
      ∀ rest, RespValue.readItems read items.length (items.flatten ++ rest) = some (vs, rest) := by
  induction items with
  | nil => exact ⟨[], .nil, fun _ => rfl⟩
  | cons item items ih =>
      obtain ⟨v, hv⟩ := h item List.mem_cons_self
      obtain ⟨vs, hread, hvs⟩ := ih fun item hmem => h item (List.mem_cons_of_mem _ hmem)
      refine ⟨v :: vs, .cons hv hread, fun rest => ?_⟩
      rw [List.flatten_cons, List.append_assoc, List.length_cons, RespValue.readItems, hv]
      simp [hvs]

theorem read_array {items : List Bytes} {depth : Nat} {vs : List RespValue} (rest : Bytes)
    (h : RespValue.readItems (RespValue.read depth) items.length (items.flatten ++ rest) =
      some (vs, rest)) :
    RespValue.read (depth + 1) (RespCodec.array items ++ rest) = some (.array vs, rest) := by
  have hmark : RespCodec.array items ++ rest =
      star :: (toDecimal items.length ++ crlf ++ (items.flatten ++ rest)) := by
    have hstar : ascii "*" = [star] := by decide
    simp [RespCodec.array, hstar]
  rw [hmark, RespValue.read, splitLine_toDecimal]
  simp [number_toDecimal, h, star, dollar]

/-- An array has as many values behind it as its header announces. -/
theorem readsValue_array {items : List Bytes} {depth : Nat} (h : ∀ item ∈ items, ReadsValue depth item) :
    ReadsValue (depth + 1) (RespCodec.array items) := by
  obtain ⟨vs, -, hvs⟩ := readItems_flatten h
  exact ⟨.array vs, fun rest => read_array rest (hvs rest)⟩

/-- An array of bulk strings is read back as the strings. -/
theorem read_array_bulkStrings (items : List Bytes) (depth : Nat) (rest : Bytes) :
    RespValue.read (depth + 2) (RespCodec.array (items.map RespCodec.bulkString) ++ rest) =
      some (.array (items.map fun s => .bulk (some s)), rest) := by
  refine read_array rest ?_
  induction items with
  | nil => rfl
  | cons s items ih =>
      rw [List.map_cons, List.flatten_cons, List.append_assoc, List.length_cons,
        RespValue.readItems, read_bulkString]
      rw [List.length_map] at ih ⊢
      simp [ih]

theorem read_bulkStrings (items : List Bytes) (depth : Nat) :
    RespValue.read (depth + 2) (RespCodec.array (items.map RespCodec.bulkString)) =
      some (.array (items.map fun s => .bulk (some s)), []) := by
  simpa only [List.append_nil] using read_array_bulkStrings items depth []

theorem bulks_injective :
    Function.Injective fun items : List Bytes =>
      RespValue.array (items.map fun s => .bulk (some s)) := by
  intro a b h
  refine List.map_injective_iff.mpr (fun s s' hs => ?_) (RespValue.array.inj h)
  simpa using hs

/-- Arrays of different strings are different. -/
theorem array_bulkStrings_injective :
    Function.Injective fun items : List Bytes => RespCodec.array (items.map RespCodec.bulkString) := by
  intro a b h
  have hread := read_bulkStrings a 0
  rw [show RespCodec.array (a.map RespCodec.bulkString) = _ from h, read_bulkStrings] at hread
  exact (bulks_injective (congrArg Prod.fst (Option.some.inj hread))).symm

/-- **One error**: the text has no line end in it. -/
theorem oneValue_error_iff (msg : Bytes) : OneValue (RespCodec.error msg) ↔ ¬ crlf <:+: msg := by
  rw [← splitLine_append_crlf_iff]
  have hmark : RespCodec.error msg = 45 :: (msg ++ crlf) := rfl
  constructor
  · rintro ⟨depth, v, hread⟩
    cases depth with
    | zero => exact absurd hread nofun
    | succ depth =>
        rw [hmark, RespValue.read] at hread
        cases hline : splitLine (msg ++ crlf) with
        | none => simp [hline] at hread
        | some r =>
            obtain ⟨line, rest⟩ := r
            simp [hline] at hread
            exact ⟨line, by rw [hread.2]⟩
  · rintro ⟨line, hline⟩
    refine ⟨1, .error line, ?_⟩
    rw [hmark, RespValue.read, hline]
    rfl

end RedisLike
