import RedisLike.Lib.Padding

/-!
# RedisLike.Lib.InputStream

`std::ifstream`, as a position in the bytes of a file with the two state bits
that reading sets.

A function on a stream is a `StreamM`.  `Yields x bytes a` is its rule: on a
good stream that stands in front of `bytes`, `x` returns `a` and leaves the
stream good behind them, whatever follows.  The rules compose along `>>=`, so a
reader is verified against the writer field by field.  `Pads` is the same for a
file that may end too early, where what is missing reads as zeros.  `Advances`
holds on any file: the stream moves on, or it has failed.
-/

namespace RedisLike

/-- `std::ifstream`. -/
structure InputStream where
  data : List UInt8
  pos : Nat := 0
  eofbit : Bool := false
  failbit : Bool := false

/-- A function that reads from a stream. -/
abbrev StreamM := StateM InputStream

namespace InputStream

/-- `is.good()`. -/
def good (is : InputStream) : Bool := !is.eofbit && !is.failbit

/-- `is.read(buf, n)`: the bytes that arrive in `buf`.  A short read sets both
bits, and a stream that is not good delivers nothing. -/
def read (n : Nat) : StreamM (List UInt8) := fun is =>
  if is.good then
    let bytes := (is.data.drop is.pos).take n
    let short : Bool := bytes.length < n
    (bytes, { is with pos := is.pos + bytes.length, eofbit := short, failbit := short })
  else ([], { is with failbit := true })

/-- `is.peek()`; `none` is `EOF`. -/
def peek : StreamM (Option UInt8) := fun is =>
  if is.good then
    match is.data[is.pos]? with
    | some b => (some b, is)
    | none => (none, { is with eofbit := true })
  else (none, { is with failbit := true })

/-- `is.seekg(-1, std::ios::cur)`, which clears `eofbit` first. -/
def stepBack : StreamM Unit := fun is =>
  if is.failbit then ((), { is with eofbit := false })
  else if is.pos = 0 then ((), { is with eofbit := false, failbit := true })
  else ((), { is with eofbit := false, pos := is.pos - 1 })

/-- `bool(is)`. -/
def ok : StreamM Bool := fun is => (!is.failbit, is)

/-- The results of `n` calls. -/
def times {α : Type} (x : StreamM α) : Nat → StreamM (List α)
  | 0 => pure []
  | n + 1 => do
    let a ← x
    let as ← times x n
    pure (a :: as)

/-! ## Streams in front of some bytes -/

/-- The stream is good and stands in front of `rest`. -/
structure Before (is : InputStream) (rest : List UInt8) : Prop where
  eofbit : is.eofbit = false
  failbit : is.failbit = false
  drop : is.data.drop is.pos = rest

theorem before_open (data : List UInt8) : Before { data := data } data := ⟨rfl, rfl, rfl⟩

theorem Before.good {is : InputStream} {rest : List UInt8} (h : is.Before rest) :
    is.good = true := by
  rw [InputStream.good, h.eofbit, h.failbit]
  rfl

/-- `x` reads exactly `bytes`, and returns `a`. -/
def Yields {α : Type} (x : StreamM α) (bytes : List UInt8) (a : α) : Prop :=
  ∀ is rest, Before is (bytes ++ rest) → (x is).1 = a ∧ (x is).2.Before rest

section rules

variable {α β : Type} {x : StreamM α} {bs bs' : List UInt8} {a : α} {b : β}

/-- What follows `x` runs on the bytes behind it. -/
theorem Yields.run_bind (hx : Yields x bs a) (f : α → StreamM β) {is : InputStream}
    {rest : List UInt8} (h : is.Before (bs ++ rest)) :
    (x is).2.Before rest ∧ (x >>= f) is = f a (x is).2 := by
  obtain ⟨hval, hrest⟩ := hx is rest h
  refine ⟨hrest, ?_⟩
  rw [← hval]
  rfl

theorem Yields.bind (hx : Yields x bs a) {f : α → StreamM β} (hf : Yields (f a) bs' b) :
    Yields (x >>= f) (bs ++ bs') b := by
  intro is rest h
  rw [List.append_assoc] at h
  obtain ⟨hrest, hrun⟩ := hx.run_bind f h
  rw [hrun]
  exact hf _ _ hrest

/-- A result computed from what was read. -/
theorem Yields.map (hx : Yields x bs a) (f : α → β) : Yields (f <$> x) bs (f a) :=
  fun is rest h => ⟨congrArg f (hx is rest h).1, (hx is rest h).2⟩

/-- The last step reads nothing. -/
theorem Yields.bind_pure (hx : Yields x bs a) (f : α → β) :
    Yields (x >>= fun a => pure (f a)) bs (f a) :=
  hx.map f

theorem yields_read (bs : List UInt8) : Yields (read bs.length) bs bs := by
  intro is rest h
  have htake : (is.data.drop is.pos).take bs.length = bs := by rw [h.drop, List.take_left]
  simp only [read, h.good, if_true, htake, lt_irrefl, decide_false, true_and]
  refine ⟨rfl, rfl, ?_⟩
  rw [← List.drop_drop, h.drop, List.drop_left]

/-- A byte that is put back after it has been read. -/
theorem stepBack_read {is : InputStream} {b : UInt8} {rest : List UInt8}
    (h : is.Before (b :: rest)) :
    (read 1 is).1 = [b] ∧ (stepBack (read 1 is).2).2 = is := by
  obtain ⟨data, pos, eofbit, failbit⟩ := is
  obtain ⟨rfl, rfl, hdrop⟩ := h
  have htake : (data.drop pos).take 1 = [b] := by rw [hdrop]; rfl
  simp only [read, good, htake]
  exact ⟨rfl, rfl⟩

theorem peek_eq {is : InputStream} {b : UInt8} {rest : List UInt8} (h : is.Before (b :: rest)) :
    peek is = (some b, is) := by
  have hget : is.data[is.pos]? = some b := by
    have := List.head?_drop (l := is.data) (i := is.pos)
    rw [← this, h.drop]
    rfl
  simp only [peek, h.good, if_true, hget]

theorem peek_eq_none {is : InputStream} (h : is.Before []) :
    peek is = (none, { is with eofbit := true }) := by
  have hget : is.data[is.pos]? = none := by
    rw [List.getElem?_eq_none_iff]
    exact List.drop_eq_nil_iff.mp h.drop
  simp only [peek, h.good, if_true, hget]

/-- What `peek` finds is in front of the stream, which stays there. -/
theorem peek_eq_of_some {is : InputStream} {b : UInt8} (h : (peek is).1 = some b) :
    peek is = (some b, is) ∧ is.pos < is.data.length := by
  by_cases hgood : is.good = true
  · cases hget : is.data[is.pos]? with
    | none => simp [peek, hgood, hget] at h
    | some b' =>
        have hrun : peek is = (some b', is) := by simp only [peek, hgood, if_true, hget]
        rw [hrun] at h
        obtain rfl := Option.some.inj h
        exact ⟨hrun, (List.getElem?_eq_some_iff.mp hget).1⟩
  · simp [peek, hgood] at h

end rules

/-! ## Files that end early -/

/-- The stream stands in front of `rest`, or has failed with nothing left. -/
def Short (is : InputStream) (rest : List UInt8) : Prop :=
  is.Before rest ∨ is.failbit = true ∧ rest = []

/-- `x` reads `bytes` and returns `a`, also from a file that ends before them, if
zeros in place of what is missing would give them. -/
def Pads {α : Type} (x : StreamM α) (bytes : List UInt8) (a : α) : Prop :=
  ∀ is rest, Short is rest → Fills bytes rest →
    (x is).1 = a ∧ Short (x is).2 (rest.drop bytes.length) ∧
      (is.Before rest → bytes.length ≤ rest.length → (x is).2.Before (rest.drop bytes.length))

/-- Reading at the end of the file fails. -/
theorem failbit_read {is : InputStream} (h : Short is []) {n : Nat} (hn : 0 < n) :
    (read n is).2.failbit = true := by
  rcases h with his | ⟨hfail, -⟩
  · have htake : (is.data.drop is.pos).take n = [] := by rw [his.drop, List.take_nil]
    simp only [read, his.good, if_true, htake, List.length_nil, hn, decide_true]
  · have hgood : is.good = false := by rw [InputStream.good, hfail, Bool.not_true, Bool.and_false]
    simp only [read, hgood, Bool.false_eq_true, if_false]

section padding

variable {α β : Type} {x : StreamM α} {bs bs' : List UInt8} {a : α} {b : β}

theorem Pads.yields (h : Pads x bs a) : Yields x bs a := by
  intro is rest his
  obtain ⟨hval, -, hbefore⟩ := h is (bs ++ rest) (.inl his)
    (fills_of_isPrefix (List.prefix_append bs rest))
  have hrest := hbefore his (by simp)
  rw [List.drop_left] at hrest
  exact ⟨hval, hrest⟩

/-- What is read determines the result. -/
theorem Pads.unique {a' : α} {rest : List UInt8} (h : Pads x bs a) (h' : Pads x bs' a')
    (hfill : Fills bs rest) (hfill' : Fills bs' rest) : a = a' := by
  have hopen : Short { data := rest } rest := .inl (before_open rest)
  exact (h _ rest hopen hfill).1.symm.trans (h' _ rest hopen hfill').1

/-- No two results are read from the start of each other's bytes. -/
theorem prefixFree_of_pads {write : α → List UInt8} {ok : α → Prop}
    (h : ∀ a, ok a → Pads x (write a) a) : PrefixFree write ok :=
  fun a b _ ha hb hfill hfill' => (h a ha).unique (h b hb) hfill hfill'

/-- How much is read is determined too, if it is there. -/
theorem Pads.length_eq {a' : α} {rest : List UInt8} (h : Pads x bs a) (h' : Pads x bs' a')
    (hpre : bs <+: rest) (hpre' : bs' <+: rest) : bs.length = bs'.length := by
  have hopen : Before { data := rest } rest := before_open rest
  have hdrop := ((h _ rest (.inl hopen) (fills_of_isPrefix hpre)).2.2 hopen hpre.length_le).drop
  have hdrop' := ((h' _ rest (.inl hopen) (fills_of_isPrefix hpre')).2.2 hopen hpre'.length_le).drop
  have hlen := congrArg List.length (hdrop.symm.trans hdrop')
  rw [List.length_drop, List.length_drop] at hlen
  have hle := hpre.length_le
  have hle' := hpre'.length_le
  omega

theorem pads_pure (a : α) : Pads (pure a : StreamM α) [] a :=
  fun _ _ h _ => ⟨rfl, h, fun hbefore _ => hbefore⟩

theorem Pads.bind (hx : Pads x bs a) {f : α → StreamM β} (hf : Pads (f a) bs' b) :
    Pads (x >>= f) (bs ++ bs') b := by
  intro is rest h hfill
  obtain ⟨hleft, hright⟩ := fills_append.mp hfill
  obtain ⟨hval, hshort, hbefore⟩ := hx is rest h hleft
  have hrun : (x >>= f) is = f a (x is).2 := by
    rw [← hval]
    rfl
  obtain ⟨hval', hshort', hbefore'⟩ := hf _ _ hshort hright
  rw [hrun, List.length_append, ← List.drop_drop]
  refine ⟨hval', hshort', fun his hle => hbefore' (hbefore his (by omega)) ?_⟩
  rw [List.length_drop]
  omega

theorem Pads.map (hx : Pads x bs a) (f : α → β) : Pads (f <$> x) bs (f a) :=
  fun is rest h hfill =>
    ⟨congrArg f (hx is rest h hfill).1, (hx is rest h hfill).2.1, (hx is rest h hfill).2.2⟩

theorem Pads.bind_pure (hx : Pads x bs a) (f : α → β) :
    Pads (x >>= fun a => pure (f a)) bs (f a) :=
  hx.map f

/-- A field of `n` bytes, whose value does not tell missing bytes from zeros. -/
theorem pads_read {n : Nat} {f : List UInt8 → α}
    (hf : ∀ s k, s.length + k = n → f (s ++ List.replicate k 0) = f s) (hlen : bs.length = n) :
    Pads (f <$> read n) bs (f bs) := by
  intro is rest h hfill
  subst hlen
  have hrun : ∀ is : InputStream, (f <$> read bs.length) is =
      (f (read bs.length is).1, (read bs.length is).2) := fun _ => rfl
  rw [hrun]
  rcases h with his | ⟨hfail, rfl⟩
  · by_cases hle : bs.length ≤ rest.length
    · -- all of it is there
      obtain ⟨t, ht⟩ := hfill.prefix_of_le hle
      have his' := his
      rw [← ht] at his'
      obtain ⟨hval, hrest⟩ := yields_read bs is t his'
      have hdrop : rest.drop bs.length = t := by rw [← ht, List.drop_left]
      rw [hdrop]
      exact ⟨congrArg f hval, .inl hrest, fun _ _ => hrest⟩
    · -- the file ends inside it
      have htake : (is.data.drop is.pos).take bs.length = rest := by
        rw [his.drop, List.take_of_length_le (by omega)]
      have hbs : bs = rest ++ List.replicate (bs.length - rest.length) 0 := by
        have hpad := pad_of_length_le (show rest.length ≤ bs.length by omega)
        rw [hfill] at hpad
        exact hpad
      have hval : f rest = f bs := by
        conv_rhs => rw [hbs]
        exact (hf rest _ (by omega)).symm
      have hshort : decide (rest.length < bs.length) = true := by simpa using hle
      simp only [read, his.good, if_true, htake, hshort]
      exact ⟨hval, .inr ⟨rfl, List.drop_eq_nil_of_le (by omega)⟩, fun _ hle' => absurd hle' hle⟩
  · have hgood : is.good = false := by rw [InputStream.good, hfail, Bool.not_true, Bool.and_false]
    have hval : f [] = f bs := by
      rw [fills_nil_iff.mp hfill]
      exact (hf [] bs.length (by simp)).symm
    simp only [read, hgood, Bool.false_eq_true, if_false]
    refine ⟨hval, .inr ⟨rfl, List.drop_nil⟩, fun his => ?_⟩
    rw [his.failbit] at hfail
    cases hfail

theorem pads_times {x : StreamM α} {write : α → List UInt8} {as : List α}
    (hx : ∀ a ∈ as, Pads x (write a) a) : Pads (times x as.length) (as.map write).flatten as := by
  induction as with
  | nil => exact pads_pure []
  | cons a as ih =>
      rw [List.map_cons, List.flatten_cons]
      exact (hx a List.mem_cons_self).bind
        ((ih fun b hb => hx b (List.mem_cons_of_mem a hb)).bind_pure (a :: ·))

end padding

/-! ## Moving on -/

/-- From `is` to `is'` the stream has moved on by `k` bytes at least, or it has
failed; a failed stream stays so. -/
structure MovesOn (k : Nat) (is is' : InputStream) : Prop where
  data : is'.data = is.data
  inside : is.pos ≤ is.data.length → is'.pos ≤ is'.data.length
  forward : is'.failbit = true ∨ is.failbit = false ∧ is.pos + k ≤ is'.pos

theorem movesOn_refl (is : InputStream) : MovesOn 0 is is := by
  refine ⟨rfl, id, ?_⟩
  cases hfail : is.failbit with
  | true => exact .inl rfl
  | false => exact .inr ⟨rfl, le_rfl⟩

theorem MovesOn.trans {j k : Nat} {is is' is'' : InputStream} (h : MovesOn j is is')
    (h' : MovesOn k is' is'') : MovesOn (j + k) is is'' := by
  refine ⟨h'.data.trans h.data, fun hpos => h'.inside (h.inside hpos), ?_⟩
  rcases h'.forward with hfail | ⟨hok, hle'⟩
  · exact .inl hfail
  · rcases h.forward with hfail | ⟨hok', hle⟩
    · rw [hfail] at hok
      contradiction
    · exact .inr ⟨hok', by omega⟩

theorem MovesOn.mono {j k : Nat} {is is' : InputStream} (h : MovesOn k is is') (hjk : j ≤ k) :
    MovesOn j is is' :=
  ⟨h.data, h.inside, h.forward.imp_right fun hf => ⟨hf.1, by omega⟩⟩

/-- One of the bytes is put back. -/
theorem MovesOn.stepBack {k : Nat} {is is' : InputStream} (h : MovesOn (k + 1) is is') :
    MovesOn k is (stepBack is').2 := by
  unfold InputStream.stepBack
  by_cases hfail : is'.failbit = true
  · rw [if_pos hfail]
    exact ⟨h.data, h.inside, .inl hfail⟩
  · obtain ⟨hok, hle⟩ := h.forward.resolve_left hfail
    rw [if_neg hfail, if_neg (by omega)]
    refine ⟨h.data, fun hpos => ?_, .inr ⟨hok, ?_⟩⟩
    · exact (Nat.sub_le _ _).trans (h.inside hpos)
    · show is.pos + k ≤ is'.pos - 1
      omega

/-- `x` moves on by `k` bytes at least, or fails. -/
def Advances {α : Type} (x : StreamM α) (k : Nat) : Prop := ∀ is, MovesOn k is (x is).2

section advances

variable {α β : Type} {x : StreamM α} {j k : Nat}

theorem Advances.bind (hx : Advances x j) {f : α → StreamM β} (hf : ∀ a, Advances (f a) k) :
    Advances (x >>= f) (j + k) :=
  fun is => (hx is).trans (hf _ _)

theorem Advances.map (hx : Advances x k) (f : α → β) : Advances (f <$> x) k := hx

theorem Advances.mono (hx : Advances x k) (hjk : j ≤ k) : Advances x j := fun is => (hx is).mono hjk

theorem advances_pure (a : α) : Advances (pure a : StreamM α) 0 := movesOn_refl

theorem Advances.bind_pure (hx : Advances x k) (f : α → β) :
    Advances (x >>= fun a => pure (f a)) k := hx.map f

theorem advances_read (n : Nat) : Advances (read n) n := by
  intro is
  unfold read
  by_cases hgood : is.good = true
  · have hok : is.failbit = false := by
      rw [good, Bool.and_eq_true] at hgood
      simpa using hgood.2
    rw [if_pos hgood]
    refine ⟨rfl, fun hpos => ?_, ?_⟩
    · simp only [List.length_take, List.length_drop]
      omega
    · by_cases hshort : ((is.data.drop is.pos).take n).length < n
      · exact .inl (decide_eq_true hshort)
      · exact .inr ⟨hok, Nat.add_le_add_left (Nat.not_lt.mp hshort) _⟩
  · rw [if_neg hgood]
    exact ⟨rfl, id, .inl rfl⟩

theorem advances_times (hx : Advances x k) (n : Nat) : Advances (times x n) 0 := by
  induction n with
  | zero => exact advances_pure []
  | succ n ih =>
      exact (hx.mono (Nat.zero_le k)).bind fun a => ih.bind_pure (a :: ·)

/-- A reader that has moved on lands behind what it has read. -/
theorem Yields.eq_of_advances {bs rest : List UInt8} {a : α} (hx : Yields x bs a)
    (hadv : Advances x k) {is : InputStream} (h : is.Before (bs ++ rest))
    (hpos : is.pos ≤ is.data.length) : x is = (a, { is with pos := is.pos + bs.length }) := by
  obtain ⟨hval, hrest⟩ := hx is rest h
  have hmoves := hadv is
  have hlen := congrArg List.length h.drop
  have hlen' := congrArg List.length hrest.drop
  have hinside := hmoves.inside hpos
  rw [List.length_drop, List.length_append] at hlen
  rw [List.length_drop, hmoves.data] at hlen'
  rw [hmoves.data] at hinside
  refine Prod.ext hval ?_
  have hpos' : (x is).2.pos = is.pos + bs.length := by omega
  have heof := hrest.eofbit.trans h.eofbit.symm
  have hfail := hrest.failbit.trans h.failbit.symm
  have hdata := hmoves.data
  generalize (x is).2 = is' at hpos' heof hfail hdata
  obtain ⟨data, pos, eofbit, failbit⟩ := is'
  dsimp only at hpos' heof hfail hdata
  rw [hpos', heof, hfail, hdata]

end advances

end InputStream

end RedisLike
