import Mathlib

/-!
# RedisLike.Lib.Scanner

Scanners over a growing buffer.

A scanner looks at the front of a buffer.  It either waits for more input or
consumes some elements, possibly emitting an output, and what it does with a
buffer it does with every extension of it.  That is all that is needed for the
output to be independent of how the input is cut into chunks
(`Scanner.feedAll_eq`).  `trace` records where each output started.
-/

namespace RedisLike

variable {α β : Type*}

/-- A scanner: `step` waits (`none`), or says what it emits and how many
elements it consumes. -/
structure Scanner (α β : Type*) where
  step : List α → Option (Option β × Nat)
  /-- A step consumes at least one element of the buffer, and no more than there are. -/
  consumes : ∀ {s o n}, step s = some (o, n) → 0 < n ∧ n ≤ s.length
  /-- A step does not depend on what follows in the buffer. -/
  stable : ∀ {s o n} (t), step s = some (o, n) → step (s ++ t) = some (o, n)

namespace Scanner

variable (sc : Scanner α β)

/-! ## Traces -/

/-- `trace` with a bound on the number of steps. -/
def traceFuel : Nat → Nat → List α → List (Nat × β) × List α
  | 0, _, s => ([], s)
  | fuel + 1, off, s =>
    match sc.step s with
    | none => ([], s)
    | some (o, n) =>
      let r := traceFuel fuel (off + n) (s.drop n)
      (o.toList.map (off, ·) ++ r.1, r.2)

/-- The outputs emitted on a buffer that starts at offset `off`, each with the
offset of the step that emitted it, and the elements left to wait. -/
def trace (off : Nat) (s : List α) : List (Nat × β) × List α := sc.traceFuel s.length off s

theorem traceFuel_eq {fuel : Nat} {s : List α} (off : Nat) (hfuel : s.length ≤ fuel) :
    sc.traceFuel fuel off s = sc.trace off s := by
  unfold trace
  induction h : s.length using Nat.strongRecOn generalizing s off fuel with
  | _ k ih =>
      subst h
      cases hs : sc.step s with
      | none =>
          cases fuel <;> cases hl : s.length <;> simp [traceFuel, hs]
      | some r =>
          obtain ⟨o, n⟩ := r
          obtain ⟨hpos, hle⟩ := sc.consumes hs
          obtain ⟨fuel, rfl⟩ : ∃ f, fuel = f + 1 := ⟨fuel - 1, by omega⟩
          obtain ⟨k, hk⟩ : ∃ k, s.length = k + 1 := ⟨s.length - 1, by omega⟩
          have hdrop : (s.drop n).length = s.length - n := List.length_drop
          rw [hk, traceFuel, traceFuel, hs]
          simp only
          have hih := fun f hf => @ih (s.drop n).length (by omega) f (s.drop n) (off + n) hf rfl
          rw [hih fuel (by omega), hih k (by omega)]

theorem trace_of_none {off : Nat} {s : List α} (h : sc.step s = none) :
    sc.trace off s = ([], s) := by
  unfold trace
  cases s.length <;> simp [traceFuel, h]

theorem trace_of_some {off n : Nat} {s : List α} {o : Option β} (h : sc.step s = some (o, n)) :
    sc.trace off s = (o.toList.map (off, ·) ++ (sc.trace (off + n) (s.drop n)).1,
      (sc.trace (off + n) (s.drop n)).2) := by
  obtain ⟨hpos, hle⟩ := sc.consumes h
  obtain ⟨k, hk⟩ : ∃ k, s.length = k + 1 := ⟨s.length - 1, by omega⟩
  rw [trace, hk, traceFuel, h]
  simp only
  rw [traceFuel_eq]
  rw [List.length_drop]
  omega

/-- The scanner stops where it can take no further step. -/
theorem step_trace_snd (off : Nat) (s : List α) : sc.step (sc.trace off s).2 = none := by
  induction h : s.length using Nat.strongRecOn generalizing s off with
  | _ k ih =>
      subst h
      cases hs : sc.step s with
      | none => rw [sc.trace_of_none hs]; exact hs
      | some r =>
          obtain ⟨o, n⟩ := r
          obtain ⟨hpos, hle⟩ := sc.consumes hs
          rw [sc.trace_of_some hs]
          exact ih (s.drop n).length (by rw [List.length_drop]; omega) (off + n) (s.drop n) rfl

/-- Outputs are emitted from the offset of the buffer on. -/
theorem le_of_mem_trace {off i : Nat} {b : β} {s : List α} (h : (i, b) ∈ (sc.trace off s).1) :
    off ≤ i := by
  induction hk : s.length using Nat.strongRecOn generalizing s off with
  | _ k ih =>
      subst hk
      cases hs : sc.step s with
      | none => rw [sc.trace_of_none hs] at h; simp at h
      | some r =>
          obtain ⟨o, n⟩ := r
          obtain ⟨hpos, hle⟩ := sc.consumes hs
          rw [sc.trace_of_some hs] at h
          rcases List.mem_append.mp h with h | h
          · obtain ⟨b', -, hb⟩ := List.mem_map.mp h
            cases hb
            exact le_refl _
          · have := ih (s.drop n).length (by rw [List.length_drop]; omega) h rfl
            omega

/-- **Cutting the input**: scanning `s ++ t` is scanning `s`, then what was
left of it followed by `t`. -/
theorem trace_append (off : Nat) (s t : List α) :
    sc.trace off (s ++ t) =
      ((sc.trace off s).1 ++
        (sc.trace (off + (s.length - (sc.trace off s).2.length)) ((sc.trace off s).2 ++ t)).1,
        (sc.trace (off + (s.length - (sc.trace off s).2.length)) ((sc.trace off s).2 ++ t)).2) ∧
      (sc.trace off s).2.length ≤ s.length := by
  induction h : s.length using Nat.strongRecOn generalizing s off with
  | _ k ih =>
      subst h
      cases hs : sc.step s with
      | none => rw [sc.trace_of_none hs]; simp
      | some r =>
          obtain ⟨o, n⟩ := r
          obtain ⟨hpos, hle⟩ := sc.consumes hs
          have hlen : (s.drop n).length = s.length - n := List.length_drop
          obtain ⟨ih₁, ih₂⟩ := ih (s.drop n).length (by omega) (off + n) (s.drop n) rfl
          rw [sc.trace_of_some hs, sc.trace_of_some (sc.stable t hs),
            List.drop_append_of_le_length hle, ih₁]
          have hoff : off + n + ((s.drop n).length - (sc.trace (off + n) (s.drop n)).2.length) =
              off + (s.length - (sc.trace (off + n) (s.drop n)).2.length) := by omega
          rw [hoff]
          exact ⟨by simp, by simp only; omega⟩

/-! ## Outputs -/

/-- The outputs on a buffer, and the elements left to wait. -/
def run (s : List α) : List β × List α :=
  ((sc.trace 0 s).1.map Prod.snd, (sc.trace 0 s).2)

/-- The outputs do not depend on the offset. -/
theorem trace_eq_run (off : Nat) (s : List α) :
    ((sc.trace off s).1.map Prod.snd, (sc.trace off s).2) = sc.run s := by
  unfold run
  induction h : s.length using Nat.strongRecOn generalizing s off with
  | _ k ih =>
      subst h
      cases hs : sc.step s with
      | none => rw [sc.trace_of_none hs, sc.trace_of_none hs]
      | some r =>
          obtain ⟨o, n⟩ := r
          obtain ⟨hpos, hle⟩ := sc.consumes hs
          have hlen : (s.drop n).length < s.length := by rw [List.length_drop]; omega
          have h1 := ih _ hlen (off + n) (s.drop n) rfl
          have h2 := ih _ hlen (0 + n) (s.drop n) rfl
          rw [Prod.mk.injEq] at h1 h2
          rw [sc.trace_of_some hs, sc.trace_of_some hs]
          simp only [List.map_append, List.map_map, h1.1, h1.2, h2.1, h2.2]
          rfl

theorem run_of_none {s : List α} (h : sc.step s = none) : sc.run s = ([], s) := by
  rw [run, sc.trace_of_none h]
  rfl

theorem run_of_some {n : Nat} {s : List α} {o : Option β} (h : sc.step s = some (o, n)) :
    sc.run s = (o.toList ++ (sc.run (s.drop n)).1, (sc.run (s.drop n)).2) := by
  rw [← sc.trace_eq_run (0 + n) (s.drop n), run, sc.trace_of_some h]
  simp

theorem run_append (s t : List α) :
    sc.run (s ++ t) = ((sc.run s).1 ++ (sc.run ((sc.run s).2 ++ t)).1,
      (sc.run ((sc.run s).2 ++ t)).2) := by
  have h := (sc.trace_append 0 s t).1
  have hr := sc.trace_eq_run (0 + (s.length - (sc.trace 0 s).2.length)) ((sc.trace 0 s).2 ++ t)
  have hrun : (sc.run s).2 = (sc.trace 0 s).2 := rfl
  rw [hrun, ← hr, run, h, List.map_append, run]

/-! ## Rounds -/

/-- The scanner comes to `r`, what is left of `s` behind some rounds. -/
inductive Reaches (sc : Scanner α β) : List α → List α → Prop
  | refl (s : List α) : Reaches sc s s
  | step {s r : List α} {o : Option β} {n : Nat} (h : sc.step s = some (o, n))
      (hr : Reaches sc (s.drop n) r) : Reaches sc s r

/-- The scanner comes to where it stops. -/
theorem reaches_run (s : List α) : sc.Reaches s (sc.run s).2 := by
  induction h : s.length using Nat.strongRecOn generalizing s with
  | _ k ih =>
      subst h
      cases hs : sc.step s with
      | none =>
          rw [sc.run_of_none hs]
          exact .refl s
      | some r =>
          obtain ⟨o, n⟩ := r
          obtain ⟨hpos, hle⟩ := sc.consumes hs
          rw [sc.run_of_some hs]
          exact .step hs (ih (s.drop n).length (by simp; omega) (s.drop n) rfl)

variable {sc}

/-- The scanner comes to no other place where it stops. -/
theorem Reaches.eq_run {s r : List α} (h : sc.Reaches s r) (hstop : sc.step r = none) :
    (sc.run s).2 = r := by
  induction h with
  | refl s => rw [sc.run_of_none hstop]
  | step hs hr ih => rw [sc.run_of_some hs, ih hstop]

/-- What the scanner comes to is the end of the buffer. -/
theorem Reaches.eq_drop {s r : List α} (h : sc.Reaches s r) : r = s.drop (s.length - r.length) := by
  induction h with
  | refl s => simp
  | @step s r o n hs hr ih =>
      have hlen := congrArg List.length ih
      obtain ⟨hpos, hle⟩ := sc.consumes hs
      rw [List.drop_drop, List.length_drop] at ih
      rw [List.length_drop, List.length_drop] at hlen
      have hsum : n + (s.length - n - r.length) = s.length - r.length := by omega
      rwa [hsum] at ih

/-- Every output is emitted by a round that the scanner comes to. -/
theorem reaches_of_mem_trace {off i : Nat} {b : β} {s : List α}
    (h : (i, b) ∈ (sc.trace off s).1) :
    ∃ r n, sc.Reaches s r ∧ sc.step r = some (some b, n) ∧ i + r.length = off + s.length := by
  induction hk : s.length using Nat.strongRecOn generalizing s off with
  | _ k ih =>
      subst hk
      cases hs : sc.step s with
      | none =>
          rw [sc.trace_of_none hs] at h
          simp at h
      | some r =>
          obtain ⟨o, n⟩ := r
          obtain ⟨hpos, hle⟩ := sc.consumes hs
          rw [sc.trace_of_some hs, List.mem_append] at h
          rcases h with h | h
          · obtain ⟨b', hb', he⟩ := List.mem_map.mp h
            obtain rfl := Option.mem_toList.mp hb'
            cases he
            exact ⟨s, n, .refl s, hs, rfl⟩
          · obtain ⟨r, m, hr, hstep, hlen⟩ := ih (s.drop n).length (by simp; omega) h rfl
            rw [List.length_drop] at hlen
            exact ⟨r, m, .step hs hr, hstep, by omega⟩

/-- Every round that the scanner comes to emits its output. -/
theorem Reaches.mem_trace {off n : Nat} {b : β} {s r : List α} (h : sc.Reaches s r)
    (hstep : sc.step r = some (some b, n)) :
    (off + (s.length - r.length), b) ∈ (sc.trace off s).1 := by
  induction h generalizing off with
  | refl s =>
      rw [sc.trace_of_some hstep]
      simp
  | @step s r o m hs hr ih =>
      have hlen := congrArg List.length hr.eq_drop
      obtain ⟨hpos, hle⟩ := sc.consumes hs
      rw [List.length_drop, List.length_drop] at hlen
      have hmem := @ih (off + m) hstep
      have hoff : off + m + ((s.drop m).length - r.length) = off + (s.length - r.length) := by
        rw [List.length_drop]
        omega
      rw [hoff] at hmem
      rw [sc.trace_of_some hs]
      exact List.mem_append_right _ hmem

variable (sc)

/-! ## Chunks -/

/-- Feeding chunks one after another, to a scanner that has `rest` left. -/
def feedAll : List α → List (List α) → List β × List α
  | rest, [] => ([], rest)
  | rest, chunk :: chunks =>
    let r := sc.run (rest ++ chunk)
    let t := feedAll r.2 chunks
    (r.1 ++ t.1, t.2)

/-- **Chunk independence**: feeding the input in chunks gives the outputs of
scanning it whole, and leaves the same rest. -/
theorem feedAll_eq {rest : List α} (h : sc.step rest = none) (chunks : List (List α)) :
    sc.feedAll rest chunks = sc.run (rest ++ chunks.flatten) := by
  induction chunks generalizing rest with
  | nil => rw [List.flatten_nil, List.append_nil, sc.run_of_none h, feedAll]
  | cons chunk chunks ih =>
      have hstop : sc.step (sc.run (rest ++ chunk)).2 = none := sc.step_trace_snd 0 _
      rw [feedAll, List.flatten_cons, ← List.append_assoc, sc.run_append (rest ++ chunk),
        ih hstop]

end Scanner

end RedisLike
