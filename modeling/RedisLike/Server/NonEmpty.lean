import RedisLike.Command.NonEmpty
import RedisLike.Server.Log

/-!
# RedisLike.Server.NonEmpty

No empty aggregates in any state of a run, as long as no command fails.
-/

namespace RedisLike

namespace RedisServer

/-- The command does not fail. -/
def Succeeds (db : Dict) (step : Step) : Prop := isError (response db step).1 = false

theorem noEmpty_response {db : Dict} (h : db.NoEmpty) {step : Step} (hok : Succeeds db step) :
    (response db step).2.NoEmpty := by
  rw [Succeeds, response_eq] at hok
  rw [response_eq]
  exact noEmpty_execute h hok

theorem noEmpty_runDb {db : Dict} (h : db.NoEmpty) {steps : List Step}
    (hok : Along Succeeds db steps) : (runDb db steps).NoEmpty := by
  induction steps generalizing db with
  | nil => exact h
  | cons step steps ih => exact ih (noEmpty_response h hok.1) hok.2

/-- **No empty aggregates**: behind a run without errors, and behind one more
command, no hash, list, set or sorted set is empty; a pop or a remove that takes
the last element deletes the key. -/
theorem run_noEmpty {db : Dict} (h : db.NoEmpty) {steps : List Step}
    (hok : Along Succeeds db steps) :
    (runDb db steps).NoEmpty ∧ ∀ step, Succeeds (runDb db steps) step →
      (response (runDb db steps) step).2.NoEmpty ∧
        ∀ obj, (runDb db steps).live step.now (step.cmd.args.getD 0 []) = some obj →
          step.cmd.TakesAll obj.value →
            (response (runDb db steps) step).2.get (step.cmd.args.getD 0 []) = none := by
  have hrun := noEmpty_runDb h hok
  refine ⟨hrun, fun step hstep => ⟨noEmpty_response hrun hstep, fun obj hlive htakes => ?_⟩⟩
  rw [Succeeds, response_eq] at hstep
  rw [response_eq]
  exact @get_execute_of_takesAll (step.context _) obj hlive htakes hstep

instance (db : Dict) (step : Step) : Decidable (Succeeds db step) :=
  inferInstanceAs (Decidable (isError (response db step).1 = false))

/-- A list with two elements. -/
def twoElements : List Step :=
  [⟨⟨0, fun _ _ => 0⟩, ⟨ascii "RPUSH", [ascii "l", ascii "a", ascii "b"]⟩⟩]

/-- Five pops on it. -/
def fivePops : Step := ⟨⟨0, fun _ _ => 0⟩, ⟨ascii "LPOP", [ascii "l", ascii "5"]⟩⟩

theorem run_noEmpty_pop : (runDb ∅ twoElements).NoEmpty ∧
    (response (runDb ∅ twoElements) fivePops).2.get (ascii "l") = none := by
  obtain ⟨hrun, hstep⟩ := @run_noEmpty ∅ (fun _ => filled_none) twoElements
    ⟨by decide +kernel, trivial⟩
  exact ⟨hrun, (hstep fivePops (by decide +kernel)).2 _ rfl
    ⟨.inl rfl, 5, by decide +kernel, by decide⟩⟩

end RedisServer

end RedisLike
