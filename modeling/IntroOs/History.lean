/-
Laws of histories: what holds of every event and the events before it.
-/
import Mathlib.Data.List.Induction

namespace History

variable {Event : Type}

/-- Every event of the history satisfies `law` with respect to its past. -/
def Along (law : List Event → Event → Prop) (past : List Event) : Prop :=
  ∀ pre event post, past = pre ++ event :: post → law pre event

variable {law : List Event → Event → Prop} {past : List Event} {event : Event}

theorem along_nil : Along law [] := by
  intro pre event post heq
  cases pre <;> cases heq

theorem Along.concat (h : Along law past) (hevent : law past event) :
    Along law (past ++ [event]) := by
  intro pre event' post heq
  rcases List.eq_nil_or_concat post with rfl | ⟨post', last, rfl⟩
  · obtain ⟨rfl, hlast⟩ := List.append_inj' heq rfl
    cases hlast
    exact hevent
  · rw [List.concat_eq_append, ← List.cons_append, ← List.append_assoc] at heq
    obtain ⟨hpast, -⟩ := List.append_inj' heq rfl
    exact h pre event' post' hpast

theorem Along.last (h : Along law (past ++ [event])) :
    Along law past ∧ law past event := by
  refine ⟨fun pre event' post heq => ?_, h past event [] rfl⟩
  exact h pre event' (post ++ [event]) (by rw [heq]; simp)

end History
