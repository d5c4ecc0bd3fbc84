/-
Progress along an infinite run: what leads to what.  Turns that come again and
again take a state on that waits for them, and a rank that falls cannot fall
for ever.
-/
import Mathlib.Tactic.Common

namespace Progress

variable {σ : Type} {run : Nat → σ} {P Q R : σ → Prop}

/-- Again and again. -/
def Often (turn : Nat → Prop) : Prop := ∀ n, ∃ m ≥ n, turn m

/-- Whenever `P` holds, `Q` holds then or later. -/
def LeadsTo (run : Nat → σ) (P Q : σ → Prop) : Prop :=
  ∀ n, P (run n) → ∃ m ≥ n, Q (run m)

theorem LeadsTo.trans (h : LeadsTo run P Q) (h' : LeadsTo run Q R) :
    LeadsTo run P R := by
  intro n hn
  obtain ⟨m, hm, hQ⟩ := h n hn
  obtain ⟨k, hk, hR⟩ := h' m hQ
  exact ⟨k, Nat.le_trans hm hk, hR⟩

/-- A state that waits for a turn, and goes on when it comes. -/
theorem LeadsTo.of_turn {turn : Nat → Prop} (hoften : Often turn)
    (hwaits : ∀ n, P (run n) → ¬ turn n → P (run (n + 1)) ∨ Q (run (n + 1)))
    (hacts : ∀ n, P (run n) → turn n → Q (run (n + 1))) :
    LeadsTo run P Q := by
  have hwithin : ∀ d n, P (run n) → turn (n + d) → ∃ m ≥ n, Q (run m) := by
    intro d
    induction d with
    | zero => exact fun n hn hturn => ⟨n + 1, Nat.le_succ n, hacts n hn hturn⟩
    | succ d ih =>
        intro n hn hturn
        by_cases hnow : turn n
        · exact ⟨n + 1, Nat.le_succ n, hacts n hn hnow⟩
        · obtain hP | hQ := hwaits n hn hnow
          · obtain ⟨m, hm, hQ⟩ := ih (n + 1) hP
              (by rwa [Nat.add_right_comm, Nat.add_assoc])
            exact ⟨m, Nat.le_of_succ_le hm, hQ⟩
          · exact ⟨n + 1, Nat.le_succ n, hQ⟩
  intro n hn
  obtain ⟨m, hm, hturn⟩ := hoften n
  obtain ⟨d, rfl⟩ := Nat.exists_eq_add_of_le hm
  exact hwithin d n hn hturn

/-- A rank that falls as long as the goal is not reached. -/
theorem LeadsTo.of_rank (rank : σ → Nat)
    (h : ∀ k, LeadsTo run (fun s => P s ∧ rank s = k)
      fun s => Q s ∨ P s ∧ rank s < k) : LeadsTo run P Q := by
  have hrank : ∀ k n, P (run n) → rank (run n) = k → ∃ m ≥ n, Q (run m) := by
    intro k
    induction k using Nat.strongRecOn with
    | ind k ih =>
        intro n hn hk
        obtain ⟨m, hm, hQ | ⟨hP, hlt⟩⟩ := h k n ⟨hn, hk⟩
        · exact ⟨m, hm, hQ⟩
        · obtain ⟨m', hm', hQ⟩ := ih _ hlt m hP rfl
          exact ⟨m', Nat.le_trans hm hm', hQ⟩
  intro n hn
  exact hrank _ n hn rfl

end Progress
