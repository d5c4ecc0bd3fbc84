/-
Counting semaphores as an abstract data type: what a sequence of `down` and
`up` does to the permits and to the threads that wait for one.
-/
import Mathlib.Data.List.Induction

namespace CountingSemaphore

inductive Op (Thread : Type) where
  | down (thread : Thread)
  | up
deriving DecidableEq

variable {Thread : Type}

def Op.isDown : Op Thread → Bool
  | .down _ => true
  | .up => false

def Op.isUp : Op Thread → Bool
  | .down _ => false
  | .up => true

/-- The permits left, the threads that wait, the threads that found a permit
at once and those that were woken, each in order.  No thread waits while
there are permits. -/
structure State (Thread : Type) where
  permits : Nat
  waiting : List Thread
  passed : List Thread
  woken : List Thread
  exclusive : permits = 0 ∨ waiting = []

namespace State

def start (cnt : Nat) : State Thread := ⟨cnt, [], [], [], .inr rfl⟩

/-- The threads that did not find a permit, in the order they came. -/
def blocked (s : State Thread) : List Thread := s.woken ++ s.waiting

def granted (s : State Thread) : Nat := s.passed.length + s.woken.length

/-- A thread asks for a permit. -/
def down (s : State Thread) (t : Thread) : State Thread :=
  match hpermits : s.permits with
  | 0 => ⟨0, s.waiting ++ [t], s.passed, s.woken, .inl rfl⟩
  | n + 1 =>
      ⟨n, s.waiting, s.passed ++ [t], s.woken,
        .inr (s.exclusive.resolve_left (by omega))⟩

/-- A permit is given back, to the thread that waits longest if there is
one. -/
def up (s : State Thread) : State Thread :=
  match hwaiting : s.waiting with
  | [] => ⟨s.permits + 1, [], s.passed, s.woken, .inr rfl⟩
  | t :: rest =>
      ⟨s.permits, rest, s.passed, s.woken ++ [t],
        .inl (s.exclusive.resolve_right (by rw [hwaiting]; exact nofun))⟩

def step (s : State Thread) : Op Thread → State Thread
  | .down t => s.down t
  | .up => s.up

variable {s : State Thread} {t : Thread}

/-- `down` without a permit: the thread waits. -/
theorem down_of_zero (h : s.permits = 0) :
    (s.down t).permits = 0 ∧ (s.down t).waiting = s.waiting ++ [t] ∧
      (s.down t).passed = s.passed ∧ (s.down t).woken = s.woken := by
  unfold down
  split
  · exact ⟨rfl, rfl, rfl, rfl⟩
  · next n hpermits => omega

/-- `down` with a permit: nobody waits, and the thread passes. -/
theorem down_of_pos (h : 0 < s.permits) :
    (s.down t).permits + 1 = s.permits ∧ (s.down t).waiting = s.waiting ∧
      (s.down t).passed = s.passed ++ [t] ∧ (s.down t).woken = s.woken := by
  unfold down
  split
  · next hpermits => omega
  · next n hpermits => exact ⟨hpermits.symm, rfl, rfl, rfl⟩

theorem up_of_nil (h : s.waiting = []) :
    s.up.permits = s.permits + 1 ∧ s.up.waiting = [] ∧
      s.up.passed = s.passed ∧ s.up.woken = s.woken := by
  unfold up
  split
  · exact ⟨rfl, rfl, rfl, rfl⟩
  · next t rest hwaiting =>
      rw [h] at hwaiting
      cases hwaiting

theorem up_of_cons {rest : List Thread} (h : s.waiting = t :: rest) :
    s.up.permits = s.permits ∧ s.up.waiting = rest ∧
      s.up.passed = s.passed ∧ s.up.woken = s.woken ++ [t] := by
  unfold up
  split
  · next hwaiting =>
      rw [h] at hwaiting
      cases hwaiting
  · next t' rest' hwaiting =>
      rw [h] at hwaiting
      cases hwaiting
      exact ⟨rfl, rfl, rfl, rfl⟩

/-- Waking a thread does not change who has blocked. -/
theorem up_blocked : s.up.blocked = s.blocked := by
  unfold blocked
  cases hwaiting : s.waiting with
  | nil =>
      obtain ⟨-, hempty, -, hwoken⟩ := up_of_nil hwaiting
      rw [hempty, hwoken]
  | cons t rest =>
      obtain ⟨-, hrest, -, hwoken⟩ := up_of_cons hwaiting
      rw [hrest, hwoken, List.append_assoc]
      rfl

end State

/-- A semaphore constructed with `cnt` after some operations. -/
def run (cnt : Nat) (ops : List (Op Thread)) : State Thread :=
  ops.foldl State.step (.start cnt)

theorem run_concat (cnt : Nat) (ops : List (Op Thread)) (op : Op Thread) :
    run cnt (ops ++ [op]) = (run cnt ops).step op := by
  simp [run]

section Accounts

variable (cnt : Nat) (ops : List (Op Thread))

/-- Permits are neither lost nor made up. -/
theorem run_balance :
    (run cnt ops).permits + (run cnt ops).granted =
        cnt + ops.countP Op.isUp ∧
      (run cnt ops).granted + (run cnt ops).waiting.length =
        ops.countP Op.isDown := by
  induction ops using List.reverseRecOn with
  | nil => exact ⟨rfl, rfl⟩
  | append_singleton ops op ih =>
      simp only [State.granted] at ih
      rw [run_concat, List.countP_append, List.countP_append,
        List.countP_singleton, List.countP_singleton]
      cases op with
      | down t =>
          rcases Nat.eq_zero_or_pos (run cnt ops).permits with hzero | hpos
          · obtain ⟨hpermits, hwaiting, hpassed, hwoken⟩ :=
              State.down_of_zero (t := t) hzero
            simp only [State.step, State.granted, hpermits, hwaiting, hpassed,
              hwoken, List.length_append, List.length_singleton, Op.isUp,
              Op.isDown, ↓reduceIte, Bool.false_eq_true]
            omega
          · obtain ⟨hpermits, hwaiting, hpassed, hwoken⟩ :=
              State.down_of_pos (t := t) hpos
            simp only [State.step, State.granted, hwaiting, hpassed, hwoken,
              List.length_append, List.length_singleton, Op.isUp, Op.isDown,
              ↓reduceIte, Bool.false_eq_true]
            omega
      | up =>
          cases hwaiting : (run cnt ops).waiting with
          | nil =>
              obtain ⟨hpermits, hrest, hpassed, hwoken⟩ :=
                State.up_of_nil hwaiting
              simp only [hwaiting, List.length_nil] at ih
              simp only [State.step, State.granted, hpermits, hrest, hpassed,
                hwoken, List.length_nil, Op.isUp, Op.isDown, ↓reduceIte,
                Bool.false_eq_true]
              omega
          | cons t rest =>
              obtain ⟨hpermits, hrest, hpassed, hwoken⟩ :=
                State.up_of_cons hwaiting
              simp only [hwaiting, List.length_cons] at ih
              simp only [State.step, State.granted, hpermits, hrest, hpassed,
                hwoken, List.length_append, List.length_singleton, Op.isUp,
                Op.isDown, ↓reduceIte, Bool.false_eq_true]
              omega

/-- The threads that wait are those that asked beyond the permits. -/
theorem run_waiting_length :
    (run cnt ops).waiting.length =
      ops.countP Op.isDown - (cnt + ops.countP Op.isUp) := by
  obtain ⟨hpermits, hgranted⟩ := run_balance cnt ops
  rcases (run cnt ops).exclusive with hzero | hnil
  · omega
  · rw [hnil] at hgranted ⊢
    simp only [List.length_nil] at hgranted ⊢
    omega

theorem run_granted :
    (run cnt ops).granted =
      min (ops.countP Op.isDown) (cnt + ops.countP Op.isUp) := by
  obtain ⟨hpermits, hgranted⟩ := run_balance cnt ops
  have hwaiting := run_waiting_length cnt ops
  omega

end Accounts

end CountingSemaphore
