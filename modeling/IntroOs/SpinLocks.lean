/-
Spinlocks seen from outside: a log of who acquired and released what, who
holds a lock according to it, and why waiting along a falling rank never
closes a cycle.
-/
import Mathlib.Data.List.Basic
import Mathlib.Logic.Relation
import Mathlib.Order.WellFounded
import IntroOs.History

namespace SpinLocks

/-- The operations of a spinlock. -/
inductive Op (Lock : Type) where
  | acquire (lock : Lock)
  | release (lock : Lock)
deriving DecidableEq

variable {Core Lock : Type}

section Waiting

variable {waits : Core → Option Lock} {held : Core → Lock → Prop}
  {rank : Core → Nat}

/-- The core spins on a lock the other one holds. -/
def SpinsOn (waits : Core → Option Lock) (held : Core → Lock → Prop)
    (c c' : Core) : Prop :=
  ∃ lock, waits c = some lock ∧ held c' lock

/-- If holders wait for less than those they keep waiting, no cores wait in a
circle. -/
theorem no_cycle (hrank : ∀ c c', SpinsOn waits held c c' → rank c' < rank c)
    (c : Core) : ¬ Relation.TransGen (SpinsOn waits held) c c := by
  have hfalls : ∀ {c'}, Relation.TransGen (SpinsOn waits held) c c' →
      rank c' < rank c := by
    intro c' hpath
    induction hpath with
    | single hspins => exact hrank _ _ hspins
    | tail _ hspins ih => exact (hrank _ _ hspins).trans ih
  exact fun hcycle => absurd (hfalls hcycle) (Nat.lt_irrefl _)

/-- Behind every waiting core there is one that can go on. -/
theorem exists_unhindered {locked : Lock → Bool}
    (hrank : ∀ c c', SpinsOn waits held c c' → rank c' < rank c)
    (hheld : ∀ lock, locked lock = true → ∃ c, held c lock) (c : Core) :
    ∃ c', Relation.ReflTransGen (SpinsOn waits held) c c' ∧
      ∀ lock, waits c' = some lock → locked lock = false := by
  induction hn : rank c using Nat.strong_induction_on generalizing c with
  | _ n ih =>
      by_cases hstuck : ∃ lock, waits c = some lock ∧ locked lock = true
      · obtain ⟨lock, hwaits, hlocked⟩ := hstuck
        obtain ⟨holder, hholder⟩ := hheld lock hlocked
        have hspins : SpinsOn waits held c holder := ⟨lock, hwaits, hholder⟩
        obtain ⟨c', hpath, hfree⟩ :=
          ih (rank holder) (hn ▸ hrank c holder hspins) holder rfl
        exact ⟨c', .head hspins hpath, hfree⟩
      · refine ⟨c, .refl, fun lock hwaits => ?_⟩
        by_contra hne
        exact hstuck ⟨lock, hwaits, by simpa using hne⟩

end Waiting

section Log

variable [DecidableEq Core] [DecidableEq Lock]

/-- The lock words after an operation. -/
def Op.apply (locked : Lock → Bool) : Op Lock → Lock → Bool
  | .acquire lock => Function.update locked lock true
  | .release lock => Function.update locked lock false

def nextHolders (lock : Lock) (holders : List Core) :
    Core × Op Lock → List Core
  | (c, .acquire other) => if other = lock then c :: holders else holders
  | (c, .release other) => if other = lock then holders.erase c else holders

/-- Who has acquired the lock and not released it. -/
def holders (log : List (Core × Op Lock)) (lock : Lock) : List Core :=
  log.foldl (nextHolders lock) []

/-- A lock is acquired only while nobody holds it, and released by its
holder. -/
def Law (log : List (Core × Op Lock)) : Core × Op Lock → Prop
  | (_, .acquire lock) => holders log lock = []
  | (c, .release lock) => holders log lock = [c]

variable {log : List (Core × Op Lock)} {c : Core} {lock : Lock}

theorem holders_concat (log : List (Core × Op Lock)) (entry : Core × Op Lock)
    (lock : Lock) :
    holders (log ++ [entry]) lock = nextHolders lock (holders log lock) entry := by
  simp [holders]

theorem holders_acquire (h : holders log lock = []) :
    holders (log ++ [(c, .acquire lock)]) lock = [c] := by
  rw [holders_concat, h, nextHolders, if_pos rfl]

theorem holders_release (h : holders log lock = [c]) :
    holders (log ++ [(c, .release lock)]) lock = [] := by
  rw [holders_concat, h, nextHolders, if_pos rfl, List.erase_cons_head]

/-- Operations on other locks change neither the holder nor the word. -/
theorem unconcerned (log : List (Core × Op Lock)) (c : Core)
    (locked : Lock → Bool) {op : Op Lock} (hacquire : op ≠ .acquire lock)
    (hrelease : op ≠ .release lock) :
    holders (log ++ [(c, op)]) lock = holders log lock ∧
      op.apply locked lock = locked lock := by
  rw [holders_concat]
  cases op with
  | acquire other =>
      have hne : other ≠ lock := fun heq => hacquire (by rw [heq])
      exact ⟨if_neg hne, Function.update_of_ne hne.symm _ _⟩
  | release other =>
      have hne : other ≠ lock := fun heq => hrelease (by rw [heq])
      exact ⟨if_neg hne, Function.update_of_ne hne.symm _ _⟩

end Log

end SpinLocks
