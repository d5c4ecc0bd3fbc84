/-
The history of a semaphore against the abstract counting semaphore.  An
operation takes effect when it changes the counter, under the semaphore's
lock; the queue lags behind by what the holder of the lock still has to do.
-/
import IntroOs.CountingSemaphore
import IntroOs.Threads

namespace IntroOs

namespace Threads

open CountingSemaphore (Op)

variable {Core Sem : Type} [DecidableEq Core] [DecidableEq Sem]

/-- The operation on `sem` that takes effect in an event. -/
def Event.op (sem : Sem) : Event Core Sem → Option (Op (Tcb Core))
  | .pass sem' t | .block sem' t => if sem' = sem then some (.down t) else none
  | .up sem' _ _ => if sem' = sem then some .up else none
  | _ => none

/-- The thread that finds a permit. -/
def Event.passes (sem : Sem) : Event Core Sem → Option (Tcb Core)
  | .pass sem' t => if sem' = sem then some t else none
  | _ => none

/-- The thread that finds none. -/
def Event.blocks (sem : Sem) : Event Core Sem → Option (Tcb Core)
  | .block sem' t => if sem' = sem then some t else none
  | _ => none

/-- The thread that an `up` takes off the queue of `sem`. -/
def Event.wakes (sem : Sem) : Event Core Sem → Option (Tcb Core)
  | .unlink _ q t => if q = .waiting sem then some t else none
  | _ => none

def opsOf (past : List (Event Core Sem)) (sem : Sem) : List (Op (Tcb Core)) :=
  past.filterMap (Event.op sem)

def passedOf (past : List (Event Core Sem)) (sem : Sem) : List (Tcb Core) :=
  past.filterMap (Event.passes sem)

/-- The threads that blocked, in the order in which they took the lock. -/
def blockedOf (past : List (Event Core Sem)) (sem : Sem) : List (Tcb Core) :=
  past.filterMap (Event.blocks sem)

/-- The threads taken off the queue, in order. -/
def wokenOf (past : List (Event Core Sem)) (sem : Sem) : List (Tcb Core) :=
  past.filterMap (Event.wakes sem)

/-- What a grant leaves to do: the `down` that found a permit returns, the
thread taken off the queue is scheduled. -/
inductive Owed (Core : Type) where
  | ret (tcb : Tcb Core)
  | wake (tcb : Tcb Core)
deriving DecidableEq

def Owed.tcb : Owed Core → Tcb Core
  | .ret t | .wake t => t

def Owed.next (sem : Sem) (owed : List (Owed Core)) :
    Event Core Sem → List (Owed Core)
  | .pass sem' t => if sem' = sem then .ret t :: owed else owed
  | .downRet sem' t => if sem' = sem then owed.erase (.ret t) else owed
  | .unlink _ q t => if q = .waiting sem then .wake t :: owed else owed
  | .link q t => if q = .ready then owed.erase (.wake t) else owed
  | _ => owed

def owedOf (past : List (Event Core Sem)) (sem : Sem) : List (Owed Core) :=
  past.foldl (Owed.next sem) []

/-- What the holder of a semaphore's lock still has to do before the queue
and the history agree with the counter. -/
inductive Debt (Core : Type) where
  | settled
  | push (tcb : Tcb Core)
  | pop
  | deliver (tcb : Tcb Core)
  | leave (tcb : Tcb Core)
deriving DecidableEq

namespace Debt

def pushed : Debt Core → List (Tcb Core)
  | .push t => [t]
  | _ => []

def pops : Debt Core → Nat
  | .pop => 1
  | _ => 0

def owed : Debt Core → List (Owed Core)
  | .deliver t => [.wake t]
  | .leave t => [.ret t]
  | _ => []

end Debt

/-- The abstract semaphore after the operations of the history. -/
def specOf (cnt : Nat) (past : List (Event Core Sem)) (sem : Sem) :
    CountingSemaphore.State (Tcb Core) :=
  CountingSemaphore.run cnt (opsOf past sem)

/-- The semaphore's counter and queue agree with the abstract semaphore, but
for the debt. -/
structure Agrees (cnt : Nat) (past : List (Event Core Sem)) (sem : Sem)
    (counter : Int) (queue : List (Tcb Core)) (debt : Debt Core) : Prop where
  counter : counter =
    (specOf cnt past sem).permits - (specOf cnt past sem).waiting.length
  passed : passedOf past sem = (specOf cnt past sem).passed
  blocked : blockedOf past sem = (specOf cnt past sem).blocked
  queue : wokenOf past sem ++ queue ++ debt.pushed =
    (specOf cnt past sem).blocked
  lag : (wokenOf past sem).length + debt.pops =
    (specOf cnt past sem).woken.length
  pop : debt = .pop → (specOf cnt past sem).permits = 0
  owed : owedOf past sem = debt.owed

section Agree

variable {cnt : Nat} {past : List (Event Core Sem)} {sem : Sem}
  {counter : Int} {queue : List (Tcb Core)} {debt : Debt Core} {t : Tcb Core}

section

omit [DecidableEq Core]

theorem specOf_concat (cnt : Nat) (past : List (Event Core Sem))
    (event : Event Core Sem) (op : Op (Tcb Core))
    (hop : event.op sem = some op) :
    specOf cnt (past ++ [event]) sem = (specOf cnt past sem).step op := by
  simp [specOf, opsOf, hop, CountingSemaphore.run]

end

theorem agrees_nil (cnt : Nat) (sem : Sem) :
    Agrees cnt ([] : List (Event Core Sem)) sem cnt [] .settled where
  counter := (Int.sub_zero _).symm
  passed := rfl
  blocked := rfl
  queue := rfl
  lag := rfl
  pop := nofun
  owed := rfl

/-- With no push or pop outstanding the queue is the abstract one. -/
theorem Agrees.queue_eq (h : Agrees cnt past sem counter queue debt)
    (hpushed : debt.pushed = []) (hpops : debt.pops = 0) :
    wokenOf past sem = (specOf cnt past sem).woken ∧
      queue = (specOf cnt past sem).waiting := by
  have hqueue := h.queue
  have hlag := h.lag
  rw [hpushed, List.append_nil] at hqueue
  rw [hpops] at hlag
  exact List.append_inj hqueue hlag

/-- A pop that is outstanding finds a thread. -/
theorem Agrees.pop_ne_nil (h : Agrees cnt past sem counter queue .pop) :
    queue ≠ [] := by
  rintro rfl
  have hlength := congrArg List.length h.queue
  have hlag := h.lag
  simp only [Debt.pushed, Debt.pops, CountingSemaphore.State.blocked,
    List.append_nil, List.length_append] at hlength hlag
  omega

theorem Agrees.permits_zero (h : Agrees cnt past sem counter queue debt)
    (hle : counter ≤ 0) : (specOf cnt past sem).permits = 0 := by
  have hcounter := h.counter
  rcases (specOf cnt past sem).exclusive with hzero | hnil
  · exact hzero
  · rw [hnil, List.length_nil] at hcounter
    omega

theorem Agrees.waiting_cons (h : Agrees cnt past sem counter queue debt)
    (hneg : counter < 0) : ∃ t rest, (specOf cnt past sem).waiting = t :: rest := by
  have hcounter := h.counter
  cases hwaiting : (specOf cnt past sem).waiting with
  | nil =>
      rw [hwaiting, List.length_nil] at hcounter
      omega
  | cons t rest => exact ⟨t, rest, rfl⟩

theorem Agrees.waiting_nil (h : Agrees cnt past sem counter queue debt)
    (hnonneg : 0 ≤ counter) : (specOf cnt past sem).waiting = [] := by
  have hcounter := h.counter
  rcases (specOf cnt past sem).exclusive with hzero | hnil
  · rw [hzero] at hcounter
    exact List.length_eq_zero_iff.mp (by omega)
  · exact hnil

/-- A `down` finds no permit. -/
theorem Agrees.block (h : Agrees cnt past sem counter queue .settled)
    (hneg : counter - 1 < 0) (t : Tcb Core) :
    Agrees cnt (past ++ [.block sem t]) sem (counter - 1) queue (.push t) := by
  have hzero := h.permits_zero (by omega)
  have hspec : specOf cnt (past ++ [.block sem t]) sem =
      (specOf cnt past sem).down t :=
    specOf_concat cnt past (.block sem t) (.down t) (if_pos rfl)
  obtain ⟨hpermits, hwaiting, hpassed, hwoken⟩ :=
    CountingSemaphore.State.down_of_zero (t := t) hzero
  have hblocked : ((specOf cnt past sem).down t).blocked =
      (specOf cnt past sem).blocked ++ [t] := by
    rw [CountingSemaphore.State.blocked, hwaiting, hwoken,
      ← List.append_assoc]
    rfl
  have hwokenOf : wokenOf (past ++ [.block sem t]) sem = wokenOf past sem := by
    simp [wokenOf, Event.wakes]
  refine ⟨?_, ?_, ?_, ?_, ?_, nofun, ?_⟩
  · rw [hspec, h.counter, hpermits, hwaiting, hzero, List.length_append,
      List.length_singleton]
    omega
  · rw [hspec, hpassed, ← h.passed]
    simp [passedOf, Event.passes]
  · rw [hspec, hblocked, ← h.blocked]
    simp [blockedOf, Event.blocks]
  · rw [hspec, hblocked, ← h.queue, hwokenOf]
    simp [Debt.pushed]
  · rw [hspec, hwokenOf, hwoken]
    exact h.lag
  · simpa [owedOf, Owed.next, Debt.owed] using h.owed

/-- A `down` finds a permit. -/
theorem Agrees.pass (h : Agrees cnt past sem counter queue .settled)
    (hnonneg : ¬ counter - 1 < 0) (t : Tcb Core) :
    Agrees cnt (past ++ [.pass sem t]) sem (counter - 1) queue (.leave t) := by
  have hcounter := h.counter
  have hspec : specOf cnt (past ++ [.pass sem t]) sem =
      (specOf cnt past sem).down t :=
    specOf_concat cnt past (.pass sem t) (.down t) (if_pos rfl)
  obtain ⟨hpermits, hwaiting, hpassed, hwoken⟩ :=
    CountingSemaphore.State.down_of_pos (s := specOf cnt past sem) (t := t)
      (by omega)
  have hblocked : ((specOf cnt past sem).down t).blocked =
      (specOf cnt past sem).blocked := by
    rw [CountingSemaphore.State.blocked, hwaiting, hwoken]
    rfl
  have hwokenOf : wokenOf (past ++ [.pass sem t]) sem = wokenOf past sem := by
    simp [wokenOf, Event.wakes]
  refine ⟨?_, ?_, ?_, ?_, ?_, nofun, ?_⟩
  · rw [hspec, hwaiting]
    omega
  · rw [hspec, hpassed, ← h.passed]
    simp [passedOf, Event.passes]
  · rw [hspec, hblocked, ← h.blocked]
    simp [blockedOf, Event.blocks]
  · rw [hspec, hblocked, hwokenOf]
    exact h.queue
  · rw [hspec, hwokenOf, hwoken]
    exact h.lag
  · have howed := h.owed
    simp only [owedOf, Debt.owed] at howed
    simp [owedOf, Owed.next, Debt.owed, howed]

theorem Agrees.up (h : Agrees cnt past sem counter queue .settled)
    (hdebt : debt.pushed = [] ∧ debt.owed = []) (caller : Tcb Core)
    (wakes : Bool)
    (hcounter : (counter + 1 : Int) = (specOf cnt past sem).up.permits -
      (specOf cnt past sem).up.waiting.length)
    (hpassed : (specOf cnt past sem).up.passed = (specOf cnt past sem).passed)
    (hlag : (specOf cnt past sem).woken.length + debt.pops =
      (specOf cnt past sem).up.woken.length)
    (hpop : debt = .pop → (specOf cnt past sem).up.permits = 0) :
    Agrees cnt (past ++ [.up sem caller wakes]) sem (counter + 1) queue
      debt := by
  have hspec : specOf cnt (past ++ [.up sem caller wakes]) sem =
      (specOf cnt past sem).up :=
    specOf_concat cnt past (.up sem caller wakes) .up (if_pos rfl)
  have hwokenOf : wokenOf (past ++ [.up sem caller wakes]) sem =
      wokenOf past sem := by
    simp [wokenOf, Event.wakes]
  have hblocked : (specOf cnt past sem).up.blocked = _ :=
    CountingSemaphore.State.up_blocked
  refine ⟨?_, ?_, ?_, ?_, ?_, ?_, ?_⟩
  · rw [hspec]
    exact hcounter
  · rw [hspec, hpassed, ← h.passed]
    simp [passedOf, Event.passes]
  · rw [hspec, hblocked, ← h.blocked]
    simp [blockedOf, Event.blocks]
  · rw [hspec, hblocked, hwokenOf, hdebt.1, ← h.queue]
    rfl
  · rw [hspec, hwokenOf, ← hlag, ← h.lag]
    rfl
  · rw [hspec]
    exact hpop
  · rw [hdebt.2]
    simpa [owedOf, Owed.next, Debt.owed] using h.owed

/-- An `up` finds threads that wait, and has one to take off the queue. -/
theorem Agrees.upWakes (h : Agrees cnt past sem counter queue .settled)
    (hneg : counter < 0) (caller : Tcb Core) :
    Agrees cnt (past ++ [.up sem caller true]) sem (counter + 1) queue .pop := by
  obtain ⟨t, rest, hcons⟩ := h.waiting_cons hneg
  obtain ⟨hpermits, hwaiting, hpassed, hwoken⟩ :=
    CountingSemaphore.State.up_of_cons hcons
  refine h.up ⟨rfl, rfl⟩ caller true ?_ hpassed ?_ fun _ => ?_
  · rw [h.counter, hpermits, hwaiting, hcons, List.length_cons]
    omega
  · rw [hwoken, List.length_append]
    rfl
  · rw [hpermits]
    exact h.permits_zero (by omega)

/-- An `up` finds no thread that waits. -/
theorem Agrees.upFrees (h : Agrees cnt past sem counter queue .settled)
    (hnonneg : 0 ≤ counter) (caller : Tcb Core) :
    Agrees cnt (past ++ [.up sem caller false]) sem (counter + 1) queue
      .settled := by
  have hnil := h.waiting_nil hnonneg
  obtain ⟨hpermits, hwaiting, hpassed, hwoken⟩ :=
    CountingSemaphore.State.up_of_nil hnil
  refine h.up ⟨rfl, rfl⟩ caller false ?_ hpassed ?_ nofun
  · rw [h.counter, hpermits, hwaiting, hnil]
    simp only [List.length_nil]
    omega
  · rw [hwoken]
    rfl

/-- Events that are no operation: they move the debt along. -/
theorem Agrees.other (h : Agrees cnt past sem counter queue debt)
    {event : Event Core Sem} (hop : event.op sem = none)
    {queue' : List (Tcb Core)} {debt' : Debt Core}
    (hqueue : (event.wakes sem).toList ++ queue' ++ debt'.pushed =
      queue ++ debt.pushed)
    (hlag : (event.wakes sem).toList.length + debt'.pops = debt.pops)
    (hpop : debt' = .pop → debt = .pop)
    (howed : Owed.next sem debt.owed event = debt'.owed) :
    Agrees cnt (past ++ [event]) sem counter queue' debt' := by
  have hspec : specOf cnt (past ++ [event]) sem = specOf cnt past sem := by
    simp [specOf, opsOf, hop]
  have hwokenOf : wokenOf (past ++ [event]) sem =
      wokenOf past sem ++ (event.wakes sem).toList := by
    cases hwakes : event.wakes sem <;> simp [wokenOf, hwakes]
  have hnone : event.passes sem = none ∧ event.blocks sem = none := by
    cases event <;> simp_all [Event.op, Event.passes, Event.blocks]
  refine ⟨?_, ?_, ?_, ?_, ?_, ?_, ?_⟩
  · rw [hspec]
    exact h.counter
  · rw [hspec, ← h.passed]
    simp [passedOf, hnone.1]
  · rw [hspec, ← h.blocked]
    simp [blockedOf, hnone.2]
  · rw [hspec, ← h.queue, hwokenOf, List.append_assoc, List.append_assoc,
      ← List.append_assoc _ queue', hqueue, List.append_assoc]
  · rw [hspec, ← h.lag, hwokenOf, List.length_append, ← hlag]
    omega
  · intro hdebt
    rw [hspec]
    exact h.pop (hpop hdebt)
  · rw [← howed, ← h.owed]
    simp [owedOf]

end Agree

end Threads

end IntroOs
