/-
Every step of the thread system keeps each semaphore in agreement with the
abstract one: who owes what to a semaphore, what a move does to it, and the
invariant of every run.
-/
import IntroOs.SemaphoreHistory
import IntroOs.ThreadsPlaces

namespace IntroOs

namespace Threads

variable {Core Sem : Type} [DecidableEq Core] [DecidableEq Sem]

/-- The debt of the holder of `sem'`, seen from `sem`. -/
def Debt.at (sem' sem : Sem) (debt : Debt Core) : Debt Core :=
  if sem' = sem then debt else .settled

section

omit [DecidableEq Core]

theorem Debt.at_self (sem : Sem) (debt : Debt Core) :
    Debt.at sem sem debt = debt := if_pos rfl

theorem Debt.at_of_ne {sem' sem : Sem} (hne : sem' ≠ sem) (debt : Debt Core) :
    Debt.at sem' sem debt = .settled := if_neg hne

end

def PushSite.debt (sem : Sem) (value : Tcb Core) : PushSite Sem → Debt Core
  | .up sem' => Debt.at sem' sem (.deliver value)
  | _ => .settled

def PopSite.debt (sem : Sem) : PopSite Sem → Debt Core
  | .up sem' => Debt.at sem' sem .pop
  | .next => .settled

def HeapOp.debt (sem : Sem) : HeapOp Core Sem → Debt Core
  | .newNode _ value site => site.debt sem value
  | .deleteNode _ value (.up sem') => Debt.at sem' sem (.deliver value)
  | _ => .settled

/-- What a core owes by being where it is in the code. -/
def Ctl.debt (sem : Sem) (curr : Option (Tcb Core)) :
    Ctl Core Sem → Debt Core
  | .heapWait op | .heapHold op | .outOfMemory op => op.debt sem
  | .pushWait _ _ value site | .pushHold _ _ value site => site.debt sem value
  | .popWait site | .popHold site => site.debt sem
  | .downUnlock sem' => curr.elim .settled fun t => Debt.at sem' sem (.leave t)
  | _ => .settled

/-- What a core owes through the slots of its `g_table` entry. -/
def PerCore.debt (sem : Sem) (pc : PerCore Core Sem) : Done → Debt Core
  | .linked | .unlocked => .settled
  | _ =>
      pc.toUnlock.elim .settled fun sem' =>
        pc.toQueue.elim .settled fun t => Debt.at sem' sem (.push t)

/-- What a core still has to do for `sem`. -/
def CoreState.debt (sem : Sem) (l : CoreState Core Sem) : Debt Core :=
  match l.pc.debt sem l.ctl.done with
  | .settled => l.ctl.debt sem l.pc.curr
  | debt => debt

section Core

variable {c : Core} {s : Shared Core Sem} {l l' : CoreState Core Sem}
  {out : Outcome Core Sem} {sem : Sem}

section

omit [DecidableEq Core]

theorem Debt.eq_of_at {sem' : Sem} {debt : Debt Core}
    (h : Debt.at sem' sem debt ≠ .settled) : sem' = sem := by
  by_contra hne
  exact h (Debt.at_of_ne hne debt)

theorem PushSite.lock_mem_holds {value : Tcb Core} {site : PushSite Sem}
    (h : site.debt sem value ≠ .settled) :
    .lock (.sem sem) ∈ site.holds value := by
  cases site with
  | up sem' =>
      cases Debt.eq_of_at h
      simp [PushSite.holds]
  | _ => exact absurd rfl h

theorem PopSite.lock_mem_holds {site : PopSite Sem}
    (h : (site.debt sem : Debt Core) ≠ .settled) :
    .lock (.sem sem) ∈ site.holds := by
  cases site with
  | up sem' =>
      cases Debt.eq_of_at h
      simp [PopSite.holds]
  | next => exact absurd rfl h

theorem HeapOp.lock_mem_holds {op : HeapOp Core Sem}
    (h : op.debt sem ≠ .settled) : .lock (.sem sem) ∈ op.holds := by
  cases op with
  | newNode q value site => exact PushSite.lock_mem_holds h
  | deleteNode node value site =>
      cases site with
      | up sem' =>
          cases Debt.eq_of_at h
          simp [HeapOp.holds, PopSite.holds]
      | next => exact absurd rfl h
  | _ => exact absurd rfl h

theorem Ctl.lock_mem_holds {ctl : Ctl Core Sem} {curr : Option (Tcb Core)}
    (h : ctl.debt sem curr ≠ .settled) : .lock (.sem sem) ∈ ctl.holds := by
  cases ctl with
  | heapWait op => exact HeapOp.lock_mem_holds h
  | heapHold op => exact Multiset.mem_add.mpr (.inl (HeapOp.lock_mem_holds h))
  | outOfMemory op => exact HeapOp.lock_mem_holds h
  | pushWait q node value site =>
      exact Multiset.mem_add.mpr (.inr (PushSite.lock_mem_holds h))
  | pushHold q node value site =>
      exact Multiset.mem_add.mpr (.inl (Multiset.mem_add.mpr
        (.inr (PushSite.lock_mem_holds h))))
  | popWait site => exact PopSite.lock_mem_holds h
  | popHold site => exact Multiset.mem_add.mpr (.inl (PopSite.lock_mem_holds h))
  | downUnlock sem' =>
      cases curr with
      | none => exact absurd rfl h
      | some t =>
          cases Debt.eq_of_at h
          simp [Ctl.holds]
  | _ => exact absurd rfl h

theorem PerCore.lock_mem_slots {pc : PerCore Core Sem} {done : Done}
    (h : pc.debt sem done ≠ .settled) :
    .lock (.sem sem) ∈ pc.slots done := by
  have hunlock : pc.toUnlock = some sem ∧ done ≠ .unlocked := by
    cases done <;> first
      | exact absurd rfl h
      | refine ⟨?_, nofun⟩
        cases hslot : pc.toUnlock with
        | none => simp [PerCore.debt, hslot] at h
        | some sem' =>
            cases hqueue : pc.toQueue with
            | none => simp [PerCore.debt, hslot, hqueue] at h
            | some t =>
                simp only [PerCore.debt, hslot, hqueue, Option.elim_some] at h
                rw [Debt.eq_of_at h]
  have hmem : .lock (.sem sem) ∈ (done.unlockHolds sem) := by
    cases done <;> simp_all [Done.unlockHolds]
  simp only [PerCore.slots, hunlock.1, Option.elim_some, Multiset.mem_add]
  exact .inr hmem

theorem Debt.of_at {sem' : Sem} {debt debt' : Debt Core}
    (h : Debt.at sem' sem debt = debt') (hne : debt' ≠ .settled) :
    debt = debt' := by
  by_cases heq : sem' = sem
  · rw [← h, heq, Debt.at_self]
  · rw [Debt.at_of_ne heq] at h
    exact absurd h.symm hne

theorem PushSite.hand_of_deliver {value t : Tcb Core} {site : PushSite Sem}
    (h : site.debt sem value = .deliver t) : site.hand value = some t := by
  cases site with
  | up sem' =>
      cases Debt.of_at h nofun
      rfl
  | _ => cases h

theorem HeapOp.hand_of_deliver {t : Tcb Core} {op : HeapOp Core Sem}
    (h : op.debt sem = .deliver t) : op.hand = some t := by
  cases op with
  | newNode q value site => exact PushSite.hand_of_deliver h
  | deleteNode node value site =>
      cases site with
      | up sem' =>
          cases Debt.of_at h nofun
          rfl
      | next => cases h
  | _ => cases h

/-- A core that has a thread to schedule holds it in a local variable. -/
theorem Ctl.hand_of_deliver {t : Tcb Core} {ctl : Ctl Core Sem}
    {curr : Option (Tcb Core)} (h : ctl.debt sem curr = .deliver t) :
    ctl.hand = some t := by
  cases ctl with
  | heapWait op => exact HeapOp.hand_of_deliver h
  | heapHold op => exact HeapOp.hand_of_deliver h
  | outOfMemory op => exact HeapOp.hand_of_deliver h
  | pushWait q node value site => exact PushSite.hand_of_deliver h
  | pushHold q node value site => exact PushSite.hand_of_deliver h
  | popWait site =>
      cases site with
      | up sem' => cases Debt.of_at h nofun
      | next => cases h
  | popHold site =>
      cases site with
      | up sem' => cases Debt.of_at h nofun
      | next => cases h
  | downUnlock sem' =>
      cases curr with
      | none => cases h
      | some u => cases Debt.of_at h nofun
  | _ => cases h

/-- A core that has a `down` to return from runs its thread. -/
theorem Ctl.curr_of_leave {t : Tcb Core} {ctl : Ctl Core Sem}
    {curr : Option (Tcb Core)} (h : ctl.debt sem curr = .leave t) :
    curr = some t := by
  have hpush : ∀ {value : Tcb Core} {site : PushSite Sem},
      site.debt sem value ≠ .leave t := by
    intro value site h
    cases site with
    | up sem' => cases Debt.of_at h nofun
    | _ => cases h
  have hop : ∀ {op : HeapOp Core Sem}, op.debt sem ≠ .leave t := by
    intro op h
    cases op with
    | newNode q value site => exact hpush h
    | deleteNode node value site =>
        cases site with
        | up sem' => cases Debt.of_at h nofun
        | next => cases h
    | _ => cases h
  cases ctl with
  | heapWait op => exact absurd h hop
  | heapHold op => exact absurd h hop
  | outOfMemory op => exact absurd h hop
  | pushWait q node value site => exact absurd h hpush
  | pushHold q node value site => exact absurd h hpush
  | popWait site =>
      cases site with
      | up sem' => cases Debt.of_at h nofun
      | next => cases h
  | popHold site =>
      cases site with
      | up sem' => cases Debt.of_at h nofun
      | next => cases h
  | downUnlock sem' =>
      cases curr with
      | none => cases h
      | some u =>
          cases Debt.of_at h nofun
          rfl
  | _ => cases h

/-- The slots of a core owe at most a push. -/
theorem PerCore.debt_cases (sem : Sem) (pc : PerCore Core Sem) (done : Done) :
    pc.debt sem done = .settled ∨ ∃ t, pc.debt sem done = .push t := by
  cases hunlock : pc.toUnlock with
  | none => cases done <;> simp [PerCore.debt, hunlock]
  | some sem' =>
      cases hqueue : pc.toQueue with
      | none => cases done <;> simp [PerCore.debt, hunlock, hqueue]
      | some t =>
          by_cases heq : sem' = sem
          · cases done <;>
              simp [PerCore.debt, hunlock, hqueue, heq, Debt.at_self]
          · cases done <;>
              simp [PerCore.debt, hunlock, hqueue, Debt.at_of_ne heq]

/-- A core has the thread whose grant it still has to complete. -/
theorem has_of_owed {paid : Owed Core} {id : Nat}
    (h : paid ∈ (l.debt sem).owed) (htcb : paid.tcb = .thread id) :
    ∃ spot, l.Has id spot := by
  have hctl : l.debt sem = l.ctl.debt sem l.pc.curr := by
    rcases l.pc.debt_cases sem l.ctl.done with hslots | ⟨t, hslots⟩
    · simp only [CoreState.debt, hslots]
    · simp only [CoreState.debt, hslots, Debt.owed] at h
      cases h
  rw [hctl] at h
  cases hdebt : l.ctl.debt sem l.pc.curr with
  | deliver t =>
      rw [hdebt, Debt.owed, List.mem_singleton] at h
      rw [h] at htcb
      cases htcb
      exact ⟨.held, has_held (Ctl.hand_of_deliver hdebt)⟩
  | leave t =>
      rw [hdebt, Debt.owed, List.mem_singleton] at h
      rw [h] at htcb
      cases htcb
      exact ⟨.running, has_running (Ctl.curr_of_leave hdebt)⟩
  | _ =>
      rw [hdebt] at h
      cases h

theorem debt_of_ctl {pc : PerCore Core Sem} {ctl ctl' : Ctl Core Sem}
    (hdone : ctl'.done = ctl.done)
    (hdebt : ctl'.debt sem pc.curr = ctl.debt sem pc.curr) :
    (⟨pc, ctl'⟩ : CoreState Core Sem).debt sem =
      (⟨pc, ctl⟩ : CoreState Core Sem).debt sem := by
  simp only [CoreState.debt, hdone, hdebt]

theorem debt_clear {prev curr : Option (Tcb Core)} {ctl : Ctl Core Sem} :
    (⟨clear prev curr, ctl⟩ : CoreState Core Sem).debt sem =
      ctl.debt sem curr := by
  cases hdone : ctl.done <;> simp [CoreState.debt, PerCore.debt, clear, hdone]

/-- The debt of a core whose thread has blocked. -/
theorem debt_asks {t : Tcb Core} {sem' : Sem} {ctl : Ctl Core Sem}
    (hdone : ctl.done = .nothing)
    (hctl : ctl.debt sem (some (.idle c)) = .settled) :
    (⟨asks c t (.downRet sem'), ctl⟩ : CoreState Core Sem).debt sem =
      Debt.at sem' sem (.push t) := by
  simp only [CoreState.debt, PerCore.debt, asks, hdone, Option.elim_some]
  by_cases heq : sem' = sem
  · rw [heq, Debt.at_self]
  · rw [Debt.at_of_ne heq]
    exact hctl

theorem Silent.debt_eq (h : Silent c l l') : l'.debt sem = l.debt sem := by
  cases h with
  | go => exact debt_of_ctl rfl rfl
  | down => exact debt_of_ctl rfl rfl
  | toDelete => exact debt_of_ctl rfl rfl
  | noDelete _ => exact debt_of_ctl rfl rfl
  | toQueue => exact debt_of_ctl rfl rfl
  | noQueue _ => exact debt_of_ctl rfl rfl
  | toReschedule => exact debt_of_ctl rfl rfl
  | noReschedule _ => exact debt_of_ctl rfl rfl
  | _ => rfl

theorem Spins.debt_eq {pc : PerCore Core Sem} {ctl ctl' : Ctl Core Sem}
    {lock : Lock Sem} (h : Spins ctl lock ctl') :
    (⟨pc, ctl'⟩ : CoreState Core Sem).debt sem =
      (⟨pc, ctl⟩ : CoreState Core Sem).debt sem := by
  cases h with
  | heap op => cases op <;> exact debt_of_ctl rfl rfl
  | _ => exact debt_of_ctl rfl rfl

end

/-- Only the holder of the lock owes something. -/
theorem lock_mem_holds_of_debt (h : l.debt sem ≠ .settled) :
    .lock (.sem sem) ∈ l.holds := by
  simp only [CoreState.holds, Multiset.mem_add]
  by_cases hslots : l.pc.debt sem l.ctl.done = .settled
  · simp only [CoreState.debt, hslots] at h
    exact .inr (Ctl.lock_mem_holds h)
  · exact .inl (.inr (PerCore.lock_mem_slots hslots))

/-- The grant that an event completes. -/
def Event.pays (sem : Sem) : Event Core Sem → Option (Owed Core)
  | .downRet sem' t => if sem' = sem then some (.ret t) else none
  | .link q t => if q = .ready then some (.wake t) else none
  | _ => none

theorem Owed.next_quiet {event : Event Core Sem} {owed : List (Owed Core)}
    (hop : event.op sem = none) (hwakes : event.wakes sem = none)
    (hpays : ∀ paid, event.pays sem = some paid → paid ∉ owed) :
    Owed.next sem owed event = owed := by
  cases event with
  | pass sem' t => simp_all [Event.op, Owed.next]
  | downRet sem' t =>
      by_cases heq : sem' = sem
      · simp only [Owed.next, heq, ↓reduceIte]
        exact List.erase_of_not_mem (hpays _ (if_pos heq))
      · simp [Owed.next, heq]
  | unlink caller q t => simp_all [Event.wakes, Owed.next]
  | link q t =>
      by_cases heq : q = .ready
      · simp only [Owed.next, heq, ↓reduceIte]
        exact List.erase_of_not_mem (hpays _ (if_pos heq))
      · simp [Owed.next, heq]
  | _ => rfl

/-- What a move does to the semaphore `sem`. -/
inductive SemMove (sem : Sem) (s : Shared Core Sem) (l : CoreState Core Sem)
    (out : Outcome Core Sem) : Prop where
  | quiet (debt : out.core.debt sem = l.debt sem)
      (counter : out.shared.counter sem = s.counter sem)
      (event : ∀ event, out.event = some event → event.op sem = none ∧
        event.wakes sem = none ∧ (∀ t, event ≠ .link (.waiting sem) t) ∧
        ∀ paid, event.pays sem = some paid → l.debt sem = .settled ∧
          ∃ id spot, paid.tcb = .thread id ∧ l.Has id spot)
  | block (id : Nat) (ctl : l.ctl = .downHold sem)
      (settled : l.debt sem = .settled)
      (neg : int64 (s.counter sem - 1) < 0)
      (event : out.event = some (.block sem (.thread id)))
      (debt : out.core.debt sem = .push (.thread id))
      (counter : out.shared.counter sem = int64 (s.counter sem - 1))
  | pass (id : Nat) (ctl : l.ctl = .downHold sem)
      (settled : l.debt sem = .settled)
      (nonneg : ¬ int64 (s.counter sem - 1) < 0)
      (event : out.event = some (.pass sem (.thread id)))
      (debt : out.core.debt sem = .leave (.thread id))
      (counter : out.shared.counter sem = int64 (s.counter sem - 1))
  | upWakes (id : Nat) (ctl : l.ctl = .upHold sem)
      (settled : l.debt sem = .settled) (neg : s.counter sem < 0)
      (event : out.event = some (.up sem (.thread id) true))
      (debt : out.core.debt sem = .pop)
      (counter : out.shared.counter sem = int64 (s.counter sem + 1))
  | upFrees (id : Nat) (ctl : l.ctl = .upHold sem)
      (settled : l.debt sem = .settled) (nonneg : ¬ s.counter sem < 0)
      (event : out.event = some (.up sem (.thread id) false))
      (debt : out.core.debt sem = .settled)
      (counter : out.shared.counter sem = int64 (s.counter sem + 1))
  | link (t : Tcb Core) (owes : l.debt sem = .push t)
      (event : out.event = some (.link (.waiting sem) t))
      (debt : out.core.debt sem = .settled)
      (counter : out.shared.counter sem = s.counter sem)
  | unlink (caller t : Tcb Core) (owes : l.debt sem = .pop)
      (event : out.event = some (.unlink caller (.waiting sem) t))
      (debt : out.core.debt sem = .deliver t)
      (counter : out.shared.counter sem = s.counter sem)
  | deliver (t : Tcb Core) (owes : l.debt sem = .deliver t)
      (event : out.event = some (.link .ready t))
      (debt : out.core.debt sem = .settled)
      (counter : out.shared.counter sem = s.counter sem)
  | leave (t : Tcb Core) (owes : l.debt sem = .leave t)
      (event : out.event = some (.downRet sem t))
      (debt : out.core.debt sem = .settled)
      (counter : out.shared.counter sem = s.counter sem)
  | empty (owes : l.debt sem = .pop)
      (empty : s.unlink (.waiting sem) = none)

section

omit [DecidableEq Core]

/-- Events that no semaphore takes notice of. -/
theorem SemMove.plain {event : Event Core Sem}
    (hevent : out.event = some event)
    (hdebt : out.core.debt sem = l.debt sem)
    (hcounter : out.shared.counter sem = s.counter sem)
    (hop : event.op sem = none) (hwakes : event.wakes sem = none)
    (hlink : ∀ t, event ≠ .link (.waiting sem) t)
    (hpays : event.pays sem = none) : SemMove sem s l out := by
  refine .quiet hdebt hcounter fun event' hevent' => ?_
  rw [hevent] at hevent'
  cases hevent'
  refine ⟨hop, hwakes, hlink, fun paid hpaid => ?_⟩
  rw [hpays] at hpaid
  cases hpaid

theorem counter_setCounter_of_ne {sem' : Sem} (hne : sem' ≠ sem)
    (value : Int) : (s.setCounter sem' value).counter sem = s.counter sem :=
  Function.update_of_ne (Ne.symm hne) _ _

/-- Linking a thread concerns the semaphore whose queue it goes to, the one it
was woken from, and no other. -/
theorem link_semMove {idleSp : Resume Sem} {pc : PerCore Core Sem}
    {q : QueueId Sem} {node : Nat} {value : Tcb Core} {site : PushSite Sem}
    (hok : PushOk c idleSp pc q value site) (sem : Sem) :
    SemMove sem s ⟨pc, .pushHold q node value site⟩
      ⟨some (.link q value), ⟨pc, pushReturn site⟩,
        (s.link q node).release (.queue q)⟩ := by
  have hready : ∀ {id : Nat} {site : PushSite Sem} (spot : Spot),
      (⟨pc, .pushHold .ready node (.thread id) site⟩ :
        CoreState Core Sem).Has id spot →
      (⟨pc, .pushHold .ready node (.thread id) site⟩ :
        CoreState Core Sem).debt sem = .settled →
      (⟨pc, pushReturn site⟩ : CoreState Core Sem).debt sem = .settled →
      SemMove sem s ⟨pc, .pushHold .ready node (.thread id) site⟩
        ⟨some (.link .ready (.thread id)), ⟨pc, pushReturn site⟩,
          (s.link .ready node).release (.queue .ready)⟩ := by
    intro id site spot hhas hbefore hafter
    refine .quiet (hafter.trans hbefore.symm) rfl fun event hevent => ?_
    cases hevent
    refine ⟨rfl, rfl, nofun, fun paid hpaid => ⟨hbefore, id, spot, ?_, hhas⟩⟩
    cases hpaid
    rfl
  cases site with
  | go =>
      obtain ⟨rfl, ⟨id, rfl⟩, hfore⟩ := hok
      obtain ⟨prev, curr, rfl⟩ := Fore.isClear hfore
      refine hready .held (has_held rfl) ?_ ?_
      · rw [debt_clear]
        rfl
      · rw [debt_clear]
        rfl
  | up sem' =>
      obtain ⟨rfl, ⟨id, rfl⟩, -, prev, id', rfl⟩ := hok
      by_cases heq : sem' = sem
      · subst heq
        refine .deliver (.thread id) ?_ rfl ?_ rfl
        · rw [debt_clear]
          exact Debt.at_self _ _
        · rw [debt_clear]
          rfl
      · refine hready .held (has_held rfl) ?_ ?_
        · rw [debt_clear]
          exact Debt.at_of_ne heq _
        · rw [debt_clear]
          rfl
  | deferred =>
      obtain ⟨id, sem', rfl, rfl, rfl⟩ := hok
      by_cases heq : sem' = sem
      · subst heq
        refine .link (.thread id) ?_ rfl rfl rfl
        rw [debt_asks rfl rfl]
        exact Debt.at_self _ _
      · refine .plain rfl ?_ rfl rfl rfl ?_ rfl
        · exact ((debt_asks rfl rfl).trans (Debt.at_of_ne heq _)).symm
        · intro t hlink
          cases hlink
          exact heq rfl
  | reschedule =>
      obtain ⟨id, rfl, rfl, rfl⟩ := hok
      exact hready .toReschedule
        ⟨rfl, by simp [Ctl.done, Done.carriedOut]⟩ rfl rfl

end

theorem Move.semMove {idleSp : Resume Sem} (h : Move c s l out)
    (hok : CtlOk c idleSp l.pc l.ctl) (sem : Sem) : SemMove sem s l out := by
  cases h with
  | silent hsilent => exact .quiet hsilent.debt_eq rfl nofun
  | spin hspins _ => exact .quiet hspins.debt_eq rfl nofun
  | @fail pc op hallocates =>
      cases op <;> first
        | exact .quiet (debt_of_ctl rfl rfl) rfl nofun
        | cases hallocates
  | newStack _ => exact .quiet (debt_of_ctl rfl rfl) rfl nofun
  | newTcb _ =>
      exact .plain rfl (debt_of_ctl rfl rfl) rfl rfl rfl nofun rfl
  | newNode _ => exact .quiet (debt_of_ctl rfl rfl) rfl nofun
  | dispatch => exact .quiet rfl rfl nofun
  | granted => exact .quiet (debt_of_ctl rfl rfl) rfl nofun
  | deleteStack => exact .plain rfl rfl rfl rfl rfl nofun rfl
  | deleteTcb => exact .plain rfl rfl rfl rfl rfl nofun rfl
  | link => exact link_semMove hok sem
  | @popEmpty pc site hempty =>
      cases site with
      | next => exact .quiet (debt_of_ctl rfl rfl) rfl nofun
      | up sem' =>
          obtain ⟨-, prev, id, rfl⟩ := hok
          by_cases heq : sem' = sem
          · subst heq
            exact .empty (by rw [debt_clear]; exact Debt.at_self _ _) hempty
          · refine .quiet ?_ rfl nofun
            rw [debt_clear, debt_clear]
            exact (Debt.at_of_ne heq _).symm
  | @unlink pc site caller node rest hcurr hfound =>
      obtain ⟨left, -, rfl⟩ := unlink_eq hfound
      cases site with
      | next =>
          exact .plain rfl (debt_of_ctl rfl rfl) rfl rfl rfl nofun rfl
      | up sem' =>
          obtain ⟨-, prev, id, rfl⟩ := hok
          by_cases heq : sem' = sem
          · subst heq
            refine .unlink caller _ ?_ rfl ?_ rfl
            · rw [debt_clear]
              exact Debt.at_self _ _
            · rw [debt_clear]
              exact Debt.at_self _ _
          · refine .plain rfl ?_ rfl rfl (if_neg ?_) nofun rfl
            · rw [debt_clear, debt_clear]
              exact (Debt.at_of_ne heq _).trans (Debt.at_of_ne heq _).symm
            · intro hqueue
              cases hqueue
              exact heq rfl
  | @block prev id sem' hneg =>
      by_cases heq : sem' = sem
      · subst heq
        refine .block id rfl (by rw [debt_clear]; rfl) hneg rfl ?_
          (Function.update_self _ _ _)
        rw [debt_asks rfl rfl]
        exact Debt.at_self _ _
      · refine .plain rfl ?_ (counter_setCounter_of_ne heq _) (if_neg heq) rfl
          nofun rfl
        rw [debt_asks rfl rfl, debt_clear]
        exact Debt.at_of_ne heq _
  | @pass prev id sem' hnonneg =>
      by_cases heq : sem' = sem
      · subst heq
        refine .pass id rfl (by rw [debt_clear]; rfl) hnonneg rfl ?_
          (Function.update_self _ _ _)
        rw [debt_clear]
        exact Debt.at_self _ _
      · refine .plain rfl ?_ (counter_setCounter_of_ne heq _) (if_neg heq) rfl
          nofun rfl
        rw [debt_clear, debt_clear]
        exact Debt.at_of_ne heq _
  | @downUnlock prev id sem' =>
      by_cases heq : sem' = sem
      · subst heq
        refine .leave (.thread id) ?_ rfl ?_ rfl
        · rw [debt_clear]
          exact Debt.at_self _ _
        · rw [debt_clear]
          rfl
      · refine .plain rfl ?_ rfl rfl rfl nofun (if_neg heq)
        rw [debt_clear, debt_clear]
        exact (Debt.at_of_ne heq _).symm
  | @downReturn prev id sem' =>
      by_cases heq : sem' = sem
      · subst heq
        refine .quiet (by rw [debt_clear, debt_clear]; rfl) rfl ?_
        intro event hevent
        cases hevent
        refine ⟨rfl, rfl, nofun, fun paid hpaid => ?_⟩
        rw [Event.pays, if_pos rfl] at hpaid
        cases hpaid
        exact ⟨by rw [debt_clear]; rfl, id, .running, rfl, has_running rfl⟩
      · refine .plain rfl ?_ rfl rfl rfl nofun (if_neg heq)
        rw [debt_clear, debt_clear]
        rfl
  | callUp => exact .plain rfl rfl rfl rfl rfl nofun rfl
  | @upWakes prev id sem' hneg =>
      by_cases heq : sem' = sem
      · subst heq
        refine .upWakes id rfl (by rw [debt_clear]; rfl) hneg rfl ?_
          (Function.update_self _ _ _)
        rw [debt_clear]
        exact Debt.at_self _ _
      · refine .plain rfl ?_ (counter_setCounter_of_ne heq _) (if_neg heq) rfl
          nofun rfl
        rw [debt_clear, debt_clear]
        exact Debt.at_of_ne heq _
  | @upFrees prev id sem' hnonneg =>
      by_cases heq : sem' = sem
      · subst heq
        exact .upFrees id rfl (by rw [debt_clear]; rfl) hnonneg rfl
          (by rw [debt_clear]; rfl) (Function.update_self _ _ _)
      · exact .plain rfl (by rw [debt_clear, debt_clear]; rfl)
          (counter_setCounter_of_ne heq _) (if_neg heq) rfl nofun rfl
  | upUnlock => exact .quiet (debt_of_ctl rfl rfl) rfl nofun
  | stop => exact .plain rfl rfl rfl rfl rfl nofun rfl
  | saveThread hleaves =>
      exact .plain rfl (debt_of_ctl rfl rfl) rfl rfl rfl nofun rfl
  | saveIdle => exact .plain rfl rfl rfl rfl rfl nofun rfl
  | loadEntry _ => exact .plain rfl rfl rfl rfl rfl nofun rfl
  | loadIdle _ _ =>
      exact .plain rfl (debt_of_ctl rfl rfl) rfl rfl rfl nofun rfl
  | loadThread _ => exact .plain rfl rfl rfl rfl rfl nofun rfl
  | loadDown _ => exact .plain rfl rfl rfl rfl rfl nofun rfl
  | unlock => exact .quiet rfl rfl nofun

end Core

/-- The threads in the queue of `sem`. -/
def Machine.waiting (m : Machine Core Sem) (items : QueueId Sem → List Nat)
    (sem : Sem) : List (Tcb Core) :=
  (items (.waiting sem)).map fun node => (m.shared.cells node).value

/-- What is left to do for `sem`, by whichever core. -/
def Owing (m : Machine Core Sem) (sem : Sem) (debt : Debt Core) : Prop :=
  (∀ c, (m.cores c).debt sem = .settled ∨ (m.cores c).debt sem = debt) ∧
    (debt = .settled ∨ ∃ c, (m.cores c).debt sem = debt)

/-- The semaphore implements the abstract one. -/
structure SemInv (cnt : Nat) (past : List (Event Core Sem))
    (m : Machine Core Sem) (items : QueueId Sem → List Nat) (sem : Sem) :
    Prop where
  room : m.shared.blocks.length ≤ maxBlocks
  below : m.shared.counter sem < 2 ^ 63
  calm : ∀ c, (m.cores c).ctl ≠ .upPanic sem
  agrees : ∃ debt, Owing m sem debt ∧
    Agrees cnt past sem (m.shared.counter sem) (m.waiting items sem) debt

section Step

variable {m : Machine Core Sem} {items : QueueId Sem → List Nat} {c : Core}
  {out : Outcome Core Sem} {past : List (Event Core Sem)} {sem : Sem}
  {cnt : Nat} {debt : Debt Core} {t : Tcb Core}

theorem Inv.debt_settled (h : Inv m items)
    (hlock : .lock (.sem sem) ∈ (m.cores c).holds) {c' : Core}
    (hne : c' ≠ c) : (m.cores c').debt sem = .settled := by
  by_contra hdebt
  have heq := h.books.home_unique (a := .core c) (b := .core c') hlock
    (lock_mem_holds_of_debt hdebt)
  cases heq
  exact hne rfl

/-- The holder of the lock is the one who owes. -/
theorem Owing.eq_of_holder (h : Owing m sem debt) (hinv : Inv m items)
    (hlock : .lock (.sem sem) ∈ (m.cores c).holds) :
    debt = (m.cores c).debt sem := by
  rcases h.2 with rfl | ⟨c', hdebt⟩
  · rcases h.1 c with heq | heq <;> exact heq.symm
  · by_cases hcore : c' = c
    · rw [← hcore]
      exact hdebt.symm
    · rw [hinv.debt_settled hlock hcore] at hdebt
      subst hdebt
      rcases h.1 c with heq | heq <;> exact heq.symm

theorem owing_after (hinv : Inv m items)
    (hlock : .lock (.sem sem) ∈ (m.cores c).holds) :
    Owing (m.after c out) sem (out.core.debt sem) := by
  refine ⟨fun c' => ?_, .inr ⟨c, by rw [after_core_self]⟩⟩
  by_cases hcore : c' = c
  · right
    rw [hcore, after_core_self]
  · left
    rw [after_core_of_ne hcore]
    exact hinv.debt_settled hlock hcore

theorem Owing.quiet (h : Owing m sem debt)
    (hdebt : out.core.debt sem = (m.cores c).debt sem) :
    Owing (m.after c out) sem debt := by
  have hsame : ∀ c', ((m.after c out).cores c').debt sem =
      (m.cores c').debt sem := by
    intro c'
    by_cases hcore : c' = c
    · rw [hcore, after_core_self, hdebt]
    · rw [after_core_of_ne hcore]
  exact ⟨fun c' => by rw [hsame]; exact h.1 c',
    h.2.imp_right fun ⟨c', hc'⟩ => ⟨c', by rw [hsame]; exact hc'⟩⟩

/-- The queue of `sem` after a move. -/
theorem Inv.waiting_kept (h : Inv m items)
    (hmove : Move c m.shared (m.cores c) out)
    (hitems : itemsAfter (m.cores c).ctl items (.waiting sem) =
      items (.waiting sem)) :
    (m.after c out).waiting (itemsAfter (m.cores c).ctl items) sem =
      m.waiting items sem := by
  simp only [Machine.waiting, hitems]
  refine List.map_congr_left fun node hnode => ?_
  exact hmove.value_eq (h.ne_nextId (h.amount_of_queued hnode))

theorem Inv.waiting_of_link (h : Inv m items)
    (hmove : Move c m.shared (m.cores c) out)
    (hevent : out.event = some (.link (.waiting sem) t)) :
    (m.after c out).waiting (itemsAfter (m.cores c).ctl items) sem =
      m.waiting items sem ++ [t] := by
  rcases hmove.queue_cases with ⟨q, node, value, site, hctl, hout⟩ |
    ⟨site, caller, node, rest, -, -, -, hout⟩ | hkept
  · rw [hout] at hevent
    cases hevent
    have hnew : itemsAfter (m.cores c).ctl items (.waiting sem) =
        items (.waiting sem) ++ [node] := by
      simp [itemsAfter, hctl]
    have hlinks : (m.cores c).ctl.links = some (node, t) := by
      rw [hctl]
      rfl
    have hone := h.amount_of_held c (node_mem_holds_of_links hlinks)
    simp only [Machine.waiting, hnew, List.map_append, List.map_cons,
      List.map_nil]
    congr 1
    · refine List.map_congr_left fun node hnode => ?_
      exact hmove.value_eq (h.ne_nextId (h.amount_of_queued hnode))
    · change [(out.shared.cells node).value] = [t]
      rw [hmove.value_eq (h.ne_nextId hone), h.cells c node t hlinks]
  · rw [hout] at hevent
    cases hevent
  · exact absurd hevent (hkept.link _ _)

theorem Inv.waiting_of_unlink (h : Inv m items)
    (hmove : Move c m.shared (m.cores c) out) {caller : Tcb Core}
    (hevent : out.event = some (.unlink caller (.waiting sem) t)) :
    m.waiting items sem =
      t :: (m.after c out).waiting (itemsAfter (m.cores c).ctl items) sem := by
  rcases hmove.queue_cases with ⟨q, node, value, site, -, hout⟩ |
    ⟨site, caller, node, rest, hctl, -, hfound, hout⟩ | hkept
  · rw [hout] at hevent
    cases hevent
  · obtain ⟨left, tail, hitems, -, -⟩ := h.unlink_spec hfound
    rw [hout] at hevent
    simp only [Option.some.injEq, Event.unlink.injEq] at hevent
    obtain ⟨-, hqueue, hvalue⟩ := hevent
    rw [hqueue] at hitems
    have hrest : itemsAfter (m.cores c).ctl items (.waiting sem) = tail := by
      simp [itemsAfter, hctl, hqueue, hitems]
    simp only [Machine.waiting, hrest, hitems, List.map_cons, hvalue]
    congr 1
    refine List.map_congr_left fun node' hnode => ?_
    have hmem : node' ∈ items (.waiting sem) := by
      rw [hitems]
      exact List.mem_cons_of_mem _ hnode
    exact (hmove.value_eq (h.ne_nextId (h.amount_of_queued hmem))).symm
  · exact absurd hevent (hkept.unlink _ _ _)

theorem Inv.waiting_of_other (h : Inv m items)
    (hmove : Move c m.shared (m.cores c) out)
    (hlink : ∀ t, out.event ≠ some (.link (.waiting sem) t))
    (hunlink : ∀ caller t, out.event ≠ some (.unlink caller (.waiting sem) t)) :
    (m.after c out).waiting (itemsAfter (m.cores c).ctl items) sem =
      m.waiting items sem := by
  refine h.waiting_kept hmove ?_
  rcases hmove.queue_cases with ⟨q, node, value, site, hctl, hout⟩ |
    ⟨site, caller, node, rest, hctl, -, -, hout⟩ | hkept
  · rw [hout] at hlink
    have hne : .waiting sem ≠ q := by
      rintro rfl
      exact hlink _ rfl
    simp [itemsAfter, hctl, hne]
  · rw [hout] at hunlink
    have hne : .waiting sem ≠ site.queue := by
      intro heq
      rw [← heq] at hunlink
      exact hunlink _ _ rfl
    simp [itemsAfter, hctl, hne]
  · rw [hkept.itemsAfter_eq h]

theorem int64_of_range {n : Int} (hlow : -2 ^ 63 ≤ n) (hhigh : n < 2 ^ 63) :
    int64 n = n := by
  unfold int64
  rw [Int.bmod_eq_of_le]
  · omega
  · omega

theorem maxBlocks_lt : (maxBlocks : Int) < 2 ^ 63 := by
  decide

theorem Move.blocks_length {s : Shared Core Sem} {l : CoreState Core Sem}
    (h : Move c s l out) (hroom : s.blocks.length ≤ maxBlocks) :
    out.shared.blocks.length ≤ maxBlocks := by
  have herase : ∀ block, (s.blocks.erase block).length ≤ maxBlocks :=
    fun block => (List.length_erase_le).trans hroom
  cases h with
  | newStack hfits => exact hfits
  | newTcb hfits => exact hfits
  | newNode hfits => exact hfits
  | dispatch => exact herase _
  | granted => exact herase _
  | deleteStack => exact herase _
  | deleteTcb => exact herase _
  | unlink _ hfound =>
      obtain ⟨left, -, rfl⟩ := unlink_eq hfound
      exact hroom
  | _ => exact hroom

/-- Each thread in a queue is in a heap block of its own. -/
theorem Inv.waiting_length (h : Inv m items)
    (hroom : m.shared.blocks.length ≤ maxBlocks) (sem : Sem) :
    (m.waiting items sem).length ≤ maxBlocks := by
  have hnodup :
      ((items (.waiting sem)).map (Block.node : Nat → Block Core)).Nodup :=
    (h.linked (.waiting sem)).nodup.map fun _ _ heq => by cases heq; rfl
  have hsub : (items (.waiting sem)).map Block.node ⊆ m.shared.blocks := by
    intro block hblock
    obtain ⟨node, hnode, rfl⟩ := List.mem_map.mp hblock
    have hone : m.shared.blocks.count (.node node) = 1 :=
      h.amount_of_queued hnode
    exact List.count_pos_iff.mp (by omega)
  have hle := (List.subperm_of_subset hnodup hsub).length_le
  rw [List.length_map] at hle
  rw [Machine.waiting, List.length_map]
  omega

section

omit [DecidableEq Core] [DecidableEq Sem]

theorem mem_holds_of_ctl {l : CoreState Core Sem} {r : Resource Sem}
    (h : r ∈ l.ctl.holds) : r ∈ l.holds :=
  Multiset.mem_add.mpr (.inr h)

end

theorem Inv.waiting_of_event (h : Inv m items)
    (hmove : Move c m.shared (m.cores c) out) {event : Event Core Sem}
    (hevent : out.event = some event) (hwakes : event.wakes sem = none)
    (hlink : ∀ t, event ≠ .link (.waiting sem) t) :
    (m.after c out).waiting (itemsAfter (m.cores c).ctl items) sem =
      m.waiting items sem := by
  refine h.waiting_of_other hmove (fun t hlinked => ?_)
    fun caller t hunlinked => ?_
  · rw [hevent] at hlinked
    exact hlink t (Option.some.inj hlinked)
  · rw [hevent] at hunlinked
    cases hunlinked
    simp [Event.wakes] at hwakes

/-- The holder of the lock knows how far the queue is behind. -/
theorem SemInv.agrees_holder (h : SemInv cnt past m items sem)
    (hinv : Inv m items) (hlock : .lock (.sem sem) ∈ (m.cores c).holds) :
    Agrees cnt past sem (m.shared.counter sem) (m.waiting items sem)
      ((m.cores c).debt sem) := by
  obtain ⟨debt, howing, hagrees⟩ := h.agrees
  rw [← howing.eq_of_holder hinv hlock]
  exact hagrees

/-- No more threads wait than there are heap blocks. -/
theorem SemInv.counter_ge (h : SemInv cnt past m items sem)
    (hinv : Inv m items)
    (hagrees : Agrees cnt past sem (m.shared.counter sem)
      (m.waiting items sem) .settled) :
    -(maxBlocks : Int) ≤ m.shared.counter sem := by
  have hlength := hinv.waiting_length h.room sem
  rw [hagrees.counter, ← (hagrees.queue_eq rfl rfl).2]
  omega

theorem SemInv.agrees_settled (h : SemInv cnt past m items sem)
    (hinv : Inv m items) (hlock : .lock (.sem sem) ∈ (m.cores c).ctl.holds)
    (hsettled : (m.cores c).debt sem = .settled) :
    Agrees cnt past sem (m.shared.counter sem) (m.waiting items sem) .settled ∧
      -(maxBlocks : Int) ≤ m.shared.counter sem := by
  have hagrees := h.agrees_holder hinv (mem_holds_of_ctl hlock)
  rw [hsettled] at hagrees
  exact ⟨hagrees, h.counter_ge hinv hagrees⟩

theorem SemInv.agrees_owes (h : SemInv cnt past m items sem)
    (hinv : Inv m items) (howes : (m.cores c).debt sem = debt)
    (hne : debt ≠ .settled) :
    .lock (.sem sem) ∈ (m.cores c).holds ∧
      Agrees cnt past sem (m.shared.counter sem) (m.waiting items sem)
        debt := by
  subst howes
  have hmem := lock_mem_holds_of_debt hne
  exact ⟨hmem, h.agrees_holder hinv hmem⟩

theorem Move.empty_of_upPanic {s : Shared Core Sem} {l : CoreState Core Sem}
    (h : Move c s l out) (hpanic : out.core.ctl = .upPanic sem) :
    l.ctl = .popHold (.up sem) ∧ s.unlink (.waiting sem) = none := by
  cases h with
  | silent hsilent => cases hsilent <;> cases hpanic
  | spin hspins _ => cases hspins <;> cases hpanic
  | @link pc q node value site => cases site <;> cases hpanic
  | @popEmpty pc site hempty =>
      cases site <;> cases hpanic
      exact ⟨rfl, hempty⟩
  | _ => cases hpanic

section

omit [DecidableEq Core]

theorem debt_of_popHold {l : CoreState Core Sem} {idleSp : Resume Sem}
    (hok : CtlOk c idleSp l.pc l.ctl) (hctl : l.ctl = .popHold (.up sem)) :
    l.debt sem = .pop := by
  obtain ⟨pc, ctl⟩ := l
  subst hctl
  obtain ⟨-, prev, id, rfl⟩ := hok
  rw [debt_clear]
  exact Debt.at_self _ _

end

/-- A pop that finds the queue empty is not one that `up` asked for. -/
theorem SemInv.ne_empty (h : SemInv cnt past m items sem) (hinv : Inv m items)
    (hdebt : (m.cores c).debt sem = .pop) :
    m.shared.unlink (.waiting sem) ≠ none := by
  intro hempty
  obtain ⟨-, hagrees⟩ := h.agrees_owes hinv hdebt nofun
  refine hagrees.pop_ne_nil ?_
  rw [Machine.waiting, hinv.items_nil hempty, List.map_nil]

theorem SemInv.calm_step (h : SemInv cnt past m items sem) (hinv : Inv m items)
    (hmove : Move c m.shared (m.cores c) out) (c' : Core) :
    ((m.after c out).cores c').ctl ≠ .upPanic sem := by
  by_cases hcore : c' = c
  · subst hcore
    rw [after_core_self]
    intro hpanic
    obtain ⟨hctl, hempty⟩ := hmove.empty_of_upPanic hpanic
    exact h.ne_empty hinv (debt_of_popHold (hinv.ctl c') hctl) hempty
  · rw [after_core_of_ne hcore]
    exact h.calm c'

theorem SemInv.after (h : SemInv cnt past m items sem) (hinv : Inv m items)
    (hmove : Move c m.shared (m.cores c) out)
    (hlock : .lock (.sem sem) ∈ (m.cores c).holds) {counter : Int}
    (hcounter : out.shared.counter sem = counter) (hbelow : counter < 2 ^ 63)
    {event : Event Core Sem} (hevent : out.event = some event)
    (hdebt : out.core.debt sem = debt)
    (hagrees : Agrees cnt (past ++ [event]) sem counter
      ((m.after c out).waiting (itemsAfter (m.cores c).ctl items) sem) debt) :
    SemInv cnt (past ++ out.event.toList) (m.after c out)
      (itemsAfter (m.cores c).ctl items) sem := by
  subst hcounter hdebt
  rw [hevent]
  exact ⟨hmove.blocks_length h.room, hbelow, h.calm_step hinv hmove, _,
    owing_after hinv hlock, hagrees⟩

/-- A move that does not concern the semaphore. -/
theorem SemInv.quiet (h : SemInv cnt past m items sem) (hinv : Inv m items)
    (hmove : Move c m.shared (m.cores c) out)
    (hdebt : out.core.debt sem = (m.cores c).debt sem)
    (hcounter : out.shared.counter sem = m.shared.counter sem)
    (hquiet : ∀ event, out.event = some event → event.op sem = none ∧
      event.wakes sem = none ∧ (∀ t, event ≠ .link (.waiting sem) t) ∧
      ∀ paid, event.pays sem = some paid → (m.cores c).debt sem = .settled ∧
        ∃ id spot, paid.tcb = .thread id ∧ (m.cores c).Has id spot) :
    SemInv cnt (past ++ out.event.toList) (m.after c out)
      (itemsAfter (m.cores c).ctl items) sem := by
  obtain ⟨debt, howing, hagrees⟩ := h.agrees
  refine ⟨hmove.blocks_length h.room, hcounter.trans_lt h.below,
    h.calm_step hinv hmove, debt, howing.quiet hdebt, ?_⟩
  change Agrees _ _ _ (out.shared.counter sem) _ _
  rw [hcounter]
  cases hevent : out.event with
  | none =>
      rw [hinv.waiting_of_other hmove (by rw [hevent]; exact nofun)
        (by rw [hevent]; exact nofun), Option.toList_none, List.append_nil]
      exact hagrees
  | some event =>
      obtain ⟨hop, hwakes, hlink, hpays⟩ := hquiet event hevent
      rw [hinv.waiting_of_event hmove hevent hwakes hlink]
      refine hagrees.other hop (by rw [hwakes]; rfl)
        (by rw [hwakes]; exact Nat.zero_add _) id
        (Owed.next_quiet hop hwakes fun paid hpaid howed => ?_)
      obtain ⟨hsettled, id, spot, htcb, hhas⟩ := hpays paid hpaid
      rcases howing.2 with rfl | ⟨c', hdebt'⟩
      · cases howed
      · rw [← hdebt'] at howed
        obtain ⟨spot', hhas'⟩ := has_of_owed howed htcb
        have hplace := hinv.place_unique
          (show m.At id (.core c spot) from hhas)
          (show m.At id (.core c' spot') from hhas')
        cases hplace
        rw [hsettled] at howed
        cases howed

/-- A move keeps the agreement, as long as no `up` overflows the counter. -/
theorem SemInv.move (h : SemInv cnt past m items sem) (hinv : Inv m items)
    (hmove : Move c m.shared (m.cores c) out)
    (hup : (m.cores c).ctl = .upHold sem →
      m.shared.counter sem < 2 ^ 63 - 1) :
    SemInv cnt (past ++ out.event.toList) (m.after c out)
      (itemsAfter (m.cores c).ctl items) sem := by
  have hmax := maxBlocks_lt
  have hbelow := h.below
  cases hmove.semMove (hinv.ctl c) sem with
  | quiet hdebt hcounter hquiet => exact h.quiet hinv hmove hdebt hcounter hquiet
  | block id hctl hsettled hneg hevent hdebt hcounter =>
      have hlock : .lock (.sem sem) ∈ (m.cores c).ctl.holds := by
        rw [hctl]
        simp [Ctl.holds]
      obtain ⟨hagrees, hge⟩ := h.agrees_settled hinv hlock hsettled
      rw [int64_of_range (by omega) (by omega)] at hneg hcounter
      refine h.after hinv hmove (mem_holds_of_ctl hlock) hcounter (by omega)
        hevent hdebt ?_
      rw [hinv.waiting_of_event hmove hevent rfl (by simp)]
      exact hagrees.block hneg _
  | pass id hctl hsettled hnonneg hevent hdebt hcounter =>
      have hlock : .lock (.sem sem) ∈ (m.cores c).ctl.holds := by
        rw [hctl]
        simp [Ctl.holds]
      obtain ⟨hagrees, hge⟩ := h.agrees_settled hinv hlock hsettled
      rw [int64_of_range (by omega) (by omega)] at hnonneg hcounter
      refine h.after hinv hmove (mem_holds_of_ctl hlock) hcounter (by omega)
        hevent hdebt ?_
      rw [hinv.waiting_of_event hmove hevent rfl (by simp)]
      exact hagrees.pass hnonneg _
  | upWakes id hctl hsettled hneg hevent hdebt hcounter =>
      have hlock : .lock (.sem sem) ∈ (m.cores c).ctl.holds := by
        rw [hctl]
        simp [Ctl.holds]
      obtain ⟨hagrees, hge⟩ := h.agrees_settled hinv hlock hsettled
      rw [int64_of_range (by omega) (by omega)] at hcounter
      refine h.after hinv hmove (mem_holds_of_ctl hlock) hcounter (by omega)
        hevent hdebt ?_
      rw [hinv.waiting_of_event hmove hevent rfl (by simp)]
      exact hagrees.upWakes hneg _
  | upFrees id hctl hsettled hnonneg hevent hdebt hcounter =>
      have hlock : .lock (.sem sem) ∈ (m.cores c).ctl.holds := by
        rw [hctl]
        simp [Ctl.holds]
      obtain ⟨hagrees, hge⟩ := h.agrees_settled hinv hlock hsettled
      have hup := hup hctl
      rw [int64_of_range (by omega) (by omega)] at hcounter
      refine h.after hinv hmove (mem_holds_of_ctl hlock) hcounter (by omega)
        hevent hdebt ?_
      rw [hinv.waiting_of_event hmove hevent rfl (by simp)]
      exact hagrees.upFrees (by omega) _
  | link t howes hevent hdebt hcounter =>
      obtain ⟨hmem, hagrees⟩ := h.agrees_owes hinv howes (by simp)
      refine h.after hinv hmove hmem hcounter hbelow hevent hdebt ?_
      rw [hinv.waiting_of_link hmove hevent]
      exact hagrees.other rfl (by simp [Event.wakes, Debt.pushed]) rfl (by simp) rfl
  | unlink caller t howes hevent hdebt hcounter =>
      obtain ⟨hmem, hagrees⟩ := h.agrees_owes hinv howes (by simp)
      rw [hinv.waiting_of_unlink hmove hevent] at hagrees
      refine h.after hinv hmove hmem hcounter hbelow hevent hdebt ?_
      exact hagrees.other rfl (by simp [Event.wakes, Debt.pushed])
        (by simp [Event.wakes, Debt.pops]) (by simp)
        (by simp [Owed.next, Debt.owed])
  | deliver t howes hevent hdebt hcounter =>
      obtain ⟨hmem, hagrees⟩ := h.agrees_owes hinv howes (by simp)
      refine h.after hinv hmove hmem hcounter hbelow hevent hdebt ?_
      rw [hinv.waiting_of_event hmove hevent rfl (by simp)]
      exact hagrees.other rfl rfl rfl (by simp) (by simp [Owed.next, Debt.owed])
  | leave t howes hevent hdebt hcounter =>
      obtain ⟨hmem, hagrees⟩ := h.agrees_owes hinv howes (by simp)
      refine h.after hinv hmove hmem hcounter hbelow hevent hdebt ?_
      rw [hinv.waiting_of_event hmove hevent rfl (by simp)]
      exact hagrees.other rfl rfl rfl (by simp) (by simp [Owed.next, Debt.owed])
  | empty howes hempty => exact absurd hempty (h.ne_empty hinv howes)

theorem semInv_initial (cnt : Sem → Int) (hcnt : 0 ≤ cnt sem)
    (hmax : cnt sem < 2 ^ 63) :
    SemInv (cnt sem).toNat [] (initial cnt : Machine Core Sem) (fun _ => [])
      sem where
  room := Nat.zero_le _
  below := hmax
  calm := nofun
  agrees := by
    refine ⟨.settled, ⟨fun _ => .inl rfl, .inl rfl⟩, ?_⟩
    have hagrees : Agrees (cnt sem).toNat ([] : List (Event Core Sem)) sem
        (cnt sem).toNat [] .settled := agrees_nil _ _
    rw [Int.toNat_of_nonneg hcnt] at hagrees
    exact hagrees

end Step

end Threads

end IntroOs
