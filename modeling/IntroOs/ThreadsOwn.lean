/-
Who holds what in the thread system.  Every spinlock that is taken, every
stack, TCB and queue node that is allocated is held by one core or linked in
one queue; each step keeps the books exact.
-/
import Mathlib.Algebra.Order.Group.Multiset
import Mathlib.Tactic.Abel
import IntroOs.Holdings
import IntroOs.ThreadsShape

namespace IntroOs

namespace Threads

/-- The things that have one holder: a taken lock, the TCB and the stack of a
thread, and a queue node. -/
inductive Resource (Sem : Type) where
  | lock (lock : Lock Sem)
  | tcb (id : Nat)
  | stack (id : Nat)
  | node (id : Nat)
deriving DecidableEq

variable {Core Sem : Type} [DecidableEq Core] [DecidableEq Sem]

/-- A thread with its stack.  Idle TCBs stay with their core and are not
accounted for. -/
def whole : Tcb Core → Multiset (Resource Sem)
  | .idle _ => 0
  | .thread id => {.tcb id} + {.stack id}

def PopSite.holds : PopSite Sem → Multiset (Resource Sem)
  | .next => 0
  | .up sem => {.lock (.sem sem)}

/-- What a `push` has in its hands.  A deferred push leaves its thread in the
slot it was requested in. -/
def PushSite.holds (value : Tcb Core) : PushSite Sem → Multiset (Resource Sem)
  | .go => whole value
  | .up sem => whole value + {.lock (.sem sem)}
  | .deferred => 0
  | .reschedule => 0

def HeapOp.holds : HeapOp Core Sem → Multiset (Resource Sem)
  | .newStack => 0
  | .newTcb id => {.stack id}
  | .newNode _ value site => site.holds value
  | .deleteNode node value site => {.node node} + whole value + site.holds
  | .deleteStack _ => 0
  | .deleteTcb _ => 0

/-- What a core holds by being where it is in the code. -/
def Ctl.holds : Ctl Core Sem → Multiset (Resource Sem)
  | .heapWait op => op.holds
  | .heapHold op => op.holds + {.lock .heap}
  | .outOfMemory op => op.holds
  | .pushWait _ node value site => {.node node} + site.holds value
  | .pushHold q node value site =>
      {.node node} + site.holds value + {.lock (.queue q)}
  | .popWait site => site.holds
  | .popHold site => site.holds + {.lock (.queue site.queue)}
  | .downHold sem | .downUnlock sem | .upHold sem | .upUnlock sem
  | .upPanic sem => {.lock (.sem sem)}
  | _ => 0

/-- How far the idle loop is with the hand-off that was requested. -/
inductive Done where
  | nothing
  | stackFreed
  | deleted
  | linked
  | unlocked
  | rescheduled
deriving DecidableEq

def Ctl.done : Ctl Core Sem → Done
  | .heapWait (.deleteTcb _) | .heapHold (.deleteTcb _) => .stackFreed
  | .after .deleted => .deleted
  | .after .unlock => .linked
  | .after .queued => .unlocked
  | .after .rescheduled => .rescheduled
  | _ => .nothing

/-- What is left of the thread in `to_delete`. -/
def Done.deleteHolds (tcb : Tcb Core) : Done → Multiset (Resource Sem)
  | .deleted => 0
  | .stackFreed =>
      match tcb with
      | .idle _ => 0
      | .thread id => {.tcb id}
  | _ => whole tcb

/-- The thread in `to_queue`, until it is in the queue. -/
def Done.queueHolds (tcb : Tcb Core) : Done → Multiset (Resource Sem)
  | .linked | .unlocked => 0
  | _ => whole tcb

/-- The thread in `to_reschedule`, until it is in the queue. -/
def Done.rescheduleHolds (tcb : Tcb Core) : Done → Multiset (Resource Sem)
  | .rescheduled => 0
  | _ => whole tcb

/-- The lock in `to_unlock`, until it is released. -/
def Done.unlockHolds (sem : Sem) : Done → Multiset (Resource Sem)
  | .unlocked => 0
  | _ => {.lock (.sem sem)}

/-- What a core holds through the slots of its `g_table` entry. -/
def PerCore.slots (pc : PerCore Core Sem) (done : Done) :
    Multiset (Resource Sem) :=
  pc.toDelete.elim 0 (done.deleteHolds ·) +
    pc.toReschedule.elim 0 (done.rescheduleHolds ·) +
    pc.toQueue.elim 0 (done.queueHolds ·) +
    pc.toUnlock.elim 0 (done.unlockHolds ·)

/-- Everything a core holds. -/
def CoreState.holds (l : CoreState Core Sem) : Multiset (Resource Sem) :=
  l.pc.curr.elim 0 whole + l.pc.slots l.ctl.done + l.ctl.holds

/-- The nodes of a queue and the threads in them. -/
def queueHolds (cells : LinkedQueue.Cells Nat (Tcb Core)) :
    List Nat → Multiset (Resource Sem)
  | [] => 0
  | node :: rest =>
      {.node node} + whole (cells node).value + queueHolds cells rest

/-- How often a resource exists. -/
def Shared.amount (s : Shared Core Sem) : Resource Sem → Nat
  | .lock lock => if s.locked lock then 1 else 0
  | .tcb id => s.blocks.count (.tcb (.thread id))
  | .stack id => s.blocks.count (.stack (.thread id))
  | .node id => s.blocks.count (.node id)

inductive Home (Core Sem : Type) where
  | core (core : Core)
  | queue (q : QueueId Sem)
deriving DecidableEq

def Machine.own (m : Machine Core Sem) (items : QueueId Sem → List Nat) :
    Home Core Sem → Multiset (Resource Sem)
  | .core c => (m.cores c).holds
  | .queue q => queueHolds m.shared.cells (items q)

/-- From `s` to `s'`, `gain` came into existence and `lose` went. -/
def Books (s s' : Shared Core Sem) (gain lose : Multiset (Resource Sem)) :
    Prop :=
  ∀ r, s'.amount r + lose.count r = s.amount r + gain.count r

theorem Books.trans {s s' s'' : Shared Core Sem}
    {gain lose gain' lose' : Multiset (Resource Sem)}
    (h : Books s s' gain lose) (h' : Books s' s'' gain' lose') :
    Books s s'' (gain + gain') (lose + lose') := by
  intro r
  have hfirst := h r
  have hsecond := h' r
  rw [Multiset.count_add, Multiset.count_add]
  omega

theorem books_lock {s : Shared Core Sem} {lock : Lock Sem}
    (h : s.locked lock = false) : Books s (s.lock lock) {.lock lock} 0 := by
  intro r
  cases r with
  | lock other =>
      by_cases heq : other = lock
      · simp [Shared.amount, Shared.lock, heq, h]
      · simp [Shared.amount, Shared.lock, heq]
  | tcb id => simp [Shared.amount, Shared.lock]
  | stack id => simp [Shared.amount, Shared.lock]
  | node id => simp [Shared.amount, Shared.lock]

theorem books_release {s : Shared Core Sem} {lock : Lock Sem}
    (h : s.amount (.lock lock) = 1) :
    Books s (s.release lock) 0 {.lock lock} := by
  have hlocked : s.locked lock = true := by
    by_contra hne
    simp [Shared.amount, hne] at h
  intro r
  cases r with
  | lock other =>
      by_cases heq : other = lock
      · simp [Shared.amount, Shared.release, heq, hlocked]
      · simp [Shared.amount, Shared.release, heq]
  | tcb id => simp [Shared.amount, Shared.release]
  | stack id => simp [Shared.amount, Shared.release]
  | node id => simp [Shared.amount, Shared.release]

/-- The heap block a resource is, if it is one. -/
def Resource.block (Core : Type) : Resource Sem → Option (Block Core)
  | .lock _ => none
  | .tcb id => some (.tcb (.thread id))
  | .stack id => some (.stack (.thread id))
  | .node id => some (.node id)

section

omit [DecidableEq Core] [DecidableEq Sem]

theorem Resource.block_inj {r r' : Resource Sem} {block : Block Core}
    (h : r.block Core = some block) (h' : r'.block Core = some block) : r = r' := by
  cases r <;> cases h <;> cases r' <;> cases h' <;> rfl

end

section

omit [DecidableEq Sem]

theorem amount_eq_count {s : Shared Core Sem} {r : Resource Sem}
    {block : Block Core} (h : r.block Core = some block) :
    s.amount r = s.blocks.count block := by
  cases r <;> cases h <;> rfl

theorem amount_eq_of_block_none {s s' : Shared Core Sem} {r : Resource Sem}
    (hblock : r.block Core = none) (hlocked : s'.locked = s.locked) :
    s'.amount r = s.amount r := by
  cases r <;> cases hblock
  simp only [Shared.amount, hlocked]

end

theorem books_alloc (s : Shared Core Sem) {r : Resource Sem}
    {block : Block Core} (h : r.block Core = some block) :
    Books s (s.alloc block) {r} 0 := by
  intro other
  rw [Multiset.count_zero, Multiset.count_singleton]
  cases hother : other.block Core with
  | none =>
      have hne : other ≠ r := by
        rintro rfl
        rw [h] at hother
        cases hother
      rw [if_neg hne, Nat.add_zero, Nat.add_zero]
      exact amount_eq_of_block_none hother rfl
  | some found =>
      rw [amount_eq_count hother, amount_eq_count hother]
      by_cases heq : other = r
      · subst heq
        rw [h] at hother
        cases hother
        simp [Shared.alloc]
      · have hne : block ≠ found := by
          rintro rfl
          exact heq (Resource.block_inj hother h)
        rw [if_neg heq]
        simp [Shared.alloc, List.count_cons_of_ne hne]

theorem books_free {s : Shared Core Sem} {r : Resource Sem}
    {block : Block Core} (h : r.block Core = some block) (hone : s.amount r = 1) :
    Books s (s.free block) 0 {r} := by
  intro other
  rw [Multiset.count_zero, Multiset.count_singleton]
  cases hother : other.block Core with
  | none =>
      have hne : other ≠ r := by
        rintro rfl
        rw [h] at hother
        cases hother
      rw [if_neg hne, Nat.add_zero, Nat.add_zero]
      exact amount_eq_of_block_none hother rfl
  | some found =>
      rw [amount_eq_count hother, amount_eq_count hother]
      by_cases heq : other = r
      · subst heq
        rw [h] at hother
        cases hother
        rw [amount_eq_count h] at hone
        simp [Shared.free, List.count_erase_self, hone]
      · have hne : found ≠ block := by
          rintro rfl
          exact heq (Resource.block_inj hother h)
        rw [if_neg heq]
        simp [Shared.free, List.count_erase_of_ne hne]

section Moves

variable {c : Core} {s : Shared Core Sem} {l l' : CoreState Core Sem}
  {out : Outcome Core Sem}

section

omit [DecidableEq Core] [DecidableEq Sem]

theorem Silent.holds (h : Silent c l l') : l'.holds = l.holds := by
  cases h with
  | go => rfl
  | down => rfl
  | bootStop => rfl
  | bootSave => rfl
  | yield =>
      simp [CoreState.holds, PerCore.slots, clear, asks, Ctl.done,
        Done.rescheduleHolds, Ctl.holds, whole]
  | toDelete => rfl
  | noDelete hnone => rfl
  | deleted => rfl
  | toQueue => rfl
  | noQueue hnone => rfl
  | queued => rfl
  | toReschedule => rfl
  | noReschedule hnone => rfl
  | rescheduled => rfl

theorem Spins.holds {pc : PerCore Core Sem} {ctl ctl' : Ctl Core Sem}
    {lock : Lock Sem} (h : Spins ctl lock ctl') :
    (⟨pc, ctl'⟩ : CoreState Core Sem).holds =
      (⟨pc, ctl⟩ : CoreState Core Sem).holds + {.lock lock} := by
  cases h with
  | heap op =>
      have hdone : (Ctl.heapHold op).done = (Ctl.heapWait op).done := by
        cases op <;> rfl
      simp only [CoreState.holds, hdone, Ctl.holds, add_assoc]
  | push q node value site =>
      simp only [CoreState.holds, Ctl.done, Ctl.holds, add_assoc]
  | pop site => simp only [CoreState.holds, Ctl.done, Ctl.holds, add_assoc]
  | down sem => simp only [CoreState.holds, Ctl.done, Ctl.holds, add_zero]
  | up sem => simp only [CoreState.holds, Ctl.done, Ctl.holds, add_zero]

end

/-- Going from `s` to `s'` while what is held changes from `before` to `after`
keeps the books, and nothing comes into existence twice. -/
def Balanced (s s' : Shared Core Sem) (before after : Multiset (Resource Sem)) :
    Prop :=
  ∃ gain lose, after + lose = before + gain ∧ Books s s' gain lose ∧
    ∀ r, s.amount r + gain.count r ≤ 1

section Balanced

variable {s' : Shared Core Sem} {before after : Multiset (Resource Sem)}
  {lock : Lock Sem} {r : Resource Sem} {block : Block Core}

theorem balanced_same (hle : ∀ r, s.amount r ≤ 1)
    (hamount : ∀ r, s'.amount r = s.amount r) (h : after = before) :
    Balanced s s' before after :=
  ⟨0, 0, by rw [h], fun r => by simp [hamount r], by simpa using hle⟩

theorem balanced_lock (hle : ∀ r, s.amount r ≤ 1)
    (hfree : s.locked lock = false) (h : after = before + {.lock lock}) :
    Balanced s (s.lock lock) before after := by
  refine ⟨{.lock lock}, 0, by rw [h, add_zero], books_lock hfree, fun r => ?_⟩
  rw [Multiset.count_singleton]
  split
  · next heq =>
      rw [heq]
      simp [Shared.amount, hfree]
  · exact hle r

theorem balanced_release (hle : ∀ r, s.amount r ≤ 1)
    (hheld : ∀ r ∈ before, s.amount r = 1)
    (h : after + {.lock lock} = before) :
    Balanced s (s.release lock) before after := by
  have hlock : s.amount (.lock lock) = 1 := hheld _ (by simp [← h])
  exact ⟨0, {.lock lock}, by rw [h, add_zero], books_release hlock,
    by simpa using hle⟩

theorem balanced_alloc (hle : ∀ r, s.amount r ≤ 1)
    (hheld : ∀ r ∈ before, s.amount r = 1) (hblock : r.block Core = some block)
    (hfresh : s.amount r = 0) (hlock : .lock .heap ∈ before)
    (h : after + {.lock .heap} = before + {r}) :
    Balanced s ((s.release .heap).alloc block) before after := by
  have hbooks := (books_release (hheld _ hlock)).trans
    (books_alloc (s.release .heap) hblock)
  rw [zero_add, add_zero] at hbooks
  refine ⟨{r}, {.lock .heap}, h, hbooks, fun other => ?_⟩
  rw [Multiset.count_singleton]
  split
  · next heq =>
      rw [heq, hfresh]
  · exact hle other

theorem balanced_free (hle : ∀ r, s.amount r ≤ 1)
    (hheld : ∀ r ∈ before, s.amount r = 1) (hblock : r.block Core = some block)
    (h : after + ({.lock .heap} + {r}) = before) :
    Balanced s ((s.release .heap).free block) before after := by
  have hlock : s.amount (.lock .heap) = 1 := hheld _ (by simp [← h])
  have hone : s.amount r = 1 := hheld _ (by simp [← h])
  have hsame : (s.release .heap).amount r = s.amount r := by
    rw [amount_eq_count hblock, amount_eq_count hblock]
    rfl
  have hbooks := (books_release hlock).trans
    (books_free hblock (hsame.trans hone))
  rw [zero_add] at hbooks
  exact ⟨0, _, by rw [h, add_zero], hbooks, by simpa using hle⟩

end Balanced

/-- What the allocations of a core in the middle of one will be. -/
structure Fresh (s : Shared Core Sem) (ctl : Ctl Core Sem) : Prop where
  stack : s.amount (.stack s.nextId) = 0
  node : s.amount (.node s.nextId) = 0
  tcb : ∀ id, ctl = .heapHold (.newTcb id) → s.amount (.tcb id) = 0

/-- Moves that leave the queues alone keep the books of their core. -/
theorem Move.balanced (h : Move c s l out) (hle : ∀ r, s.amount r ≤ 1)
    (hheld : ∀ r ∈ l.holds, s.amount r = 1) (hfresh : Fresh s l.ctl)
    (hlink : ∀ q t, out.event ≠ some (.link q t))
    (hunlink : ∀ caller q t, out.event ≠ some (.unlink caller q t)) :
    Balanced s out.shared l.holds out.core.holds := by
  cases h with
  | silent hsilent => exact balanced_same hle (fun _ => rfl) hsilent.holds
  | spin hspins hfree => exact balanced_lock hle hfree hspins.holds
  | @fail pc op hallocates =>
      refine balanced_release hle hheld ?_
      have hdone : (Ctl.heapHold op).done = .nothing := by
        cases op <;> first | rfl | cases hallocates
      simp only [CoreState.holds, hdone]
      simp only [Ctl.done, Ctl.holds, add_assoc]
  | newStack _ =>
      refine balanced_alloc (r := .stack s.nextId) hle hheld rfl hfresh.stack
        ?_ ?_
      · simp [CoreState.holds, Ctl.holds]
      · simp only [CoreState.holds, Ctl.done, Ctl.holds, HeapOp.holds]
        abel
  | @newTcb pc id _ =>
      refine balanced_alloc (r := .tcb id) hle hheld rfl (hfresh.tcb id rfl)
        ?_ ?_
      · simp [CoreState.holds, Ctl.holds]
      · simp only [CoreState.holds, Ctl.done, Ctl.holds, HeapOp.holds, schedule,
          push, PushSite.holds, whole]
        abel
  | newNode _ =>
      refine balanced_alloc (r := .node s.nextId) hle hheld rfl hfresh.node
        ?_ ?_
      · simp [CoreState.holds, Ctl.holds]
      · simp only [CoreState.holds, Ctl.done, Ctl.holds, HeapOp.holds]
        abel
  | @dispatch prev node id =>
      refine balanced_free (r := .node node) hle hheld rfl ?_
      simp only [CoreState.holds, Ctl.done, Ctl.holds, HeapOp.holds,
        PopSite.holds, PerCore.slots, clear, Option.elim_some,
        Option.elim_none, whole]
      abel
  | @granted pc node value sem =>
      refine balanced_free (r := .node node) hle hheld rfl ?_
      simp only [CoreState.holds, Ctl.done, Ctl.holds, HeapOp.holds,
        PopSite.holds, schedule, push, PushSite.holds]
      abel
  | @deleteStack id =>
      refine balanced_free (r := .stack id) hle hheld rfl ?_
      simp only [CoreState.holds, PerCore.slots, asks, Ctl.done, Ctl.holds,
        HeapOp.holds, Option.elim_some, Option.elim_none, Done.deleteHolds,
        whole]
      abel
  | @deleteTcb id =>
      refine balanced_free (r := .tcb id) hle hheld rfl ?_
      simp only [CoreState.holds, PerCore.slots, asks, Ctl.done, Ctl.holds,
        HeapOp.holds, Option.elim_some, Option.elim_none, Done.deleteHolds,
        whole]
      abel
  | link => exact absurd rfl (hlink _ _)
  | @popEmpty pc site _ =>
      refine balanced_release hle hheld ?_
      cases site <;>
        simp only [CoreState.holds, Ctl.done, Ctl.holds, Threads.popEmpty,
          PopSite.holds, add_assoc]
  | unlink _ hfound => exact absurd rfl (hunlink _ _ _)
  | block _ =>
      refine balanced_same hle (fun _ => rfl) ?_
      simp only [CoreState.holds, PerCore.slots, clear, asks, Ctl.done,
        Ctl.holds, Option.elim_some, Option.elim_none, Done.queueHolds,
        Done.unlockHolds, whole]
      abel
  | pass _ => exact balanced_same hle (fun _ => rfl) rfl
  | downUnlock =>
      refine balanced_release hle hheld ?_
      simp only [CoreState.holds, Ctl.done, Ctl.holds, add_zero]
  | downReturn => exact balanced_same hle (fun _ => rfl) rfl
  | callUp => exact balanced_same hle (fun _ => rfl) rfl
  | upWakes _ => exact balanced_same hle (fun _ => rfl) rfl
  | upFrees _ => exact balanced_same hle (fun _ => rfl) rfl
  | upUnlock =>
      refine balanced_release hle hheld ?_
      simp only [CoreState.holds, Ctl.done, Ctl.holds, add_zero]
  | stop =>
      refine balanced_same hle (fun _ => rfl) ?_
      simp only [CoreState.holds, PerCore.slots, clear, asks, Ctl.done,
        Ctl.holds, Option.elim_some, Option.elim_none, Done.deleteHolds, whole]
      abel
  | saveThread _ => exact balanced_same hle (fun _ => rfl) rfl
  | saveIdle => exact balanced_same hle (fun _ => rfl) rfl
  | loadEntry _ => exact balanced_same hle (fun _ => rfl) rfl
  | loadIdle _ _ => exact balanced_same hle (fun _ => rfl) rfl
  | loadThread _ => exact balanced_same hle (fun _ => rfl) rfl
  | loadDown _ => exact balanced_same hle (fun _ => rfl) rfl
  | unlock =>
      refine balanced_release hle hheld ?_
      simp only [CoreState.holds, PerCore.slots, asks, Ctl.done, Ctl.holds,
        Option.elim_some, Option.elim_none, Done.queueHolds, Done.unlockHolds]
      abel

end Moves

end Threads

end IntroOs
