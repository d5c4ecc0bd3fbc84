/-
Thread conservation: a thread that `go` has created and that has not been
freed is in exactly one place, whatever the cores do.
-/
import IntroOs.ThreadsInv

namespace IntroOs

namespace Threads

variable {Core Sem : Type} [DecidableEq Core] [DecidableEq Sem]

/-- How a core can have a thread: as `pc.curr`, in a slot of a hand-off that
is still to be carried out, or in a local variable. -/
inductive Spot where
  | running
  | toDelete
  | toReschedule
  | toQueue
  | held

/-- Where a thread can be. -/
inductive Place (Core Sem : Type) where
  | core (core : Core) (spot : Spot)
  | queued (q : QueueId Sem) (node : Nat)

def PushSite.hand (value : Tcb Core) : PushSite Sem → Option (Tcb Core)
  | .go | .up _ => some value
  | .deferred | .reschedule => none

def HeapOp.hand : HeapOp Core Sem → Option (Tcb Core)
  | .newNode _ value site => site.hand value
  | .deleteNode _ value _ => some value
  | _ => none

/-- The thread a core holds in a local variable, between taking it off a queue
or building it and linking it or switching to it. -/
def Ctl.hand : Ctl Core Sem → Option (Tcb Core)
  | .heapWait op | .heapHold op | .outOfMemory op => op.hand
  | .pushWait _ _ value site | .pushHold _ _ value site => site.hand value
  | _ => none

/-- The hand-offs that empty a slot. -/
def Done.carriedOut : Spot → List Done
  | .toDelete => [.deleted]
  | .toReschedule => [.rescheduled]
  | .toQueue => [.linked, .unlocked]
  | _ => []

def CoreState.slot (l : CoreState Core Sem) : Spot → Option (Tcb Core)
  | .running => l.pc.curr
  | .toDelete => l.pc.toDelete
  | .toReschedule => l.pc.toReschedule
  | .toQueue => l.pc.toQueue
  | .held => l.ctl.hand

/-- The core has the thread, and a hand-off that it waits in is still to be
carried out. -/
def CoreState.Has (l : CoreState Core Sem) (id : Nat) (spot : Spot) : Prop :=
  l.slot spot = some (.thread id) ∧ l.ctl.done ∉ Done.carriedOut spot

section

omit [DecidableEq Core] [DecidableEq Sem]

-- no hand-off is behind the running thread or the one held
theorem has_running {l : CoreState Core Sem} {id : Nat}
    (h : l.pc.curr = some (.thread id)) : l.Has id .running :=
  ⟨h, List.not_mem_nil⟩

theorem has_held {l : CoreState Core Sem} {id : Nat}
    (h : l.ctl.hand = some (.thread id)) : l.Has id .held :=
  ⟨h, List.not_mem_nil⟩

end

/-- The thread is at the place. -/
def Machine.At (m : Machine Core Sem) (id : Nat) : Place Core Sem → Prop
  | .core c spot => (m.cores c).Has id spot
  | .queued q node => ∃ nodes,
      LinkedQueue.Linked m.shared.cells (m.shared.queue q) nodes ∧
        node ∈ nodes ∧ (m.shared.cells node).value = .thread id

def Place.home : Place Core Sem → Home Core Sem
  | .core c _ => .core c
  | .queued q _ => .queue q

section Count

variable {id : Nat}

/-- One if the thread is in the variable. -/
def inSlot (slot : Option (Tcb Core)) (id : Nat) : Nat :=
  if slot = some (.thread id) then 1 else 0

theorem inSlot_none : inSlot (none : Option (Tcb Core)) id = 0 := rfl

theorem inSlot_self : inSlot (some (.thread id : Tcb Core)) id = 1 := by
  simp [inSlot]

theorem inSlot_eq_one {slot : Option (Tcb Core)} :
    inSlot slot id = 1 ↔ slot = some (.thread id) := by
  simp [inSlot]

theorem count_whole (t : Tcb Core) :
    (whole t : Multiset (Resource Sem)).count (.tcb id) =
      inSlot (some t) id := by
  cases t with
  | idle c => simp [whole, inSlot]
  | thread id' =>
      simp only [whole, inSlot, Multiset.count_add, Multiset.count_singleton,
        reduceCtorEq, ↓reduceIte, add_zero, Option.some.injEq, Tcb.thread.injEq,
        Resource.tcb.injEq, eq_comm]

theorem count_pushSite (value : Tcb Core) (site : PushSite Sem) :
    (site.holds value).count (.tcb id) = inSlot (site.hand value) id := by
  cases site <;>
    simp [PushSite.holds, PushSite.hand, count_whole, inSlot_none]

theorem count_popSite (site : PopSite Sem) :
    site.holds.count (.tcb id) = 0 := by
  cases site <;> simp [PopSite.holds]

theorem count_op (op : HeapOp Core Sem) :
    op.holds.count (.tcb id) = inSlot op.hand id := by
  cases op <;>
    simp [HeapOp.holds, HeapOp.hand, count_whole, count_pushSite,
      count_popSite, inSlot_none]

theorem count_ctl (ctl : Ctl Core Sem) :
    ctl.holds.count (.tcb id) = inSlot ctl.hand id := by
  cases ctl <;>
    simp [Ctl.holds, Ctl.hand, count_op, count_pushSite, count_popSite,
      inSlot_none]

theorem count_curr (slot : Option (Tcb Core)) :
    (slot.elim 0 whole : Multiset (Resource Sem)).count (.tcb id) =
      inSlot slot id := by
  cases slot with
  | none => rfl
  | some t => exact count_whole t

/-- What counts until one of the stages in `carriedOut` is reached. -/
def outstanding (done : Done) (carriedOut : List Done) (n : Nat) : Nat :=
  if done ∈ carriedOut then 0 else n

theorem outstanding_nil (done : Done) (n : Nat) :
    outstanding done [] n = n := rfl

theorem count_toDelete (slot : Option (Tcb Core)) (done : Done) :
    (slot.elim 0 (done.deleteHolds ·) : Multiset (Resource Sem)).count
      (.tcb id) = outstanding done [.deleted] (inSlot slot id) := by
  rcases slot with - | (c | id')
  · simp [outstanding, inSlot_none]
  · cases done <;> simp [Done.deleteHolds, whole, outstanding, inSlot]
  · cases done <;>
      simp [Done.deleteHolds, count_whole, Multiset.count_singleton,
        outstanding, inSlot, eq_comm]

theorem count_toReschedule (slot : Option (Tcb Core)) (done : Done) :
    (slot.elim 0 (done.rescheduleHolds ·) : Multiset (Resource Sem)).count
      (.tcb id) = outstanding done [.rescheduled] (inSlot slot id) := by
  cases slot with
  | none => simp [outstanding, inSlot_none]
  | some t =>
      cases done <;> simp [Done.rescheduleHolds, count_whole, outstanding]

theorem count_toQueue (slot : Option (Tcb Core)) (done : Done) :
    (slot.elim 0 (done.queueHolds ·) : Multiset (Resource Sem)).count
      (.tcb id) = outstanding done [.linked, .unlocked] (inSlot slot id) := by
  cases slot with
  | none => simp [outstanding, inSlot_none]
  | some t => cases done <;> simp [Done.queueHolds, count_whole, outstanding]

theorem count_toUnlock (slot : Option Sem) (done : Done) :
    (slot.elim 0 (done.unlockHolds ·) : Multiset (Resource Sem)).count
      (.tcb id) = 0 := by
  cases slot with
  | none => rfl
  | some sem => cases done <;> simp [Done.unlockHolds]

/-- One if the core has the thread at the spot. -/
def CoreState.weight (l : CoreState Core Sem) (id : Nat) (spot : Spot) : Nat :=
  outstanding l.ctl.done (Done.carriedOut spot) (inSlot (l.slot spot) id)

section

omit [DecidableEq Sem]

theorem weight_eq_one {l : CoreState Core Sem} {spot : Spot} :
    l.weight id spot = 1 ↔ l.Has id spot := by
  unfold CoreState.weight CoreState.Has outstanding
  split
  · simp [*]
  · simp [*, inSlot_eq_one]

end

/-- A core holds a thread once for each spot it has it at. -/
theorem count_core (l : CoreState Core Sem) :
    l.holds.count (.tcb id) =
      l.weight id .running + l.weight id .toDelete + l.weight id .toReschedule +
        l.weight id .toQueue + l.weight id .held := by
  simp only [CoreState.holds, PerCore.slots, Multiset.count_add, count_curr,
    count_toDelete, count_toReschedule, count_toQueue, count_toUnlock, count_ctl,
    CoreState.weight, CoreState.slot, Done.carriedOut, outstanding_nil]
  omega

theorem weight_le_count (l : CoreState Core Sem) (spot : Spot) :
    l.weight id spot ≤ l.holds.count (.tcb id) := by
  rw [count_core]
  cases spot <;> omega

theorem spot_unique {l : CoreState Core Sem} {spot other : Spot}
    (hle : l.holds.count (.tcb id) ≤ 1) (hspot : l.weight id spot = 1)
    (hother : l.weight id other = 1) : spot = other := by
  rw [count_core] at hle
  cases spot <;> cases other <;> first | rfl | omega

theorem exists_spot {l : CoreState Core Sem}
    (hone : l.holds.count (.tcb id) = 1) : ∃ spot, l.weight id spot = 1 := by
  rw [count_core] at hone
  by_contra hnone
  rw [not_exists] at hnone
  have hrunning := hnone .running
  have htoDelete := hnone .toDelete
  have htoReschedule := hnone .toReschedule
  have htoQueue := hnone .toQueue
  have hheld := hnone .held
  omega

theorem count_queue (cells : LinkedQueue.Cells Nat (Tcb Core))
    (nodes : List Nat) :
    (queueHolds cells nodes : Multiset (Resource Sem)).count (.tcb id) =
      (nodes.filter fun node => (cells node).value = .thread id).length := by
  induction nodes with
  | nil => rfl
  | cons node rest ih =>
      simp only [queueHolds, Multiset.count_add, count_whole, ih]
      by_cases hvalue : (cells node).value = .thread id
      · simp [hvalue, inSlot_self, Nat.add_comm]
      · simp [hvalue, inSlot]

end Count

section Conserved

variable {m : Machine Core Sem} {items : QueueId Sem → List Nat} {id : Nat}

theorem Inv.at_queued (h : Inv m items) (q : QueueId Sem) (node : Nat) :
    m.At id (.queued q node) ↔
      node ∈ (items q).filter fun node =>
        (m.shared.cells node).value = .thread id := by
  rw [List.mem_filter, decide_eq_true_eq]
  constructor
  · rintro ⟨nodes, hlinked, hnode, hvalue⟩
    rw [hlinked.unique (h.linked q)] at hnode
    exact ⟨hnode, hvalue⟩
  · rintro ⟨hnode, hvalue⟩
    exact ⟨items q, h.linked q, hnode, hvalue⟩

theorem Inv.mem_own_of_at (h : Inv m items) {place : Place Core Sem}
    (hat : m.At id place) : .tcb id ∈ m.own items place.home := by
  rw [← Multiset.count_pos]
  cases place with
  | core c spot =>
      have hone := weight_eq_one.mpr hat
      have hle : (m.cores c).weight id spot ≤ _ := weight_le_count _ spot
      change 0 < (m.cores c).holds.count (.tcb id)
      omega
  | queued q node =>
      simp only [Place.home, Machine.own, count_queue]
      exact List.length_pos_of_mem ((h.at_queued q node).mp hat)

/-- At one home a thread is in one place. -/
theorem Inv.place_unique (h : Inv m items) {place other : Place Core Sem}
    (hat : m.At id place) (hother : m.At id other) : place = other := by
  have hhome := h.books.home_unique (h.mem_own_of_at hat)
    (h.mem_own_of_at hother)
  have hle := Multiset.nodup_iff_count_le_one.mp (h.books.nodup place.home)
    (.tcb id)
  cases place with
  | core c spot =>
      cases other with
      | core c' spot' =>
          cases hhome
          rw [spot_unique hle (weight_eq_one.mpr hat) (weight_eq_one.mpr hother)]
      | queued q' node' => cases hhome
  | queued q node =>
      cases other with
      | core c' spot' => cases hhome
      | queued q' node' =>
          cases hhome
          simp only [Place.home, Machine.own, count_queue] at hle
          have hnode := (h.at_queued q node).mp hat
          have hnode' := (h.at_queued q node').mp hother
          have hpos := List.length_pos_of_mem hnode
          obtain ⟨only, honly⟩ := List.length_eq_one_iff.mp
            (Nat.le_antisymm hle hpos)
          rw [honly, List.mem_singleton] at hnode hnode'
          rw [hnode, hnode']

theorem Inv.exists_place (h : Inv m items)
    (hone : m.shared.amount (.tcb id) = 1) : ∃ place, m.At id place := by
  obtain ⟨home, hmem⟩ := h.books.exists_home hone
  have hcount : (m.own items home).count (.tcb id) = 1 :=
    Multiset.count_eq_one_of_mem (h.books.nodup home) hmem
  cases home with
  | core c =>
      obtain ⟨spot, hspot⟩ := exists_spot hcount
      exact ⟨.core c spot, weight_eq_one.mp hspot⟩
  | queue q =>
      simp only [Machine.own, count_queue] at hcount
      obtain ⟨node, hnode⟩ := List.length_eq_one_iff.mp hcount
      exact ⟨.queued q node, (h.at_queued q node).mpr (by rw [hnode]; simp)⟩

/-- No hand-off is requested on the core. -/
def PerCore.SlotsNull (pc : PerCore Core Sem) : Prop :=
  pc.toDelete = none ∧ pc.toReschedule = none ∧ pc.toQueue = none ∧
    pc.toAddTo = none ∧ pc.toUnlock = none

/-- In every state of every run a thread whose TCB is allocated is in exactly
one place, every queue is a list of nodes, none of them with an idle TCB, and
a core that runs a thread has no hand-off to carry out. -/
theorem run_conserves_threads (cnt : Sem → Int)
    {past : List (Event Core Sem)} (h : AnyRun cnt past m) :
    (∀ id, .tcb (.thread id) ∈ m.shared.blocks → ∃! place, m.At id place) ∧
    (∀ q, ∃ nodes, LinkedQueue.Linked m.shared.cells (m.shared.queue q) nodes ∧
      (∀ other, LinkedQueue.Linked m.shared.cells (m.shared.queue q) other →
        other = nodes) ∧
      ∀ node ∈ nodes, ∀ c, (m.shared.cells node).value ≠ .idle c) ∧
    (∀ c id, (m.cores c).pc.curr = some (.thread id) →
      (m.cores c).pc.SlotsNull) := by
  obtain ⟨items, hinv⟩ := h.inv
  refine ⟨fun id hblock => ?_, fun q => ⟨items q, hinv.linked q,
    fun other hother => hother.unique (hinv.linked q),
    fun node hnode c hvalue => ?_⟩, fun c id hcurr => ?_⟩
  · have hpos : 0 < m.shared.amount (.tcb id) := List.count_pos_iff.mpr hblock
    have hle := hinv.amount_le_one (.tcb id)
    obtain ⟨place, hplace⟩ := hinv.exists_place
      (show m.shared.amount (.tcb id) = 1 by omega)
    exact ⟨place, hplace, fun other hother => hinv.place_unique hother hplace⟩
  · obtain ⟨id, hthread⟩ := hinv.values q node hnode
    rw [hvalue] at hthread
    cases hthread
  · obtain ⟨prev, hclear⟩ := (hinv.ctl c).clear_of_curr hcurr
    rw [hclear]
    exact ⟨rfl, rfl, rfl, rfl, rfl⟩

/-- One core boots, creates a thread and switches to it. -/
def bootSchedule : List (Unit × Action Unit) :=
  [((), .call .go)] ++ List.replicate 8 ((), .run) ++ [((), .call .stop)] ++
    List.replicate 8 ((), .run)

theorem run_conserves_threads_boot :
    ∃ (past : List (Event Unit Unit)) (m : Machine Unit Unit),
      AnyRun (fun _ => 0) past m ∧ .tcb (.thread 0) ∈ m.shared.blocks ∧
      (m.cores ()).pc.curr = some (.thread 0) ∧ ∃! place, m.At 0 place := by
  have hfollow : ∃ past m, follow (initial fun _ => 0) bootSchedule =
      some (past, m) ∧ .tcb (.thread 0) ∈ m.shared.blocks ∧
      (m.cores ()).pc.curr = some (.thread 0) :=
    ⟨_, _, rfl, by decide, rfl⟩
  obtain ⟨past, m, hrun, hblock, hcurr⟩ := hfollow
  have hreach : AnyRun (fun _ => 0) past m := AnyRun.follow .boot hrun
  exact ⟨past, m, hreach, hblock, hcurr,
    (run_conserves_threads (fun _ => 0) hreach).1 0 hblock⟩

end Conserved

end Threads

end IntroOs
