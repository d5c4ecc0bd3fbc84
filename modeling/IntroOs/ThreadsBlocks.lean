/-
The heap blocks of the thread system: a stack and a TCB for each thread that
is not reaped, a node for each thread that is queued, and what the steps in
progress have in their hands.
-/
import IntroOs.ThreadsReclaim

namespace IntroOs

namespace Threads

variable {Core Sem : Type} [DecidableEq Core] [DecidableEq Sem]

/-- `go` has built the thread, and its TCB has not been freed. -/
def Unreaped (past : List (Event Core Sem)) (id : Nat) : Prop :=
  .create (.thread id) ∈ past ∧ ∀ c, .freeTcb c (.thread id) ∉ past

def HeapOp.node : HeapOp Core Sem → Option Nat
  | .deleteNode node _ _ => some node
  | _ => none

/-- The node a core has allocated and not linked yet, or has unlinked and not
freed yet. -/
def Ctl.node : Ctl Core Sem → Option Nat
  | .heapWait op | .heapHold op | .outOfMemory op => op.node
  | .pushWait _ node _ _ | .pushHold _ node _ _ => some node
  | _ => none

/-- The blocks the thread system has a use for.  A thread that is being built
has a stack already, and one that is being freed has no stack any more. -/
inductive InUse (past : List (Event Core Sem)) (m : Machine Core Sem) :
    Block Core → Prop
  | tcb {id : Nat} (unreaped : Unreaped past id) :
      InUse past m (.tcb (.thread id))
  | stack {id : Nat} (unreaped : Unreaped past id)
      (kept : ∀ c, .freeStack c (.thread id) ∉ past) :
      InUse past m (.stack (.thread id))
  | building {c : Core} {id : Nat} (builds : (m.cores c).ctl.builds = some id) :
      InUse past m (.stack (.thread id))
  | linked {q : QueueId Sem} {nodes : List Nat} {node : Nat}
      (linked : LinkedQueue.Linked m.shared.cells (m.shared.queue q) nodes)
      (mem : node ∈ nodes) : InUse past m (.node node)
  | inHand {c : Core} {node : Nat} (holds : (m.cores c).ctl.node = some node) :
      InUse past m (.node node)

section Local

variable {l : CoreState Core Sem} {id : Nat}

section

omit [DecidableEq Sem]

theorem stack_not_mem_pop (site : PopSite Sem) : .stack id ∉ site.holds := by
  cases site <;> simp [PopSite.holds]

end

section

omit [DecidableEq Core] [DecidableEq Sem]

theorem stack_mem_whole {t : Tcb Core} :
    (.stack id : Resource Sem) ∈ whole t ↔ t = .thread id := by
  cases t with
  | idle c => simp [whole]
  | thread id' => simp [whole, eq_comm]

theorem stack_mem_push {value : Tcb Core} {site : PushSite Sem} :
    .stack id ∈ site.holds value ↔ site.hand value = some (.thread id) := by
  cases site <;> simp [PushSite.holds, PushSite.hand, stack_mem_whole]

theorem stack_mem_op {op : HeapOp Core Sem} :
    .stack id ∈ op.holds ↔ op.hand = some (.thread id) ∨ op = .newTcb id := by
  cases op <;>
    simp [HeapOp.holds, HeapOp.hand, stack_mem_push, stack_mem_whole,
      stack_not_mem_pop, eq_comm]

theorem stack_mem_ctl {ctl : Ctl Core Sem} :
    .stack id ∈ ctl.holds ↔
      ctl.hand = some (.thread id) ∨ ctl.builds = some id := by
  have hop : ∀ op : HeapOp Core Sem, op = .newTcb id ↔
      (Ctl.heapWait op).builds = some id := by
    intro op
    cases op <;> simp [Ctl.builds]
  cases ctl with
  | heapWait op => simp [Ctl.holds, Ctl.hand, stack_mem_op, hop]
  | heapHold op =>
      have hsame : (Ctl.heapHold op).builds = (Ctl.heapWait op).builds := by
        cases op <;> rfl
      simp [Ctl.holds, Ctl.hand, stack_mem_op, hop, hsame]
  | outOfMemory op =>
      have hsame : (Ctl.outOfMemory op).builds = (Ctl.heapWait op).builds := by
        cases op <;> rfl
      simp [Ctl.holds, Ctl.hand, stack_mem_op, hop, hsame]
  | pushWait _ _ _ _ => simp [Ctl.holds, Ctl.hand, Ctl.builds, stack_mem_push]
  | pushHold _ _ _ _ => simp [Ctl.holds, Ctl.hand, Ctl.builds, stack_mem_push]
  | popWait _ => simp [Ctl.holds, Ctl.hand, Ctl.builds, stack_not_mem_pop]
  | popHold _ => simp [Ctl.holds, Ctl.hand, Ctl.builds, stack_not_mem_pop]
  | _ => simp [Ctl.holds, Ctl.hand, Ctl.builds]

theorem stack_mem_slot {slot : Option (Tcb Core)}
    {f : Tcb Core → Multiset (Resource Sem)} {done : Done}
    {carriedOut : List Done}
    (h : ∀ t, .stack id ∈ f t ↔ t = .thread id ∧ done ∉ carriedOut) :
    .stack id ∈ slot.elim 0 f ↔ slot = some (.thread id) ∧ done ∉ carriedOut := by
  cases slot with
  | none => simp
  | some t => simp [h]

theorem stack_mem_slots {pc : PerCore Core Sem} {done : Done} :
    .stack id ∈ pc.slots done ↔
      (pc.toDelete = some (.thread id) ∧ done ∉ [.deleted, .stackFreed]) ∨
      (pc.toReschedule = some (.thread id) ∧ done ∉ [.rescheduled]) ∨
      (pc.toQueue = some (.thread id) ∧ done ∉ [.linked, .unlocked]) := by
  have hdelete : ∀ t : Tcb Core, (.stack id : Resource Sem) ∈
      done.deleteHolds t ↔ t = .thread id ∧ done ∉ [.deleted, .stackFreed] := by
    intro t
    cases done with
    | stackFreed => cases t <;> simp [Done.deleteHolds]
    | _ => simp [Done.deleteHolds, stack_mem_whole]
  have hreschedule : ∀ t : Tcb Core, (.stack id : Resource Sem) ∈
      done.rescheduleHolds t ↔ t = .thread id ∧ done ∉ [.rescheduled] := by
    intro t
    cases done <;> simp [Done.rescheduleHolds, stack_mem_whole]
  have hqueue : ∀ t : Tcb Core, (.stack id : Resource Sem) ∈
      done.queueHolds t ↔ t = .thread id ∧ done ∉ [.linked, .unlocked] := by
    intro t
    cases done <;> simp [Done.queueHolds, stack_mem_whole]
  have hunlock : .stack id ∉ pc.toUnlock.elim 0 (done.unlockHolds ·) := by
    cases pc.toUnlock with
    | none => exact Multiset.notMem_zero _
    | some sem => cases done <;> simp [Done.unlockHolds]
  simp only [PerCore.slots, Multiset.mem_add, stack_mem_slot hdelete,
    stack_mem_slot hreschedule, stack_mem_slot hqueue, hunlock, or_false,
    or_assoc]

/-- A core has the stack of the threads it has, but for one whose stack it has
freed, and of the one it builds. -/
theorem stack_mem_holds :
    .stack id ∈ l.holds ↔ l.ctl.builds = some id ∨
      ∃ spot, l.Has id spot ∧ (spot = .toDelete → l.ctl.done ≠ .stackFreed) := by
  have hcurr : .stack id ∈ (l.pc.curr.elim 0 whole : Multiset (Resource Sem)) ↔
      l.pc.curr = some (.thread id) := by
    cases l.pc.curr <;> simp [stack_mem_whole]
  simp only [CoreState.holds, Multiset.mem_add, hcurr, stack_mem_slots,
    stack_mem_ctl]
  constructor
  · rintro ((h | ⟨h, hdone⟩ | ⟨h, hdone⟩ | ⟨h, hdone⟩) | h | h)
    · exact .inr ⟨.running, has_running h, by simp⟩
    · simp only [List.mem_cons, List.not_mem_nil, or_false, not_or] at hdone
      refine .inr ⟨.toDelete, ⟨h, ?_⟩, fun _ => hdone.2⟩
      simpa [Done.carriedOut] using hdone.1
    · exact .inr ⟨.toReschedule, ⟨h, hdone⟩, by simp⟩
    · exact .inr ⟨.toQueue, ⟨h, hdone⟩, by simp⟩
    · exact .inr ⟨.held, has_held h, by simp⟩
    · exact .inl h
  · rintro (h | ⟨spot, ⟨h, hdone⟩, hfreed⟩)
    · exact .inr (.inr h)
    · cases spot with
      | running => exact .inl (.inl h)
      | toDelete =>
          refine .inl (.inr (.inl ⟨h, ?_⟩))
          have hkept := hfreed rfl
          simp_all [Done.carriedOut]
      | toReschedule => exact .inl (.inr (.inr (.inl ⟨h, hdone⟩)))
      | toQueue => exact .inl (.inr (.inr (.inr ⟨h, hdone⟩)))
      | held => exact .inr (.inl h)

theorem node_not_mem_whole (t : Tcb Core) (node : Nat) :
    (.node node : Resource Sem) ∉ whole t := by
  cases t <;> simp [whole]

theorem node_not_mem_slots (pc : PerCore Core Sem) (done : Done) (node : Nat) :
    .node node ∉ pc.slots done := by
  have hslot : ∀ {α : Type} (slot : Option α)
      (f : α → Multiset (Resource Sem)),
      (∀ t, .node node ∉ f t) → .node node ∉ slot.elim 0 f := by
    intro α slot f hnot
    cases slot with
    | none => exact Multiset.notMem_zero _
    | some t => exact hnot t
  have hwhole : ∀ t : Tcb Core, .node node ∉ (whole t : Multiset (Resource Sem))
      := fun t => node_not_mem_whole t node
  simp only [PerCore.slots, Multiset.mem_add, not_or]
  refine ⟨⟨⟨hslot _ _ fun t => ?_, hslot _ _ fun t => ?_⟩,
    hslot _ _ fun t => ?_⟩, hslot _ _ fun sem => ?_⟩
  · cases done with
    | stackFreed => cases t <;> simp [Done.deleteHolds]
    | deleted => exact Multiset.notMem_zero _
    | _ => exact hwhole t
  · cases done with
    | rescheduled => exact Multiset.notMem_zero _
    | _ => exact hwhole t
  · cases done with
    | linked => exact Multiset.notMem_zero _
    | unlocked => exact Multiset.notMem_zero _
    | _ => exact hwhole t
  · cases done <;> simp [Done.unlockHolds]

theorem node_mem_holds {node : Nat} :
    .node node ∈ l.holds ↔ l.ctl.node = some node := by
  have hcurr : .node node ∉ (l.pc.curr.elim 0 whole : Multiset (Resource Sem))
      := by
    cases l.pc.curr with
    | none => exact Multiset.notMem_zero _
    | some t => exact node_not_mem_whole t node
  have hpush : ∀ (value : Tcb Core) (site : PushSite Sem),
      .node node ∉ site.holds value := by
    intro value site
    cases site <;> simp [PushSite.holds, node_not_mem_whole]
  have hpop : ∀ site : PopSite Sem, .node node ∉ site.holds := by
    intro site
    cases site <;> simp [PopSite.holds]
  have hop : ∀ op : HeapOp Core Sem,
      .node node ∈ op.holds ↔ op.node = some node := by
    intro op
    cases op <;>
      simp [HeapOp.holds, HeapOp.node, hpush, hpop, node_not_mem_whole, eq_comm]
  simp only [CoreState.holds, Multiset.mem_add, hcurr, false_or,
    node_not_mem_slots]
  cases l.ctl <;> simp [Ctl.holds, Ctl.node, hop, hpush, hpop, eq_comm]

theorem stack_mem_queueHolds {cells : LinkedQueue.Cells Nat (Tcb Core)}
    {nodes : List Nat} :
    (.stack id : Resource Sem) ∈ queueHolds cells nodes ↔
      ∃ node ∈ nodes, (cells node).value = .thread id := by
  induction nodes with
  | nil => simp [queueHolds]
  | cons node rest ih => simp [queueHolds, stack_mem_whole, ih]

theorem node_mem_queueHolds_iff {cells : LinkedQueue.Cells Nat (Tcb Core)}
    {nodes : List Nat} {node : Nat} :
    (.node node : Resource Sem) ∈ queueHolds cells nodes ↔ node ∈ nodes := by
  induction nodes with
  | nil => simp [queueHolds]
  | cons first rest ih => simp [queueHolds, node_not_mem_whole, ih]

end

end Local

section History

variable {past : List (Event Core Sem)} {t : Tcb Core} {id : Nat}

omit [DecidableEq Sem]

theorem Lawful.create_mem (h : Lawful past) :
    .create (.thread id) ∈ past ↔ phaseOf past (.thread id) ≠ .absent := by
  induction past using List.reverseRecOn with
  | nil => simp [phaseOf, Phase.start]
  | append_singleton past event ih =>
      obtain ⟨hbefore, hpermitted⟩ := h.last
      have ih := ih hbefore
      have hturn := hpermitted.turn (.thread id)
      rw [List.mem_append, List.mem_singleton, ih]
      generalize phaseOf past (.thread id) = phase at hturn
      generalize phaseOf (past ++ [event]) (.thread id) = phase' at hturn
      cases hturn with
      | other hne =>
          have hcreate : .create (.thread id) ≠ event := by
            rintro rfl
            exact hne rfl
          simp [hcreate]
      | _ => simp

theorem Lawful.freeTcb_mem (h : Lawful past) :
    (∃ c, .freeTcb c t ∈ past) ↔ phaseOf past t = .freed := by
  constructor
  · rintro ⟨c, hfree⟩
    exact h.freed hfree
  · intro hfreed
    have hcount := (h.counts t).2.2
    rw [hfreed, Phase.freesTcb] at hcount
    obtain ⟨event, hmem, hfrees⟩ := List.countP_pos_iff.mp
      (show 0 < past.countP (Event.freesTcb t) by omega)
    cases event with
    | freeTcb c u =>
        simp only [Event.freesTcb, decide_eq_true_eq] at hfrees
        exact ⟨c, hfrees ▸ hmem⟩
    | _ => cases hfrees

theorem Lawful.freeStack_mem (h : Lawful past) :
    (∃ c, .freeStack c t ∈ past) ↔ (phaseOf past t).freesStack = 1 := by
  have hcount := (h.counts t).2.1
  constructor
  · rintro ⟨c, hfree⟩
    have hpos : 0 < past.countP (Event.freesStack t) :=
      List.countP_pos_iff.mpr ⟨_, hfree, by simp [Event.freesStack]⟩
    have hle : (phaseOf past t).freesStack ≤ 1 := by
      cases phaseOf past t <;> simp [Phase.freesStack]
    omega
  · intro hone
    obtain ⟨event, hmem, hfrees⟩ := List.countP_pos_iff.mp
      (show 0 < past.countP (Event.freesStack t) by omega)
    cases event with
    | freeStack c u =>
        simp only [Event.freesStack, decide_eq_true_eq] at hfrees
        exact ⟨c, hfrees ▸ hmem⟩
    | _ => cases hfrees

theorem Lawful.unreaped_iff (h : Lawful past) :
    Unreaped past id ↔ phaseOf past (.thread id) ≠ .absent ∧
      phaseOf past (.thread id) ≠ .freed := by
  rw [Unreaped, h.create_mem, ← not_exists, h.freeTcb_mem]

end History

section Blocks

variable {m : Machine Core Sem} {items : QueueId Sem → List Nat}
  {past : List (Event Core Sem)} {id : Nat}

theorem Inv.tcb_mem_blocks (h : Inv m items) (hlife : Life past m items)
    (hlawful : Lawful past) :
    .tcb (.thread id) ∈ m.shared.blocks ↔ Unreaped past id := by
  rw [hlawful.unreaped_iff, ← List.count_pos_iff]
  change 0 < m.shared.amount (.tcb id) ↔ _
  have hle := h.amount_le_one (.tcb id)
  constructor
  · intro hpos
    obtain ⟨place, hat⟩ := h.exists_place
      (show m.shared.amount (.tcb id) = 1 by omega)
    rcases hlife.phase_of_at h hat with ⟨c, spot, -, hphase⟩ | hphase
    · rw [hphase]
      exact ⟨role_ne_absent _ _ _, role_ne_freed _ _ _⟩
    · rw [hphase]
      exact ⟨nofun, nofun⟩
  · rintro ⟨habsent, hfreed⟩
    by_contra hzero
    exact (hlife.gone id (by omega)).elim habsent hfreed

section

omit [DecidableEq Core] [DecidableEq Sem]

theorem role_freesStack {l : CoreState Core Sem} {c : Core} {spot : Spot} :
    (l.role c spot).freesStack = 1 ↔
      spot = .toDelete ∧ l.ctl.done = .stackFreed := by
  have hmode : l.ctl.done = .stackFreed → l.ctl.mode = .normal := by
    intro hdone
    cases hctl : l.ctl <;> first | rfl | (rw [hctl] at hdone; cases hdone)
  cases hcase : l.ctl.mode <;> cases hdone : l.ctl.done <;> cases spot <;>
    simp_all [CoreState.role, Phase.freesStack]

theorem PushOk.carries {c : Core} {idleSp : Resume Sem}
    {pc : PerCore Core Sem} {q : QueueId Sem} {value : Tcb Core}
    {site : PushSite Sem} (h : PushOk c idleSp pc q value site)
    (hslots : pc.SlotsNull) : ∃ id, site.hand value = some (.thread id) := by
  obtain ⟨-, hreschedule, hqueue, -⟩ := hslots
  cases site with
  | go =>
      obtain ⟨-, ⟨id, rfl⟩, -⟩ := h
      exact ⟨id, rfl⟩
  | up sem =>
      obtain ⟨-, ⟨id, rfl⟩, -⟩ := h
      exact ⟨id, rfl⟩
  | deferred =>
      obtain ⟨id, sem, -, -, rfl⟩ := h
      cases hqueue
  | reschedule =>
      obtain ⟨id, -, -, rfl⟩ := h
      cases hreschedule

/-- A core with a node in its hands has the thread that goes with it. -/
theorem CtlOk.carries {c : Core} {idleSp : Resume Sem} {pc : PerCore Core Sem}
    {ctl : Ctl Core Sem} (h : CtlOk c idleSp pc ctl) (hslots : pc.SlotsNull)
    {node : Nat} (hnode : ctl.node = some node) :
    ∃ id, ctl.hand = some (.thread id) := by
  have hop : ∀ op : HeapOp Core Sem, OpOk c idleSp pc op →
      op.node = some node → ∃ id, op.hand = some (.thread id) := by
    intro op hok hop
    cases op with
    | deleteNode _ _ _ =>
        obtain ⟨⟨id, rfl⟩, -⟩ := hok
        exact ⟨id, rfl⟩
    | _ => cases hop
  cases ctl with
  | heapWait op => exact hop op h hnode
  | heapHold op => exact hop op h hnode
  | outOfMemory op => exact hop op h.2 hnode
  | pushWait _ _ _ _ => exact PushOk.carries h hslots
  | pushHold _ _ _ _ => exact PushOk.carries h hslots
  | _ => cases hnode

end

theorem Inv.stack_mem_blocks (h : Inv m items) (hlife : Life past m items)
    (hlawful : Lawful past) :
    .stack (.thread id) ∈ m.shared.blocks ↔
      (Unreaped past id ∧ ∀ c, .freeStack c (.thread id) ∉ past) ∨
        ∃ c, (m.cores c).ctl.builds = some id := by
  rw [hlawful.unreaped_iff, ← not_exists, hlawful.freeStack_mem,
    ← List.count_pos_iff]
  change 0 < m.shared.amount (.stack id) ↔ _
  have hle := h.amount_le_one (.stack id)
  constructor
  · intro hpos
    obtain ⟨home, hmem⟩ := h.books.exists_home
      (show m.shared.amount (.stack id) = 1 by omega)
    cases home with
    | core c =>
        rcases stack_mem_holds.mp hmem with hbuilds | ⟨spot, hhas, hkept⟩
        · exact .inr ⟨c, hbuilds⟩
        · rw [(hlife.core c).spots id spot hhas, role_freesStack]
          refine .inl ⟨⟨role_ne_absent _ _ _, role_ne_freed _ _ _⟩, ?_⟩
          exact fun ⟨hspot, hdone⟩ => hkept hspot hdone
    | queue q =>
        obtain ⟨node, hnode, hvalue⟩ := stack_mem_queueHolds.mp hmem
        rw [hlife.queued q node hnode id hvalue]
        exact .inl ⟨⟨nofun, nofun⟩, nofun⟩
  · rintro (⟨hunreaped, hkept⟩ | ⟨c, hbuilds⟩)
    · have htcb := (h.tcb_mem_blocks hlife hlawful).mpr
        (hlawful.unreaped_iff.mpr hunreaped)
      have hone : m.shared.amount (.tcb id) = 1 := by
        have hpos : 0 < m.shared.amount (.tcb id) :=
          List.count_pos_iff.mpr htcb
        have hle := h.amount_le_one (.tcb id)
        omega
      obtain ⟨place, hat⟩ := h.exists_place hone
      have hmem : .stack id ∈ m.own items place.home := by
        cases place with
        | core c spot =>
            refine stack_mem_holds.mpr (.inr ⟨spot, hat, fun hspot hdone => ?_⟩)
            rw [(hlife.core c).spots id spot hat, role_freesStack] at hkept
            exact hkept ⟨hspot, hdone⟩
        | queued q node =>
            obtain ⟨nodes, hlinked, hnode, hvalue⟩ := hat
            rw [hlinked.unique (h.linked q)] at hnode
            exact stack_mem_queueHolds.mpr ⟨node, hnode, hvalue⟩
      rw [h.books.amount_of_mem hmem]
      exact Nat.one_pos
    · rw [h.amount_of_held c (stack_mem_holds_of_builds hbuilds)]
      exact Nat.one_pos

theorem Inv.node_mem_blocks (h : Inv m items) {node : Nat} :
    .node node ∈ m.shared.blocks ↔
      (∃ q, node ∈ items q) ∨ ∃ c, (m.cores c).ctl.node = some node := by
  rw [← List.count_pos_iff]
  change 0 < m.shared.amount (.node node) ↔ _
  have hle := h.amount_le_one (.node node)
  constructor
  · intro hpos
    obtain ⟨home, hmem⟩ := h.books.exists_home
      (show m.shared.amount (.node node) = 1 by omega)
    cases home with
    | core c => exact .inr ⟨c, node_mem_holds.mp hmem⟩
    | queue q => exact .inl ⟨q, node_mem_queueHolds_iff.mp hmem⟩
  · rintro (⟨q, hnode⟩ | ⟨c, hheld⟩)
    · rw [h.books.amount_of_mem (a := .queue q)
        (node_mem_queueHolds_iff.mpr hnode)]
      exact Nat.one_pos
    · rw [h.amount_of_held c (node_mem_holds.mpr hheld)]
      exact Nat.one_pos

/-- The blocks of the idle threads are allocated before the run. -/
theorem Run.no_idle_blocks {cnt : Sem → Int}
    {ok : List (Event Core Sem) → Machine Core Sem → Core → Action Sem → Prop}
    (h : Run cnt ok past m) (c : Core) :
    .stack (.idle c) ∉ m.shared.blocks ∧ .tcb (.idle c) ∉ m.shared.blocks := by
  induction h with
  | boot => exact ⟨List.not_mem_nil, List.not_mem_nil⟩
  | step before _ hstep ih =>
      obtain ⟨items, hinv⟩ := before.inv
      obtain ⟨out, hmove, -, rfl⟩ := hinv.step_move hstep
      change _ ∉ out.shared.blocks ∧ _ ∉ out.shared.blocks
      rcases hmove.blocks_cases with ⟨-, hsame | ⟨freed, hfreed⟩⟩ |
        ⟨-, new, hnew, hwhich⟩
      · rw [hsame]
        exact ih
      · rw [hfreed]
        exact ⟨fun hmem => ih.1 (List.mem_of_mem_erase hmem),
          fun hmem => ih.2 (List.mem_of_mem_erase hmem)⟩
      · rw [hnew]
        rcases hwhich with rfl | rfl | ⟨id, rfl, -⟩ <;> simpa using ih

theorem Run.blocks_nodup {cnt : Sem → Int}
    {ok : List (Event Core Sem) → Machine Core Sem → Core → Action Sem → Prop}
    (h : Run cnt ok past m) : m.shared.blocks.Nodup := by
  obtain ⟨items, hinv⟩ := h.inv
  rw [List.nodup_iff_count_le_one]
  intro block
  have hidle := h.no_idle_blocks
  cases block with
  | stack t =>
      cases t with
      | idle c =>
          rw [List.count_eq_zero.mpr (hidle c).1]
          exact Nat.zero_le 1
      | thread id => exact hinv.amount_le_one (.stack id)
  | tcb t =>
      cases t with
      | idle c =>
          rw [List.count_eq_zero.mpr (hidle c).2]
          exact Nat.zero_le 1
      | thread id => exact hinv.amount_le_one (.tcb id)
  | node id => exact hinv.amount_le_one (.node id)

/-- In every run the blocks are exactly those in use. -/
theorem Run.mem_blocks {cnt : Sem → Int}
    {ok : List (Event Core Sem) → Machine Core Sem → Core → Action Sem → Prop}
    (h : Run cnt ok past m) (block : Block Core) :
    block ∈ m.shared.blocks ↔ InUse past m block := by
  obtain ⟨hlawful, items, hinv, hlife⟩ := h.life
  constructor
  · intro hmem
    cases block with
    | stack t =>
        cases t with
        | idle c => exact absurd hmem (h.no_idle_blocks c).1
        | thread id =>
            rcases (hinv.stack_mem_blocks hlife hlawful).mp hmem with
              ⟨hunreaped, hkept⟩ | ⟨c, hbuilds⟩
            · exact .stack hunreaped hkept
            · exact .building hbuilds
    | tcb t =>
        cases t with
        | idle c => exact absurd hmem (h.no_idle_blocks c).2
        | thread id => exact .tcb ((hinv.tcb_mem_blocks hlife hlawful).mp hmem)
    | node id =>
        rcases hinv.node_mem_blocks.mp hmem with ⟨q, hnode⟩ | ⟨c, hheld⟩
        · exact .linked (hinv.linked q) hnode
        · exact .inHand hheld
  · intro huse
    cases huse with
    | tcb hunreaped => exact (hinv.tcb_mem_blocks hlife hlawful).mpr hunreaped
    | stack hunreaped hkept =>
        exact (hinv.stack_mem_blocks hlife hlawful).mpr
          (.inl ⟨hunreaped, hkept⟩)
    | building hbuilds =>
        exact (hinv.stack_mem_blocks hlife hlawful).mpr (.inr ⟨_, hbuilds⟩)
    | @linked q nodes node hlinked hnode =>
        rw [hlinked.unique (hinv.linked q)] at hnode
        exact hinv.node_mem_blocks.mpr (.inl ⟨q, hnode⟩)
    | inHand hheld => exact hinv.node_mem_blocks.mpr (.inr ⟨_, hheld⟩)

/-- All threads are reaped, the queues are empty, no hand-off is requested and
no thread is being built. -/
structure Quiescent (past : List (Event Core Sem)) (m : Machine Core Sem) :
    Prop where
  reaped : ∀ id, ¬ Unreaped past id
  empty : ∀ q, m.shared.queue q = .empty
  slots : ∀ c, (m.cores c).pc.SlotsNull
  built : ∀ c id, (m.cores c).ctl.builds ≠ some id

/-- In a quiescent state the thread system has no heap block. -/
theorem Run.blocks_of_quiescent {cnt : Sem → Int}
    {ok : List (Event Core Sem) → Machine Core Sem → Core → Action Sem → Prop}
    (h : Run cnt ok past m) (hquiet : Quiescent past m) :
    m.shared.blocks = [] := by
  rw [List.eq_nil_iff_forall_not_mem]
  intro block hmem
  obtain ⟨items, hinv⟩ := h.inv
  cases (h.mem_blocks block).mp hmem with
  | tcb hunreaped => exact hquiet.reaped _ hunreaped
  | stack hunreaped _ => exact hquiet.reaped _ hunreaped
  | building hbuilds => exact hquiet.built _ _ hbuilds
  | @linked q nodes node hlinked hnode =>
      rw [hquiet.empty q] at hlinked
      rw [hlinked.unique (LinkedQueue.linked_empty _)] at hnode
      cases hnode
  | @inHand c node hheld =>
      obtain ⟨id, hhand⟩ := (hinv.ctl c).carries (hquiet.slots c) hheld
      have hhas : (m.cores c).Has id .held := has_held hhand
      have hpos : 0 < m.shared.blocks.count (.tcb (.thread id)) := by
        have hone : m.shared.blocks.count (.tcb (.thread id)) = 1 :=
          hinv.amount_of_has hhas
        omega
      cases (h.mem_blocks _).mp (List.count_pos_iff.mp hpos) with
      | tcb hunreaped => exact hquiet.reaped id hunreaped

end Blocks

end Threads

end IntroOs
