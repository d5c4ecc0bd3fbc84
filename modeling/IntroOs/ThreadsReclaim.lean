/-
How stopped threads are reclaimed: each is freed once, by the core it stopped
on, and nothing touches it afterwards.
-/
import IntroOs.ThreadsLife

namespace IntroOs

namespace Threads

variable {Core Sem : Type} [DecidableEq Core] [DecidableEq Sem]

def Event.stops (t : Tcb Core) : Event Core Sem → Bool
  | .stop _ u => u = t
  | _ => false

def Event.freesStack (t : Tcb Core) : Event Core Sem → Bool
  | .freeStack _ u => u = t
  | _ => false

def Event.freesTcb (t : Tcb Core) : Event Core Sem → Bool
  | .freeTcb _ u => u = t
  | _ => false

/-- The TCBs that an event is about. -/
def Event.tcbs : Event Core Sem → List (Tcb Core)
  | .create t | .load _ t | .save _ t | .stop _ t | .freeStack _ t
  | .freeTcb _ t | .link _ t | .pass _ t | .block _ t | .downRet _ t
  | .callUp _ t | .up _ t _ => [t]
  | .unlink caller _ t => [caller, t]

section History

variable {past : List (Event Core Sem)} {event : Event Core Sem} {t : Tcb Core}

/-- How often a thread in a phase has called `stop`. -/
def Phase.stops : Phase Core → Nat
  | .stopping _ | .stopped _ | .stackFreed _ | .freed => 1
  | _ => 0

def Phase.freesStack : Phase Core → Nat
  | .stackFreed _ | .freed => 1
  | _ => 0

def Phase.freesTcb : Phase Core → Nat
  | .freed => 1
  | _ => 0

/-- The turns in the life of `t`. -/
inductive Turn (t : Tcb Core) : Event Core Sem → Phase Core → Phase Core → Prop
  | other {event : Event Core Sem} {phase : Phase Core}
      (ne : event.subject ≠ some t) : Turn t event phase phase
  | create : Turn t (.create t) .absent .suspended
  | load (c : Core) : Turn t (.load c t) .suspended (.running c)
  | save (c : Core) : Turn t (.save c t) (.running c) .suspended
  | leave (c : Core) : Turn t (.save c t) (.stopping c) (.stopped c)
  | stop (c : Core) : Turn t (.stop c t) (.running c) (.stopping c)
  | freeStack (c : Core) :
      Turn t (.freeStack c t) (.stopped c) (.stackFreed c)
  | freeTcb (c : Core) : Turn t (.freeTcb c t) (.stackFreed c) .freed

/-- Once stopped, a thread stays with its core until it is freed. -/
def Phase.AfterStop (c : Core) (phase : Phase Core) : Prop :=
  phase = .stopping c ∨ phase = .stopped c ∨ phase = .stackFreed c ∨
    phase = .freed

section

omit [DecidableEq Core] [DecidableEq Sem]

theorem Turn.afterStop {phase phase' : Phase Core} {c : Core}
    (h : Turn t event phase phase') (hphase : phase.AfterStop c) :
    phase'.AfterStop c := by
  cases h with
  | other _ => exact hphase
  | _ => simp_all [Phase.AfterStop]

end

section

omit [DecidableEq Sem]

theorem Lawful.last (h : Lawful (past ++ [event])) :
    Lawful past ∧ Permitted past event :=
  History.Along.last h

theorem Permitted.turn (h : Permitted past event) (t : Tcb Core) :
    Turn t event (phaseOf past t) (phaseOf (past ++ [event]) t) := by
  by_cases hsubject : event.subject = some t
  · rw [phaseOf_concat]
    cases event <;> cases hsubject <;> rw [Phase.next, if_pos rfl]
    · rw [show phaseOf past t = .absent from h]
      exact .create
    · rw [show phaseOf past t = .suspended from h]
      exact .load _
    · rcases h.1 with hphase | hphase
      · rw [hphase, if_neg (by simp)]
        exact .save _
      · rw [hphase, if_pos rfl]
        exact .leave _
    · rw [h.1]
      exact .stop _
    · rw [h.1]
      exact .freeStack _
    · rw [h.1]
      exact .freeTcb _
  · have hsame : phaseOf (past ++ (some event).toList) t = phaseOf past t :=
      phaseOf_append_of_ne hsubject
    rw [Option.toList_some] at hsame
    rw [hsame]
    exact .other hsubject

theorem Turn.counts {phase phase' : Phase Core}
    (h : Turn t event phase phase') :
    phase'.stops = phase.stops + (event.stops t).toNat ∧
      phase'.freesStack = phase.freesStack + (event.freesStack t).toNat ∧
      phase'.freesTcb = phase.freesTcb + (event.freesTcb t).toNat := by
  cases h with
  | other hne =>
      cases event <;>
        simp_all [Event.subject, Event.stops, Event.freesStack, Event.freesTcb]
  | _ =>
      simp [Phase.stops, Phase.freesStack, Phase.freesTcb, Event.stops,
        Event.freesStack, Event.freesTcb]

/-- The phase of a TCB says how often it was stopped and freed. -/
theorem Lawful.counts (h : Lawful past) (t : Tcb Core) :
    past.countP (Event.stops t) = (phaseOf past t).stops ∧
      past.countP (Event.freesStack t) = (phaseOf past t).freesStack ∧
      past.countP (Event.freesTcb t) = (phaseOf past t).freesTcb := by
  induction past using List.reverseRecOn with
  | nil => cases t <;> exact ⟨rfl, rfl, rfl⟩
  | append_singleton past event ih =>
      obtain ⟨hbefore, hpermitted⟩ := h.last
      obtain ⟨hstops, hstack, htcb⟩ := (hpermitted.turn t).counts
      obtain ⟨ihstops, ihstack, ihtcb⟩ := ih hbefore
      rw [hstops, hstack, htcb, ← ihstops, ← ihstack, ← ihtcb]
      simp only [List.countP_append, List.countP_singleton]
      cases event.stops t <;> cases event.freesStack t <;>
        cases event.freesTcb t <;> exact ⟨rfl, rfl, rfl⟩

theorem Lawful.afterStop (h : Lawful past) {c : Core}
    (hstop : .stop c t ∈ past) : (phaseOf past t).AfterStop c := by
  induction past using List.reverseRecOn with
  | nil => cases hstop
  | append_singleton past event ih =>
      obtain ⟨hbefore, hpermitted⟩ := h.last
      rcases List.mem_append.mp hstop with hmem | hlast
      · exact (hpermitted.turn t).afterStop (ih hbefore hmem)
      · rw [List.mem_singleton] at hlast
        subst hlast
        left
        rw [phaseOf_concat, Phase.next, if_pos rfl]

theorem Lawful.freed (h : Lawful past) {c : Core} (hfree : .freeTcb c t ∈ past) :
    phaseOf past t = .freed := by
  have hcount := (h.counts t).2.2
  have hpos : 0 < past.countP (Event.freesTcb t) :=
    List.countP_pos_iff.mpr ⟨_, hfree, by simp [Event.freesTcb]⟩
  cases hphase : phaseOf past t <;> rw [hphase] at hcount <;>
    first | rfl | (simp only [Phase.freesTcb] at hcount; omega)

/-- An event is about TCBs that are not freed. -/
theorem Permitted.not_freed (h : Permitted past event)
    (hmem : t ∈ event.tcbs) : phaseOf past t ≠ .freed := by
  have hrunning : ∀ {u : Tcb Core},
      (∃ c, phaseOf past u = .running c ∧ stackOf past c = some u) →
      phaseOf past u ≠ .freed := by
    rintro u ⟨c, hphase, -⟩
    rw [hphase]
    exact nofun
  cases event with
  | unlink caller q u =>
      rcases List.mem_pair.mp hmem with rfl | rfl
      · exact hrunning h.2
      · rw [h.1]
        exact nofun
  | create u =>
      rw [List.mem_singleton.mp hmem, show phaseOf past u = _ from h]
      exact nofun
  | load c u =>
      rw [List.mem_singleton.mp hmem, show phaseOf past u = _ from h]
      exact nofun
  | link q u =>
      rw [List.mem_singleton.mp hmem, show phaseOf past u = _ from h]
      exact nofun
  | save c u =>
      rw [List.mem_singleton.mp hmem]
      rcases h.1 with hphase | hphase <;> rw [hphase] <;> exact nofun
  | stop c u =>
      rw [List.mem_singleton.mp hmem, h.1]
      exact nofun
  | freeStack c u =>
      rw [List.mem_singleton.mp hmem, h.1]
      exact nofun
  | freeTcb c u =>
      rw [List.mem_singleton.mp hmem, h.1]
      exact nofun
  | _ =>
      rw [List.mem_singleton.mp hmem]
      exact hrunning h

end

end History

section Finish

variable {c : Core} {t : Tcb Core} {m : Machine Core Sem}

/-- Some steps of core `c` alone free the thread. -/
def Frees (c : Core) (t : Tcb Core) (m : Machine Core Sem) : Prop :=
  ∃ n events m', follow m (List.replicate n (c, .run)) = some (events, m') ∧
    .freeTcb c t ∈ events

theorem step_run {l : CoreState Core Sem} {out : Outcome Core Sem}
    (hcore : m.cores c = l) (hrun : run c l m.shared = some out) :
    step c .run m = some (out.event, m.after c out) := by
  rw [← hcore] at hrun
  simp only [step, coreStep, hrun, Option.map_some]
  rfl

theorem Frees.now {l : CoreState Core Sem} {out : Outcome Core Sem}
    (hcore : m.cores c = l) (hrun : run c l m.shared = some out)
    (hfree : out.event = some (.freeTcb c t)) : Frees c t m := by
  refine ⟨1, [.freeTcb c t], m.after c out, ?_, List.mem_singleton_self _⟩
  simp only [List.replicate_one, follow, step_run hcore hrun, hfree,
    Option.bind_some, Option.map_some, Option.toList_some, List.append_nil]

theorem Frees.back {l : CoreState Core Sem} {out : Outcome Core Sem}
    (hcore : m.cores c = l) (hrun : run c l m.shared = some out)
    (h : Frees c t (m.after c out)) : Frees c t m := by
  obtain ⟨n, events, m', hfollow, hmem⟩ := h
  refine ⟨n + 1, out.event.toList ++ events, m', ?_,
    List.mem_append_right _ hmem⟩
  simp only [List.replicate_succ, follow, step_run hcore hrun, hfollow,
    Option.bind_some, Option.map_some]

section

omit [DecidableEq Core]

theorem run_spin {l : CoreState Core Sem} {s : Shared Core Sem}
    {lock : Lock Sem} {ctl : Ctl Core Sem} (h : s.locked lock = false) :
    spin l s lock ctl = some ⟨none, l.goto ctl, s.lock lock⟩ := by
  simp [spin, Shared.acquire, h]

end

theorem run_delete {pc : PerCore Core Sem} {op : HeapOp Core Sem}
    {s : Shared Core Sem} (h : op.allocates = false) :
    run c ⟨pc, .heapHold op⟩ s =
      some (heapSection c ⟨pc, .heapHold op⟩ (s.release .heap) op) := by
  simp [run, h]

theorem frees_tcbHold
    (h : m.cores c = ⟨asks c t .stopRet, .heapHold (.deleteTcb t)⟩) :
    Frees c t m :=
  .now h (run_delete rfl) rfl

theorem frees_tcbWait
    (h : m.cores c = ⟨asks c t .stopRet, .heapWait (.deleteTcb t)⟩)
    (hfree : m.shared.locked .heap = false) : Frees c t m :=
  .back h (run_spin hfree) (frees_tcbHold after_core_self)

theorem frees_stackHold
    (h : m.cores c = ⟨asks c t .stopRet, .heapHold (.deleteStack t)⟩) :
    Frees c t m :=
  .back h (run_delete rfl)
    (frees_tcbWait after_core_self (by
      simp [Machine.after, heapSection, Shared.free, Shared.release]))

theorem frees_stackWait
    (h : m.cores c = ⟨asks c t .stopRet, .heapWait (.deleteStack t)⟩)
    (hfree : m.shared.locked .heap = false) : Frees c t m :=
  .back h (run_spin hfree) (frees_stackHold after_core_self)

theorem frees_toDelete
    (h : m.cores c = ⟨asks c t .stopRet, .after .toDelete⟩)
    (hfree : m.shared.locked .heap = false) : Frees c t m :=
  .back h rfl (frees_stackWait after_core_self hfree)

theorem frees_load
    (h : m.cores c = ⟨asks c t .stopRet, .switchLoad⟩)
    (hidle : m.shared.sp (.idle c) = .idleAfter)
    (hfree : m.shared.locked .heap = false) : Frees c t m := by
  have hrun : run c ⟨asks c t .stopRet, .switchLoad⟩ m.shared =
      some ⟨some (.load c (.idle c)), resume c _ (m.shared.sp (.idle c)),
        m.shared⟩ := rfl
  rw [hidle] at hrun
  exact .back h hrun (frees_toDelete after_core_self hfree)

theorem frees_save {id : Nat}
    (h : m.cores c = ⟨asks c (.thread id) .stopRet, .switchSave .stopRet⟩)
    (hidle : m.shared.sp (.idle c) = .idleAfter)
    (hfree : m.shared.locked .heap = false) : Frees c (.thread id) m :=
  .back h rfl (frees_load after_core_self
    (by simpa [Machine.after, Shared.setSp] using hidle) hfree)

/-- Where a core can be while a thread waits in its `to_delete` slot. -/
inductive Deleting (c : Core) (idleSp : Resume Sem) (t : Tcb Core) :
    Ctl Core Sem → Prop
  | save (idle : idleSp = .idleAfter) : Deleting c idleSp t (.switchSave .stopRet)
  | load (idle : idleSp = .idleAfter) : Deleting c idleSp t .switchLoad
  | toDelete : Deleting c idleSp t (.after .toDelete)
  | stackWait : Deleting c idleSp t (.heapWait (.deleteStack t))
  | stackHold : Deleting c idleSp t (.heapHold (.deleteStack t))
  | tcbWait : Deleting c idleSp t (.heapWait (.deleteTcb t))
  | tcbHold : Deleting c idleSp t (.heapHold (.deleteTcb t))
  | deleted : Deleting c idleSp t (.after .deleted)

section

omit [DecidableEq Core] [DecidableEq Sem]

theorem Leaving.deleting {idleSp resume : Resume Sem} {pc : PerCore Core Sem}
    (h : Leaving c idleSp pc resume) (hslot : pc.toDelete = some t) :
    idleSp = .idleAfter ∧ resume = .stopRet ∧ ∃ id, t = .thread id ∧
      pc = asks c t .stopRet := by
  obtain ⟨hidle, hleaves, id, rfl⟩ := h
  cases hleaves <;> cases hslot
  exact ⟨hidle, rfl, id, rfl, rfl⟩

theorem OnThread.toDelete {idleSp : Resume Sem} {pc : PerCore Core Sem}
    (h : OnThread idleSp pc) : pc.toDelete = none := by
  obtain ⟨-, prev, id, rfl⟩ := h
  rfl

theorem Fore.toDelete {idleSp : Resume Sem} {pc : PerCore Core Sem}
    (h : Fore idleSp pc) : pc.toDelete = none := by
  rcases h with rfl | h
  · rfl
  · exact h.toDelete

theorem PushOk.toDelete {idleSp : Resume Sem} {pc : PerCore Core Sem}
    {q : QueueId Sem} {value : Tcb Core} {site : PushSite Sem}
    (h : PushOk c idleSp pc q value site) : pc.toDelete = none := by
  cases site with
  | go => exact h.2.2.toDelete
  | up sem => exact h.2.2.toDelete
  | deferred =>
      obtain ⟨id, sem, -, -, rfl⟩ := h
      rfl
  | reschedule =>
      obtain ⟨id, -, -, rfl⟩ := h
      rfl

theorem PopOk.toDelete {idleSp : Resume Sem} {pc : PerCore Core Sem}
    {site : PopSite Sem} (h : PopOk c idleSp pc site) : pc.toDelete = none := by
  cases site with
  | next =>
      obtain ⟨prev, rfl⟩ := h
      rfl
  | up sem => exact OnThread.toDelete h

theorem OpOk.deleting {idleSp : Resume Sem} {pc : PerCore Core Sem}
    {op : HeapOp Core Sem} (h : OpOk c idleSp pc op)
    (hslot : pc.toDelete = some t) :
    (op = .deleteStack t ∨ op = .deleteTcb t) ∧ ∃ id, t = .thread id ∧
      pc = asks c t .stopRet := by
  cases op with
  | newStack => rw [Fore.toDelete h] at hslot; cases hslot
  | newTcb _ => rw [Fore.toDelete h] at hslot; cases hslot
  | newNode _ _ _ => rw [PushOk.toDelete h] at hslot; cases hslot
  | deleteNode _ _ _ => rw [h.2.toDelete] at hslot; cases hslot
  | deleteStack tcb =>
      obtain ⟨id, rfl, rfl⟩ := h
      cases hslot
      exact ⟨.inl rfl, id, rfl, rfl⟩
  | deleteTcb tcb =>
      obtain ⟨id, rfl, rfl⟩ := h
      cases hslot
      exact ⟨.inr rfl, id, rfl, rfl⟩

/-- What a core is doing while a thread waits in its `to_delete` slot. -/
theorem CtlOk.deleting {idleSp : Resume Sem} {pc : PerCore Core Sem}
    {ctl : Ctl Core Sem} (h : CtlOk c idleSp pc ctl)
    (hslot : pc.toDelete = some t) :
    Deleting c idleSp t ctl ∧ ∃ id, t = .thread id ∧ pc = asks c t .stopRet := by
  cases ctl with
  | client => rw [Fore.toDelete h] at hslot; cases hslot
  | heapWait op =>
      obtain ⟨rfl | rfl, hpc⟩ := OpOk.deleting h hslot
      · exact ⟨.stackWait, hpc⟩
      · exact ⟨.tcbWait, hpc⟩
  | heapHold op =>
      obtain ⟨rfl | rfl, hpc⟩ := OpOk.deleting h hslot
      · exact ⟨.stackHold, hpc⟩
      · exact ⟨.tcbHold, hpc⟩
  | outOfMemory op =>
      obtain ⟨rfl | rfl, -⟩ := OpOk.deleting h.2 hslot
      · cases h.1
      · cases h.1
  | pushWait _ _ _ _ => rw [PushOk.toDelete h] at hslot; cases hslot
  | pushHold _ _ _ _ => rw [PushOk.toDelete h] at hslot; cases hslot
  | popWait _ => rw [PopOk.toDelete h] at hslot; cases hslot
  | popHold _ => rw [PopOk.toDelete h] at hslot; cases hslot
  | switchSave resume =>
      rcases h with ⟨-, rfl⟩ | h | ⟨-, id, rfl⟩
      · cases hslot
      · obtain ⟨hidle, rfl, hpc⟩ := h.deleting hslot
        exact ⟨.save hidle, hpc⟩
      · cases hslot
  | switchLoad =>
      rcases h with rfl | ⟨resume, h⟩ | ⟨-, id, rfl⟩
      · cases hslot
      · obtain ⟨hidle, -, hpc⟩ := h.deleting hslot
        exact ⟨.load hidle, hpc⟩
      · cases hslot
  | after stage =>
      cases stage with
      | toDelete =>
          rcases h with ⟨resume, h⟩ | ⟨prev, rfl⟩
          · exact ⟨.toDelete, (h.deleting hslot).2.2⟩
          · cases hslot
      | deleted =>
          obtain ⟨id, rfl⟩ := h
          cases hslot
          exact ⟨.deleted, id, rfl, rfl⟩
      | toQueue =>
          rcases h with ⟨id, sem, rfl⟩ | ⟨id, rfl⟩ | ⟨prev, rfl⟩ <;> cases hslot
      | unlock => obtain ⟨id, sem, rfl⟩ := h; cases hslot
      | queued => obtain ⟨id, sem, rfl⟩ := h; cases hslot
      | toReschedule =>
          rcases h with ⟨id, rfl⟩ | ⟨prev, rfl⟩ <;> cases hslot
      | rescheduled => obtain ⟨id, rfl⟩ := h; cases hslot
  | idlePanic => exact h.elim
  | unreachable => exact h.elim
  | _ => rw [OnThread.toDelete h] at hslot; cases hslot

end

end Finish

section Reclaim

variable {m : Machine Core Sem} {items : QueueId Sem → List Nat} {c : Core}
  {past : List (Event Core Sem)} {id : Nat}

/-- A core with a thread to delete frees it by its own steps, once the heap's
lock lets it. -/
theorem Inv.frees (h : Inv m items) (hhas : (m.cores c).Has id .toDelete)
    (hheap : m.shared.locked .heap = false ∨
      ∃ op, (m.cores c).ctl = .heapHold op) : Frees c (.thread id) m := by
  obtain ⟨hslot, hpending⟩ := hhas
  obtain ⟨hdeleting, id', heq, hpc⟩ := (h.ctl c).deleting hslot
  cases heq
  generalize hctl : (m.cores c).ctl = ctl at hdeleting hpending hheap
  have hcore : m.cores c = ⟨asks c (.thread id) .stopRet, ctl⟩ := by
    rw [← hpc, ← hctl]
  have hfree : (∀ op, ctl ≠ .heapHold op) → m.shared.locked .heap = false := by
    intro hne
    rcases hheap with hfree | ⟨op, hop⟩
    · exact hfree
    · exact absurd hop (hne op)
  cases hdeleting with
  | save hidle => exact frees_save hcore hidle (hfree nofun)
  | load hidle => exact frees_load hcore hidle (hfree nofun)
  | toDelete => exact frees_toDelete hcore (hfree nofun)
  | stackWait => exact frees_stackWait hcore (hfree nofun)
  | stackHold => exact frees_stackHold hcore
  | tcbWait => exact frees_tcbWait hcore (hfree nofun)
  | tcbHold => exact frees_tcbHold hcore
  | deleted => exact absurd (by simp [Ctl.done, Done.carriedOut]) hpending

section

omit [DecidableEq Core] [DecidableEq Sem]

theorem role_afterStop {l : CoreState Core Sem} {c' : Core} {spot : Spot}
    (h : (l.role c' spot).AfterStop c) : spot = .toDelete ∧ c' = c := by
  cases hmode : l.ctl.mode <;> cases hdone : l.ctl.done <;> cases spot <;>
    simp_all [CoreState.role, Phase.AfterStop]

theorem role_ne_freed (l : CoreState Core Sem) (c : Core) (spot : Spot) :
    l.role c spot ≠ .freed := by
  cases hmode : l.ctl.mode <;> cases hdone : l.ctl.done <;> cases spot <;>
    simp [CoreState.role, hmode, hdone]

end

section

omit [DecidableEq Sem]

theorem idleRole_afterStop (l : CoreState Core Sem) (c c' : Core) :
    ¬ (l.idleRole c').AfterStop c := by
  cases hmode : l.ctl.mode <;> simp only [CoreState.idleRole, hmode] <;>
    try split
  all_goals simp [Phase.AfterStop]

theorem Life.thread_of_afterStop (hlife : Life past m items) {t : Tcb Core}
    (h : (phaseOf past t).AfterStop c) : ∃ id, t = .thread id := by
  cases t with
  | idle c' =>
      rw [(hlife.core c').idle] at h
      exact absurd h (idleRole_afterStop _ _ _)
  | thread id => exact ⟨id, rfl⟩

end

/-- What a place says about the phase of the thread that is there. -/
theorem Life.phase_of_at (hlife : Life past m items) (hinv : Inv m items)
    {place : Place Core Sem} (hat : m.At id place) :
    (∃ c spot, place = .core c spot ∧
      phaseOf past (.thread id) = (m.cores c).role c spot) ∨
    phaseOf past (.thread id) = .suspended := by
  cases place with
  | core c spot => exact .inl ⟨c, spot, rfl, (hlife.core c).spots id spot hat⟩
  | queued q node =>
      obtain ⟨nodes, hlinked, hnode, hvalue⟩ := hat
      rw [hlinked.unique (hinv.linked q)] at hnode
      exact .inr (hlife.queued q node hnode id hvalue)

/-- A stopped thread that is not freed waits in the slot of its core. -/
theorem Life.has_of_afterStop (hlife : Life past m items) (hinv : Inv m items)
    (h : (phaseOf past (.thread id)).AfterStop c)
    (hfreed : phaseOf past (.thread id) ≠ .freed) :
    (m.cores c).Has id .toDelete := by
  have hone : m.shared.amount (.tcb id) = 1 := by
    have hle := hinv.amount_le_one (.tcb id)
    by_contra hne
    rcases hlife.gone id (by omega) with habsent | hfreed'
    · rw [habsent] at h
      simp [Phase.AfterStop] at h
    · exact hfreed hfreed'
  obtain ⟨place, hat⟩ := hinv.exists_place hone
  rcases hlife.phase_of_at hinv hat with ⟨c', spot, rfl, hrole⟩ | hsuspended
  · rw [hrole] at h
    obtain ⟨rfl, rfl⟩ := role_afterStop h
    exact hat
  · rw [hsuspended] at h
    simp [Phase.AfterStop] at h

theorem Life.freed_nowhere (hlife : Life past m items) (hinv : Inv m items)
    (hfreed : phaseOf past (.thread id) = .freed) (place : Place Core Sem) :
    ¬ m.At id place := by
  intro hat
  rcases hlife.phase_of_at hinv hat with ⟨c, spot, -, hrole⟩ | hsuspended
  · exact role_ne_freed _ _ _ (hrole.symm.trans hfreed)
  · rw [hsuspended] at hfreed
    cases hfreed

/-- Every event of every run is one its history permits, and none is about a
TCB freed before.  A freed TCB is a thread's and is in no place.  A stopped
thread stopped once, and its stack and TCB were freed once each, or it waits
in the `to_delete` slot of the core it stopped on, which frees it by its own
steps. -/
theorem run_reclaims_threads (cnt : Sem → Int) (h : AnyRun cnt past m) :
    (∀ pre event post, past = pre ++ event :: post →
      Permitted pre event ∧
        ∀ c t, .freeTcb c t ∈ pre → t ∉ event.tcbs) ∧
    (∀ c t, .freeTcb c t ∈ past →
      ∃ id, t = .thread id ∧ ∀ place, ¬ m.At id place) ∧
    (∀ c t, .stop c t ∈ past → past.countP (Event.stops t) = 1 ∧
      ((past.countP (Event.freesStack t) = 1 ∧
          past.countP (Event.freesTcb t) = 1) ∨
        (past.countP (Event.freesTcb t) = 0 ∧
          (m.cores c).pc.toDelete = some t ∧
          (m.shared.locked .heap = false ∨
            (∃ op, (m.cores c).ctl = .heapHold op) → Frees c t m)))) := by
  obtain ⟨hlawful, items, hinv, hlife⟩ := h.life
  refine ⟨fun pre event post heq => ⟨hlawful pre event post heq, ?_⟩,
    fun c t hfree => ?_, fun c t hstop => ?_⟩
  · intro c t hfree hmem
    have hpre : Lawful pre := by
      intro pre' event' post' heq'
      refine hlawful pre' event' (post' ++ event :: post) ?_
      rw [heq, heq']
      simp
    exact (hlawful pre event post heq).not_freed hmem (hpre.freed hfree)
  · have hfreed := hlawful.freed hfree
    obtain ⟨id, rfl⟩ := hlife.thread_of_afterStop (c := c)
      (.inr (.inr (.inr hfreed)))
    exact ⟨id, rfl, hlife.freed_nowhere hinv hfreed⟩
  · have hafter := hlawful.afterStop hstop
    obtain ⟨hstops, hstack, htcb⟩ := hlawful.counts t
    obtain ⟨id, rfl⟩ := hlife.thread_of_afterStop hafter
    rw [hstops, hstack, htcb]
    refine ⟨?_, ?_⟩
    · rcases hafter with hphase | hphase | hphase | hphase <;> rw [hphase] <;>
        rfl
    · by_cases hfreed : phaseOf past (.thread id) = .freed
      · left
        rw [hfreed]
        exact ⟨rfl, rfl⟩
      · right
        have hhas := hlife.has_of_afterStop hinv hafter hfreed
        refine ⟨?_, hhas.1, hinv.frees hhas⟩
        cases hphase : phaseOf past (.thread id) with
        | freed => exact absurd hphase hfreed
        | _ => rfl

/-- After booting, the thread stops and its core frees it. -/
def stopSchedule : List (Unit × Action Unit) :=
  bootSchedule ++ [((), .call .stop)] ++ List.replicate 7 ((), .run)

theorem run_reclaims_threads_stop :
    ∃ (past : List (Event Unit Unit)) (m : Machine Unit Unit),
      AnyRun (fun _ => 0) past m ∧ .stop () (.thread 0) ∈ past ∧
      .freeTcb () (.thread 0) ∈ past ∧
      past.countP (Event.stops (.thread 0)) = 1 ∧
      ∀ place, ¬ m.At 0 place := by
  have hfollow : ∃ past m, follow (initial fun _ => 0) stopSchedule =
      some (past, m) ∧ .stop () (.thread 0) ∈ past ∧
      .freeTcb () (.thread 0) ∈ past :=
    ⟨_, _, rfl, by decide, by decide⟩
  obtain ⟨past, m, hrun, hstop, hfree⟩ := hfollow
  have hreach : AnyRun (fun _ => 0) past m := AnyRun.follow .boot hrun
  obtain ⟨-, hnowhere, hstops⟩ := run_reclaims_threads (fun _ => 0) hreach
  obtain ⟨id, heq, hplace⟩ := hnowhere () _ hfree
  cases heq
  exact ⟨past, m, hreach, hstop, hfree, (hstops () _ hstop).1, hplace⟩

end Reclaim

end Threads

end IntroOs
