/-
The life of a thread, read off the history of a run: when its context is
loaded and saved, when it stops and when it is freed.  Every event of every
run is one the history before it permits.
-/
import IntroOs.History
import IntroOs.ThreadsPlaces

namespace IntroOs

namespace Threads

/-- What has become of a TCB: not built yet, its context saved and its stack
not in use, running on a core, on its way out of a core after `stop`, switched
away from for good, without its stack, freed. -/
inductive Phase (Core : Type) where
  | absent
  | suspended
  | running (core : Core)
  | stopping (core : Core)
  | stopped (core : Core)
  | stackFreed (core : Core)
  | freed
deriving DecidableEq

variable {Core Sem : Type} [DecidableEq Core] [DecidableEq Sem]

/-- The phase of `t` after an event. -/
def Phase.next (t : Tcb Core) (phase : Phase Core) :
    Event Core Sem → Phase Core
  | .create u => if u = t then .suspended else phase
  | .load c u => if u = t then .running c else phase
  | .save c u =>
      if u = t then
        if phase = .stopping c then .stopped c else .suspended
      else phase
  | .stop c u => if u = t then .stopping c else phase
  | .freeStack c u => if u = t then .stackFreed c else phase
  | .freeTcb _ u => if u = t then .freed else phase
  | _ => phase

/-- The idle TCBs are built before any run starts. -/
def Phase.start : Tcb Core → Phase Core
  | .idle _ => .suspended
  | .thread _ => .absent

def phaseOf (past : List (Event Core Sem)) (t : Tcb Core) : Phase Core :=
  past.foldl (Phase.next t) (Phase.start t)

/-- The TCB whose stack a core is on: the one it loaded last. -/
def stackOf (past : List (Event Core Sem)) (c : Core) : Option (Tcb Core) :=
  past.foldl (fun stack event =>
    match event with
    | .load c' t => if c' = c then some t else stack
    | _ => stack) none

/-- What may happen after the history `past`.  A stack pointer is loaded only
when the context is saved, and saved by the core that runs the thread; a
thread is enqueued and dequeued only while it is suspended, calls only while
it runs, and is freed by the idle loop of the core it stopped on, which is on
its own stack, after the thread has been switched away from. -/
def Permitted (past : List (Event Core Sem)) : Event Core Sem → Prop
  | .create t => phaseOf past t = .absent
  | .load _ t => phaseOf past t = .suspended
  | .save c t =>
      (phaseOf past t = .running c ∨ phaseOf past t = .stopping c) ∧
        stackOf past c = some t
  | .stop c t => phaseOf past t = .running c ∧ stackOf past c = some t
  | .freeStack c t =>
      phaseOf past t = .stopped c ∧ stackOf past c = some (.idle c)
  | .freeTcb c t =>
      phaseOf past t = .stackFreed c ∧ stackOf past c = some (.idle c)
  | .link _ t => phaseOf past t = .suspended
  | .unlink caller _ t => phaseOf past t = .suspended ∧
      ∃ c, phaseOf past caller = .running c ∧ stackOf past c = some caller
  | .pass _ t | .block _ t | .downRet _ t | .callUp _ t | .up _ t _ =>
      ∃ c, phaseOf past t = .running c ∧ stackOf past c = some t

section History

variable {past : List (Event Core Sem)}

/-- The TCB whose phase an event may change. -/
def Event.subject : Event Core Sem → Option (Tcb Core)
  | .create t | .load _ t | .save _ t | .stop _ t | .freeStack _ t
  | .freeTcb _ t => some t
  | _ => none

section

omit [DecidableEq Sem]

theorem phaseOf_append (event : Option (Event Core Sem)) (t : Tcb Core) :
    phaseOf (past ++ event.toList) t =
      event.elim (phaseOf past t) (Phase.next t (phaseOf past t)) := by
  cases event with
  | none => simp [phaseOf]
  | some event => simp [phaseOf]

theorem phaseOf_concat (event : Event Core Sem) (t : Tcb Core) :
    phaseOf (past ++ [event]) t = Phase.next t (phaseOf past t) event := by
  simp [phaseOf]

theorem phaseOf_append_of_ne {event : Option (Event Core Sem)} {t : Tcb Core}
    (h : event.bind Event.subject ≠ some t) :
    phaseOf (past ++ event.toList) t = phaseOf past t := by
  rw [phaseOf_append]
  cases event with
  | none => rfl
  | some event =>
      cases event <;> simp_all [Phase.next, Event.subject]

theorem stackOf_append (event : Option (Event Core Sem)) (c : Core) :
    stackOf (past ++ event.toList) c =
      match event with
      | some (.load c' t) => if c' = c then some t else stackOf past c
      | _ => stackOf past c := by
  cases event with
  | none => simp [stackOf]
  | some event => cases event <;> simp [stackOf]

end

end History

/-- Whether a core is between the two halves of a context switch. -/
inductive Mode where
  | normal
  | saving
  | loading
deriving DecidableEq

def Ctl.mode : Ctl Core Sem → Mode
  | .switchSave _ => .saving
  | .switchLoad => .loading
  | _ => .normal

/-- The phase of a thread that a core has at a spot. -/
def CoreState.role (l : CoreState Core Sem) (c : Core) : Spot → Phase Core
  | .running =>
      match l.ctl.mode with
      | .normal => .running c
      | _ => .suspended
  | .toDelete =>
      match l.ctl.mode, l.ctl.done with
      | .saving, _ => .stopping c
      | _, .stackFreed => .stackFreed c
      | _, _ => .stopped c
  | .toReschedule | .toQueue =>
      match l.ctl.mode with
      | .saving => .running c
      | _ => .suspended
  | .held => .suspended

/-- A saved context behind `down` has a grant to return with. -/
def Resume.share (sem : Sem) : Resume Sem → Nat
  | .downRet sem' => if sem' = sem then 1 else 0
  | _ => 0

def PopSite.share (sem : Sem) : PopSite Sem → Nat
  | .up sem' => if sem' = sem then 1 else 0
  | .next => 0

/-- A thread in `down` with a grant has it to return with, one in `up` that
has not given the mutex away has still to do so. -/
def Ctl.share (sem : Sem) : Ctl Core Sem → Nat
  | .downUnlock sem' | .downReturn sem' | .upWait sem' | .upHold sem' =>
      if sem' = sem then 1 else 0
  | .popWait site | .popHold site => site.share sem
  | _ => 0

/-- The share of a thread with saved context `sp` that a core has. -/
def CoreState.share (sem : Sem) (l : CoreState Core Sem) (sp : Resume Sem) :
    Spot → Nat
  | .running =>
      match l.ctl.mode with
      | .normal => l.ctl.share sem
      | _ => sp.share sem
  | .held => sp.share sem
  | _ => 0

/-- The phase of the idle TCB of a core. -/
def CoreState.idleRole (l : CoreState Core Sem) (c : Core) : Phase Core :=
  match l.ctl.mode with
  | .normal => if l.pc.curr = some (.idle c) then .running c else .suspended
  | .saving => if l.pc.prev = some (.idle c) then .running c else .suspended
  | .loading => .suspended

/-- The TCB whose stack a core is on. -/
def CoreState.stack (l : CoreState Core Sem) : Option (Tcb Core) :=
  match l.ctl.mode with
  | .normal => l.pc.curr
  | _ => l.pc.prev

/-- The history agrees with the state of a core about the TCBs it has. -/
structure LocalLife (past : List (Event Core Sem)) (c : Core)
    (l : CoreState Core Sem) : Prop where
  spots : ∀ id spot, l.Has id spot → phaseOf past (.thread id) = l.role c spot
  idle : phaseOf past (.idle c) = l.idleRole c
  building : ∀ id, l.ctl.builds = some id →
    phaseOf past (.thread id) = .absent
  stack : stackOf past c = l.stack

/-- The history agrees with the state about every TCB. -/
structure Life (past : List (Event Core Sem)) (m : Machine Core Sem)
    (items : QueueId Sem → List Nat) : Prop where
  core : ∀ c, LocalLife past c (m.cores c)
  queued : ∀ q, ∀ node ∈ items q, ∀ id,
    (m.shared.cells node).value = .thread id →
    phaseOf past (.thread id) = .suspended
  gone : ∀ id, m.shared.amount (.tcb id) = 0 →
    phaseOf past (.thread id) = .absent ∨ phaseOf past (.thread id) = .freed
  fresh : ∀ id, m.shared.nextId ≤ id → phaseOf past (.thread id) = .absent

section Roles

variable {c : Core} {s : Shared Core Sem} {l l' : CoreState Core Sem}
  {out : Outcome Core Sem} {past : List (Event Core Sem)}

/-- Every thread the core has afterwards it had before, in the same phase. -/
def Transfers (c : Core) (l l' : CoreState Core Sem) : Prop :=
  ∀ id spot, l'.Has id spot →
    ∃ before, l.Has id before ∧ l.role c before = l'.role c spot

/-- The share it has in every semaphore is the same, too. -/
def Keeps (c : Core) (l l' : CoreState Core Sem) : Prop :=
  ∀ id spot, l'.Has id spot → ∃ before, l.Has id before ∧
    l.role c before = l'.role c spot ∧
    ∀ sem sp, l'.share sem sp spot = l.share sem sp before

section Code

variable {pc : PerCore Core Sem} {ctl ctl' : Ctl Core Sem} {id : Nat}
  {spot : Spot}

omit [DecidableEq Core]

theorem Keeps.transfers (h : Keeps c l l') : Transfers c l l' := by
  intro id spot hhas
  obtain ⟨before, hbefore, hrole, -⟩ := h id spot hhas
  exact ⟨before, hbefore, hrole⟩

section

omit [DecidableEq Sem]

theorem has_of_ctl (hdone : ctl'.done = ctl.done) (hhand : ctl'.hand = ctl.hand)
    (hhas : (⟨pc, ctl'⟩ : CoreState Core Sem).Has id spot) :
    (⟨pc, ctl⟩ : CoreState Core Sem).Has id spot := by
  obtain ⟨hslot, hpending⟩ := hhas
  simp only [hdone] at hpending
  refine ⟨?_, hpending⟩
  cases spot with
  | held => exact hhand.symm.trans hslot
  | _ => exact hslot

theorem role_of_ctl (hmode : ctl'.mode = ctl.mode)
    (hdone : ctl'.done = ctl.done) (spot : Spot) :
    (⟨pc, ctl⟩ : CoreState Core Sem).role c spot =
      (⟨pc, ctl'⟩ : CoreState Core Sem).role c spot := by
  cases spot <;> simp only [CoreState.role, hmode, hdone]

/-- What a core has outside its local variables depends on little of where it
is in the code. -/
theorem has_of_ne_held (ctl ctl' : Ctl Core Sem)
    (hmode : ctl'.mode = ctl.mode) (hdone : ctl'.done = ctl.done)
    (hspot : spot ≠ .held)
    (hhas : (⟨pc, ctl'⟩ : CoreState Core Sem).Has id spot) :
    (⟨pc, ctl⟩ : CoreState Core Sem).Has id spot ∧
      (⟨pc, ctl⟩ : CoreState Core Sem).role c spot =
        (⟨pc, ctl'⟩ : CoreState Core Sem).role c spot := by
  obtain ⟨hslot, hpending⟩ := hhas
  simp only [hdone] at hpending
  refine ⟨⟨?_, hpending⟩, role_of_ctl hmode hdone spot⟩
  cases spot with
  | held => exact absurd rfl hspot
  | _ => exact hslot

/-- Moves that change nothing about the threads of the core. -/
theorem transfers_of_ctl (hmode : ctl'.mode = ctl.mode)
    (hdone : ctl'.done = ctl.done) (hhand : ctl'.hand = ctl.hand) :
    Transfers c ⟨pc, ctl⟩ ⟨pc, ctl'⟩ :=
  fun _ spot hhas =>
    ⟨spot, has_of_ctl hdone hhand hhas, role_of_ctl hmode hdone spot⟩

end

theorem share_of_ctl {sem : Sem} (hmode : ctl'.mode = ctl.mode)
    (hshare : ctl'.share sem = ctl.share sem) (sp : Resume Sem)
    (spot : Spot) :
    (⟨pc, ctl'⟩ : CoreState Core Sem).share sem sp spot =
      (⟨pc, ctl⟩ : CoreState Core Sem).share sem sp spot := by
  cases spot <;> simp only [CoreState.share, hmode, hshare]

theorem keeps_of_ctl (hmode : ctl'.mode = ctl.mode)
    (hdone : ctl'.done = ctl.done) (hhand : ctl'.hand = ctl.hand)
    (hshare : ∀ sem, ctl'.share sem = ctl.share sem) :
    Keeps c ⟨pc, ctl⟩ ⟨pc, ctl'⟩ :=
  fun _ spot hhas =>
    ⟨spot, has_of_ctl hdone hhand hhas, role_of_ctl hmode hdone spot,
      fun sem sp => share_of_ctl hmode (hshare sem) sp spot⟩

theorem Spins.keeps {lock : Lock Sem} (h : Spins ctl lock ctl') :
    Keeps c ⟨pc, ctl⟩ ⟨pc, ctl'⟩ := by
  cases h with
  | heap op => cases op <;> exact keeps_of_ctl rfl rfl rfl fun _ => rfl
  | _ => exact keeps_of_ctl rfl rfl rfl fun _ => rfl

/-- Linking gives a thread away and leaves the others as they are. -/
theorem pushReturn_keeps (q : QueueId Sem) (node : Nat) (value : Tcb Core)
    (site : PushSite Sem) :
    Keeps c ⟨pc, .pushHold q node value site⟩ ⟨pc, pushReturn site⟩ := by
  rintro id spot ⟨hslot, -⟩
  have hhand : (pushReturn site : Ctl Core Sem).hand = none := by
    cases site <;> rfl
  refine ⟨spot, ⟨?_, ?_⟩, ?_, fun sem sp => ?_⟩
  · cases spot with
    | held =>
        change (pushReturn site).hand = _ at hslot
        rw [hhand] at hslot
        cases hslot
    | _ => exact hslot
  · cases spot <;> simp [Ctl.done, Done.carriedOut]
  · cases site <;> cases spot <;> rfl
  · cases site <;> cases spot <;> rfl

theorem Silent.keeps (h : Silent c l l') : Keeps c l l' := by
  cases h with
  | bootStop => rintro id (_ | _ | _ | _ | _) ⟨hslot, -⟩ <;> cases hslot
  | bootSave => rintro id (_ | _ | _ | _ | _) ⟨hslot, -⟩ <;> cases hslot
  | yield =>
      rintro id (_ | _ | _ | _ | _) ⟨hslot, -⟩ <;> cases hslot
      exact ⟨.running, has_running rfl, rfl, fun _ _ => rfl⟩
  | deleted => rintro id (_ | _ | _ | _ | _) ⟨hslot, -⟩ <;> cases hslot
  | queued => rintro id (_ | _ | _ | _ | _) ⟨hslot, -⟩ <;> cases hslot
  | rescheduled => rintro id (_ | _ | _ | _ | _) ⟨hslot, -⟩ <;> cases hslot
  | _ => exact keeps_of_ctl rfl rfl rfl fun _ => rfl

end Code

/-- Moves that change the phase of no thread and take none off a queue. -/
theorem Move.transfers (h : Move c s l out)
    (hsubject : ∀ id, out.event.bind Event.subject ≠ some (.thread id))
    (hunlink : ∀ caller q t, out.event ≠ some (.unlink caller q t)) :
    Transfers c l out.core := by
  cases h with
  | silent hsilent => exact hsilent.keeps.transfers
  | spin hspins _ => exact hspins.keeps.transfers
  | @fail pc op hallocates =>
      cases op <;>
        first | exact transfers_of_ctl rfl rfl rfl | cases hallocates
  | newTcb _ => exact absurd rfl (hsubject _)
  | dispatch =>
      rintro id (_ | _ | _ | _ | _) ⟨hslot, -⟩ <;> cases hslot
      exact ⟨.held, has_held rfl, rfl⟩
  | deleteStack => exact absurd rfl (hsubject _)
  | deleteTcb => exact absurd rfl (hsubject _)
  | link => exact (pushReturn_keeps _ _ _ _).transfers
  | @popEmpty pc site _ => cases site <;> exact transfers_of_ctl rfl rfl rfl
  | unlink _ _ => exact absurd rfl (hunlink _ _ _)
  | block _ =>
      rintro id (_ | _ | _ | _ | _) ⟨hslot, -⟩ <;> cases hslot
      exact ⟨.running, has_running rfl, rfl⟩
  | stop => exact absurd rfl (hsubject _)
  | saveThread _ => exact absurd rfl (hsubject _)
  | saveIdle =>
      rintro id (_ | _ | _ | _ | _) ⟨hslot, -⟩ <;> cases hslot
      exact ⟨.running, has_running rfl, rfl⟩
  | loadEntry _ => rintro id (_ | _ | _ | _ | _) ⟨hslot, -⟩ <;> cases hslot
  | @loadIdle pc hcurr _ =>
      rintro id spot ⟨hslot, hpending⟩
      refine ⟨spot, ⟨?_, hpending⟩, ?_⟩
      · cases spot <;> exact hslot
      · cases spot with
        | running =>
            change pc.curr = _ at hslot
            rw [hcurr] at hslot
            cases hslot
        | _ => rfl
  | loadThread _ => exact absurd rfl (hsubject _)
  | loadDown _ => exact absurd rfl (hsubject _)
  | unlock =>
      rintro id (_ | _ | _ | _ | _) ⟨hslot, hpending⟩ <;> cases hslot
      exact absurd (by simp [Ctl.done, Done.carriedOut]) hpending
  | _ => exact transfers_of_ctl rfl rfl rfl

section

omit [DecidableEq Core] [DecidableEq Sem]

theorem role_ne_absent (l : CoreState Core Sem) (c : Core) (spot : Spot) :
    l.role c spot ≠ .absent := by
  cases hmode : l.ctl.mode <;> cases hdone : l.ctl.done <;> cases spot <;>
    simp [CoreState.role, hmode, hdone]

end

/-- A move keeps the history and the state in agreement about the threads of
its core. -/
theorem Move.spots (h : Move c s l out) (hlife : LocalLife past c l)
    (hpop : ∀ q node rest id, s.unlink q = some (node, rest) →
      (s.cells node).value = .thread id →
      phaseOf past (.thread id) = .suspended)
    (id : Nat) (spot : Spot) (hhas : out.core.Has id spot) :
    phaseOf (past ++ out.event.toList) (.thread id) =
      out.core.role c spot := by
  by_cases hplain :
      (∀ id, out.event.bind Event.subject ≠ some (.thread id)) ∧
        ∀ caller q t, out.event ≠ some (.unlink caller q t)
  · obtain ⟨hsubject, hunlink⟩ := hplain
    obtain ⟨before, hbefore, hrole⟩ := h.transfers hsubject hunlink id spot hhas
    rw [phaseOf_append_of_ne (hsubject id), hlife.spots id before hbefore, hrole]
  · cases h with
    | @newTcb pc new _ =>
        rw [Option.toList_some, phaseOf_concat]
        by_cases hspot : spot = .held
        · subst hspot
          cases hhas.1
          simp [Phase.next, CoreState.role]
        · obtain ⟨hold, hrole⟩ := has_of_ne_held (c := c)
            (.heapHold (.newTcb new)) (schedule (.thread new) .go) rfl rfl
            hspot hhas
          have hbefore := hlife.spots id spot hold
          have hne : (.thread new : Tcb Core) ≠ .thread id := by
            intro heq
            cases heq
            rw [hlife.building id rfl] at hbefore
            exact role_ne_absent _ _ _ hbefore.symm
          rw [Phase.next, if_neg hne, hbefore, hrole]
    | @deleteStack new =>
        rw [Option.toList_some, phaseOf_concat]
        obtain ⟨hslot, -⟩ := hhas
        cases spot <;> cases hslot
        simp [Phase.next, CoreState.role, Ctl.mode, Ctl.done]
    | @deleteTcb new =>
        obtain ⟨hslot, hpending⟩ := hhas
        cases spot <;> cases hslot
        exact absurd (by simp [Ctl.done, Done.carriedOut]) hpending
    | @unlink pc site caller node rest hcurr hfound =>
        rw [Option.toList_some, phaseOf_concat]
        change phaseOf past (.thread id) = _
        by_cases hspot : spot = .held
        · subst hspot
          exact hpop _ _ _ id hfound (Option.some.inj hhas.1)
        · obtain ⟨hold, hrole⟩ := has_of_ne_held (c := c)
            (.popHold site)
            (.heapWait (.deleteNode node (s.cells node).value site)) rfl rfl
            hspot hhas
          rw [hlife.spots id spot hold, hrole]
    | @stop prev new =>
        rw [Option.toList_some, phaseOf_concat]
        obtain ⟨hslot, -⟩ := hhas
        cases spot <;> cases hslot
        simp [Phase.next, CoreState.role, Ctl.mode]
    | @saveThread resume new hleaves =>
        rw [Option.toList_some, phaseOf_concat]
        obtain ⟨hslot, hpending⟩ := hhas
        cases hleaves <;> cases spot <;> cases hslot
        · have hbefore := hlife.spots id .toDelete ⟨rfl, hpending⟩
          simp [Phase.next, hbefore, CoreState.role, Ctl.mode, Ctl.done]
        · have hbefore := hlife.spots id .toReschedule ⟨rfl, hpending⟩
          simp [Phase.next, hbefore, CoreState.role, Ctl.mode]
        · have hbefore := hlife.spots id .toQueue ⟨rfl, hpending⟩
          simp [Phase.next, hbefore, CoreState.role, Ctl.mode]
    | loadThread _ =>
        rw [Option.toList_some, phaseOf_concat]
        obtain ⟨hslot, -⟩ := hhas
        cases spot <;> cases hslot
        simp [Phase.next, CoreState.role, Ctl.mode]
    | loadDown _ =>
        rw [Option.toList_some, phaseOf_concat]
        obtain ⟨hslot, -⟩ := hhas
        cases spot <;> cases hslot
        simp [Phase.next, CoreState.role, Ctl.mode]
    | _ =>
        refine absurd ⟨fun id hsubject => ?_, fun caller q t hunlink => ?_⟩ hplain
        · cases hsubject
        · cases hunlink

section

omit [DecidableEq Sem]

/-- What the idle TCB of a core and the stack it is on depend on. -/
theorem idle_stack_of_ctl {pc : PerCore Core Sem} (ctl ctl' : Ctl Core Sem)
    (hmode : ctl'.mode = ctl.mode) :
    (⟨pc, ctl'⟩ : CoreState Core Sem).idleRole c =
        (⟨pc, ctl⟩ : CoreState Core Sem).idleRole c ∧
      (⟨pc, ctl'⟩ : CoreState Core Sem).stack =
        (⟨pc, ctl⟩ : CoreState Core Sem).stack := by
  simp only [CoreState.idleRole, CoreState.stack, hmode, and_self]

theorem Silent.idle_stack (h : Silent c l l') :
    l'.idleRole c = l.idleRole c ∧ l'.stack = l.stack := by
  cases h with
  | go => exact idle_stack_of_ctl _ _ rfl
  | down => exact idle_stack_of_ctl _ _ rfl
  | toDelete => exact idle_stack_of_ctl _ _ rfl
  | noDelete _ => exact idle_stack_of_ctl _ _ rfl
  | toQueue => exact idle_stack_of_ctl _ _ rfl
  | noQueue _ => exact idle_stack_of_ctl _ _ rfl
  | toReschedule => exact idle_stack_of_ctl _ _ rfl
  | noReschedule _ => exact idle_stack_of_ctl _ _ rfl
  | _ => simp [CoreState.idleRole, CoreState.stack, Ctl.mode, clear, asks]

end

/-- Moves that neither save nor load leave the stack and the idle TCB as they
are. -/
theorem Move.idle_stack (h : Move c s l out)
    (hsave : ∀ t, out.event ≠ some (.save c t))
    (hload : ∀ t, out.event ≠ some (.load c t)) :
    out.core.idleRole c = l.idleRole c ∧ out.core.stack = l.stack := by
  cases h with
  | silent hsilent => exact hsilent.idle_stack
  | spin hspins _ => cases hspins <;> exact idle_stack_of_ctl _ _ rfl
  | dispatch => simp [CoreState.idleRole, CoreState.stack, Ctl.mode, clear]
  | @link pc q node value site =>
      cases site <;> exact idle_stack_of_ctl _ _ rfl
  | @popEmpty pc site _ => cases site <;> exact idle_stack_of_ctl _ _ rfl
  | block _ => simp [CoreState.idleRole, CoreState.stack, Ctl.mode, clear, asks]
  | stop => simp [CoreState.idleRole, CoreState.stack, Ctl.mode, clear, asks]
  | saveThread _ => exact absurd rfl (hsave _)
  | saveIdle => exact absurd rfl (hsave _)
  | loadEntry _ => exact absurd rfl (hload _)
  | loadIdle _ _ => exact absurd rfl (hload _)
  | loadThread _ => exact absurd rfl (hload _)
  | loadDown _ => exact absurd rfl (hload _)
  | _ => exact idle_stack_of_ctl _ _ rfl

/-- The TCB whose phase a move changes is one its core has. -/
theorem Move.subject_cases (h : Move c s l out) {t : Tcb Core}
    (hsubject : out.event.bind Event.subject = some t) :
    t = .idle c ∨ ∃ id, t = .thread id ∧
      (l.ctl = .heapHold (.newTcb id) ∨ ∃ spot, l.Has id spot) := by
  cases h with
  | newTcb _ =>
      cases hsubject
      exact .inr ⟨_, rfl, .inl rfl⟩
  | deleteStack =>
      cases hsubject
      exact .inr ⟨_, rfl, .inr
        ⟨.toDelete, rfl, by simp [Ctl.done, Done.carriedOut]⟩⟩
  | deleteTcb =>
      cases hsubject
      exact .inr ⟨_, rfl, .inr
        ⟨.toDelete, rfl, by simp [Ctl.done, Done.carriedOut]⟩⟩
  | stop =>
      cases hsubject
      exact .inr ⟨_, rfl, .inr ⟨.running, has_running rfl⟩⟩
  | saveThread hleaves =>
      cases hsubject
      refine .inr ⟨_, rfl, .inr ?_⟩
      cases hleaves with
      | stop => exact ⟨.toDelete, rfl, by simp [Ctl.done, Done.carriedOut]⟩
      | yield => exact ⟨.toReschedule, rfl, by simp [Ctl.done, Done.carriedOut]⟩
      | down sem => exact ⟨.toQueue, rfl, by simp [Ctl.done, Done.carriedOut]⟩
  | saveIdle =>
      cases hsubject
      exact .inl rfl
  | loadEntry _ =>
      cases hsubject
      exact .inl rfl
  | loadIdle _ _ =>
      cases hsubject
      exact .inl rfl
  | loadThread _ =>
      cases hsubject
      exact .inr ⟨_, rfl, .inr ⟨.running, has_running rfl⟩⟩
  | loadDown _ =>
      cases hsubject
      exact .inr ⟨_, rfl, .inr ⟨.running, has_running rfl⟩⟩
  | _ => cases hsubject

theorem Move.idle (h : Move c s l out) (hlife : LocalLife past c l) :
    phaseOf (past ++ out.event.toList) (.idle c) = out.core.idleRole c := by
  by_cases hplain : (∀ t, out.event ≠ some (.save c t)) ∧
      ∀ t, out.event ≠ some (.load c t)
  · rw [phaseOf_append_of_ne, hlife.idle,
      (h.idle_stack hplain.1 hplain.2).1]
    intro hsubject
    cases h <;> cases hsubject
    · exact hplain.1 _ rfl
    · exact hplain.2 _ rfl
    · exact hplain.2 _ rfl
  · have hidle := hlife.idle
    cases h with
    | saveThread hleaves =>
        rw [Option.toList_some, phaseOf_concat, hidle]
        cases hleaves <;>
          simp [Phase.next, CoreState.idleRole, Ctl.mode, asks]
    | saveIdle =>
        rw [Option.toList_some, phaseOf_concat, hidle]
        simp [Phase.next, CoreState.idleRole, Ctl.mode, clear]
    | loadEntry _ =>
        rw [Option.toList_some, phaseOf_concat, hidle]
        simp [Phase.next, CoreState.idleRole, Ctl.mode, clear]
    | loadIdle hcurr _ =>
        rw [Option.toList_some, phaseOf_concat, hidle]
        simp [Phase.next, CoreState.idleRole, Ctl.mode, hcurr]
    | loadThread _ =>
        rw [Option.toList_some, phaseOf_concat, hidle]
        simp [Phase.next, CoreState.idleRole, Ctl.mode, clear]
    | loadDown _ =>
        rw [Option.toList_some, phaseOf_concat, hidle]
        simp [Phase.next, CoreState.idleRole, Ctl.mode, clear]
    | _ => exact absurd (by simp) hplain

theorem Move.load_core (h : Move c s l out) {c' : Core} {t : Tcb Core}
    (hload : out.event = some (.load c' t)) : c' = c := by
  cases h <;> cases hload <;> rfl

theorem Move.stackOf_eq (h : Move c s l out) (hlife : LocalLife past c l) :
    stackOf (past ++ out.event.toList) c = out.core.stack := by
  rw [stackOf_append]
  by_cases hload : ∃ t, out.event = some (.load c t)
  · obtain ⟨t, hload⟩ := hload
    cases h with
    | loadIdle hcurr _ =>
        cases hload
        simp [CoreState.stack, Ctl.mode, hcurr]
    | _ =>
        cases hload
        try simp [CoreState.stack, Ctl.mode, clear]
  · have hstack := hlife.stack
    by_cases hsave : ∃ t, out.event = some (.save c t)
    · obtain ⟨t, hsave⟩ := hsave
      cases h <;> cases hsave <;> exact hstack
    · rw [not_exists] at hload hsave
      rw [(h.idle_stack hsave hload).2, ← hstack]
      split
      · next c' t heq =>
          rw [h.load_core heq] at heq
          exact absurd heq (hload t)
      · rfl

theorem Move.building (h : Move c s l out) (hlife : LocalLife past c l)
    (hfresh : phaseOf past (.thread s.nextId) = .absent) (id : Nat)
    (hbuilds : out.core.ctl.builds = some id) :
    phaseOf (past ++ out.event.toList) (.thread id) = .absent := by
  rcases h.builds_eq hbuilds with ⟨hbefore, hnone⟩ | ⟨rfl, hnone, -⟩
  · rw [hnone, Option.toList_none, List.append_nil]
    exact hlife.building id hbefore
  · rw [hnone, Option.toList_none, List.append_nil]
    exact hfresh

/-- A move shows only what the history before it permits. -/
theorem Move.permitted {idleSp : Resume Sem} (h : Move c s l out)
    (hlife : LocalLife past c l) (hok : CtlOk c idleSp l.pc l.ctl)
    (hpop : ∀ q node rest, s.unlink q = some (node, rest) →
      phaseOf past (s.cells node).value = .suspended)
    {event : Event Core Sem} (hevent : out.event = some event) :
    Permitted past event := by
  have hspots := hlife.spots
  have hstack := hlife.stack
  cases h with
  | newTcb _ =>
      cases hevent
      exact hlife.building _ rfl
  | deleteStack =>
      cases hevent
      exact ⟨hspots _ .toDelete ⟨rfl, by simp [Ctl.done, Done.carriedOut]⟩,
        hstack⟩
  | deleteTcb =>
      cases hevent
      exact ⟨hspots _ .toDelete ⟨rfl, by simp [Ctl.done, Done.carriedOut]⟩,
        hstack⟩
  | @link pc q node value site =>
      cases hevent
      cases site with
      | go =>
          obtain ⟨-, ⟨id, rfl⟩, -⟩ := hok
          exact hspots id .held (has_held rfl)
      | up sem =>
          obtain ⟨-, ⟨id, rfl⟩, -⟩ := hok
          exact hspots id .held (has_held rfl)
      | deferred =>
          obtain ⟨id, sem, -, rfl, rfl⟩ := hok
          exact hspots id .toQueue
            ⟨rfl, by simp [Ctl.done, Done.carriedOut]⟩
      | reschedule =>
          obtain ⟨id, -, rfl, rfl⟩ := hok
          exact hspots id .toReschedule
            ⟨rfl, by simp [Ctl.done, Done.carriedOut]⟩
  | @unlink pc site caller node rest hcurr hfound =>
      cases hevent
      refine ⟨hpop _ _ _ hfound, c, ?_, hstack.trans hcurr⟩
      cases site with
      | next =>
          obtain ⟨prev, rfl⟩ := hok
          cases hcurr
          refine hlife.idle.trans ?_
          simp [CoreState.idleRole, Ctl.mode, clear]
      | up sem =>
          obtain ⟨-, prev, id, rfl⟩ := hok
          cases hcurr
          exact hspots id .running (has_running rfl)
  | stop =>
      cases hevent
      exact ⟨hspots _ .running (has_running rfl), hstack⟩
  | saveThread hleaves =>
      cases hevent
      cases hleaves with
      | stop =>
          exact ⟨.inr (hspots _ .toDelete
            ⟨rfl, by simp [Ctl.done, Done.carriedOut]⟩), hstack⟩
      | yield =>
          exact ⟨.inl (hspots _ .toReschedule
            ⟨rfl, by simp [Ctl.done, Done.carriedOut]⟩), hstack⟩
      | down sem =>
          exact ⟨.inl (hspots _ .toQueue
            ⟨rfl, by simp [Ctl.done, Done.carriedOut]⟩), hstack⟩
  | saveIdle =>
      cases hevent
      refine ⟨.inl (hlife.idle.trans ?_), hstack⟩
      simp [CoreState.idleRole, Ctl.mode, clear]
  | loadEntry _ =>
      cases hevent
      exact hlife.idle
  | loadIdle _ _ =>
      cases hevent
      exact hlife.idle
  | loadThread _ =>
      cases hevent
      exact hspots _ .running (has_running rfl)
  | loadDown _ =>
      cases hevent
      exact hspots _ .running (has_running rfl)
  | block _ =>
      cases hevent
      exact ⟨c, hspots _ .running (has_running rfl), hstack⟩
  | pass _ =>
      cases hevent
      exact ⟨c, hspots _ .running (has_running rfl), hstack⟩
  | downUnlock =>
      cases hevent
      exact ⟨c, hspots _ .running (has_running rfl), hstack⟩
  | downReturn =>
      cases hevent
      exact ⟨c, hspots _ .running (has_running rfl), hstack⟩
  | callUp =>
      cases hevent
      exact ⟨c, hspots _ .running (has_running rfl), hstack⟩
  | upWakes _ =>
      cases hevent
      exact ⟨c, hspots _ .running (has_running rfl), hstack⟩
  | upFrees _ =>
      cases hevent
      exact ⟨c, hspots _ .running (has_running rfl), hstack⟩
  | _ => cases hevent

end Roles

section Whole

variable {m : Machine Core Sem} {items : QueueId Sem → List Nat} {c : Core}
  {out : Outcome Core Sem} {past : List (Event Core Sem)}

/-- A move does not touch a thread that its core does not have. -/
theorem Inv.subject_ne (h : Inv m items)
    (hmove : Move c m.shared (m.cores c) out) {id : Nat}
    {place : Place Core Sem} (hat : m.At id place)
    (hplace : ∀ spot, place ≠ .core c spot) :
    out.event.bind Event.subject ≠ some (.thread id) := by
  intro hsubject
  rcases hmove.subject_cases hsubject with heq | ⟨id', heq, hbuild | ⟨spot, hhas⟩⟩
  · cases heq
  · cases heq
    have hzero := h.building c id (by rw [hbuild]; rfl)
    have hone := h.books.amount_of_mem (h.mem_own_of_at hat)
    omega
  · cases heq
    exact hplace spot
      (h.place_unique hat (show m.At id (.core c spot) from hhas))

theorem Inv.amount_of_has (h : Inv m items) {id : Nat} {c' : Core} {spot : Spot}
    (hhas : (m.cores c').Has id spot) : m.shared.amount (.tcb id) = 1 :=
  h.books.amount_of_mem
    (h.mem_own_of_at (show m.At id (.core c' spot) from hhas))

/-- Nor one that has no TCB, unless it builds it. -/
theorem Inv.subject_ne_of_amount (h : Inv m items)
    (hmove : Move c m.shared (m.cores c) out) {id : Nat}
    (hzero : m.shared.amount (.tcb id) = 0)
    (hbuild : (m.cores c).ctl ≠ .heapHold (.newTcb id)) :
    out.event.bind Event.subject ≠ some (.thread id) := by
  intro hsubject
  rcases hmove.subject_cases hsubject with heq | ⟨id', heq, hctl | ⟨spot, hhas⟩⟩
  · cases heq
  · cases heq
    exact hbuild hctl
  · cases heq
    have hone := h.amount_of_has hhas
    omega

/-- The other cores see nothing of a move. -/
theorem LocalLife.other (h : Inv m items)
    (hmove : Move c m.shared (m.cores c) out) {c' : Core} (hne : c' ≠ c)
    (hlife : LocalLife past c' (m.cores c')) :
    LocalLife (past ++ out.event.toList) c' (m.cores c') where
  spots := by
    intro id spot hhas
    rw [phaseOf_append_of_ne, hlife.spots id spot hhas]
    refine h.subject_ne hmove (show m.At id (.core c' spot) from hhas) ?_
    rintro spot' heq
    cases heq
    exact hne rfl
  idle := by
    rw [phaseOf_append_of_ne, hlife.idle]
    intro hsubject
    rcases hmove.subject_cases hsubject with heq | ⟨id, heq, -⟩
    · cases heq
      exact hne rfl
    · cases heq
  building := by
    intro id hbuilds
    rw [phaseOf_append_of_ne, hlife.building id hbuilds]
    refine h.subject_ne_of_amount hmove (h.building c' id hbuilds) ?_
    intro hctl
    refine hne (h.builds_unique hbuilds ?_)
    rw [hctl]
    rfl
  stack := by
    rw [stackOf_append, ← hlife.stack]
    split
    · next c'' t heq =>
        rw [if_neg]
        rintro rfl
        exact hne (hmove.load_core heq)
    · rfl

theorem Life.unlink_phase (hlife : Life past m items) (h : Inv m items)
    {q : QueueId Sem} {node : Nat} {rest : Shared Core Sem}
    (hfound : m.shared.unlink q = some (node, rest)) :
    phaseOf past (m.shared.cells node).value = .suspended := by
  obtain ⟨left, tail, hitems, -, -⟩ := h.unlink_spec hfound
  obtain ⟨id, hvalue⟩ := h.unlink_value hfound
  rw [hvalue]
  exact hlife.queued q node (by simp [hitems]) id hvalue

theorem Life.core_step (hlife : Life past m items) (h : Inv m items)
    (hmove : Move c m.shared (m.cores c) out) (c' : Core) :
    LocalLife (past ++ out.event.toList) c' ((m.after c out).cores c') := by
  by_cases hcore : c' = c
  · subst hcore
    rw [after_core_self]
    have hlocal := hlife.core c'
    exact ⟨hmove.spots hlocal fun q node rest id hfound hvalue => by
        rw [← hvalue]
        exact hlife.unlink_phase h hfound,
      hmove.idle hlocal,
      hmove.building hlocal (hlife.fresh _ (Nat.le_refl _)),
      hmove.stackOf_eq hlocal⟩
  · rw [after_core_of_ne hcore]
    exact (hlife.core c').other h hmove hcore

/-- A linked thread was suspended in the hands of its core. -/
theorem Life.queued_step (hlife : Life past m items) (h : Inv m items)
    (hmove : Move c m.shared (m.cores c) out) (q : QueueId Sem) (node : Nat)
    (hnode : node ∈ itemsAfter (m.cores c).ctl items q) (id : Nat)
    (hvalue : (out.shared.cells node).value = .thread id) :
    phaseOf (past ++ out.event.toList) (.thread id) = .suspended := by
  rcases h.mem_itemsAfter hmove hnode with ⟨hnode, hsame⟩ |
    ⟨value, site, -, hevent, hnew⟩
  · rw [hsame] at hvalue
    rw [phaseOf_append_of_ne, hlife.queued q node hnode id hvalue]
    exact h.subject_ne hmove
      (show m.At id (.queued q node) from ⟨items q, h.linked q, hnode, hvalue⟩) nofun
  · have hpermitted := hmove.permitted (hlife.core c) (h.ctl c)
      (fun _ _ _ => hlife.unlink_phase h) hevent
    rw [hevent, Option.toList_some, phaseOf_concat, ← hvalue, hnew]
    exact hpermitted

/-- Only the idle loop's `delete` takes a TCB away. -/
theorem Move.amount_tcb {s : Shared Core Sem} {l : CoreState Core Sem}
    (h : Move c s l out) {id : Nat}
    (hfree : out.event ≠ some (.freeTcb c (.thread id))) :
    s.amount (.tcb id) ≤ out.shared.amount (.tcb id) := by
  cases h with
  | newStack _ => simp [Shared.amount, Shared.alloc, Shared.release]
  | newTcb _ =>
      exact List.count_le_count_cons
  | newNode _ =>
      simp [Shared.amount, Shared.alloc, Shared.release, Shared.setCell]
  | dispatch => simp [Shared.amount, Shared.free, Shared.release]
  | granted => simp [Shared.amount, Shared.free, Shared.release]
  | deleteStack => simp [Shared.amount, Shared.free, Shared.release]
  | @deleteTcb id' =>
      have hne : (.tcb (.thread id') : Block Core) ≠ .tcb (.thread id) := by
        rintro heq
        cases heq
        exact hfree rfl
      exact (List.count_erase_of_ne hne.symm).ge
  | unlink _ hfound =>
      obtain ⟨left, -, rfl⟩ := unlink_eq hfound
      exact Nat.le_refl _
  | _ => exact Nat.le_refl _

theorem Move.amount_of_create {s : Shared Core Sem} {l : CoreState Core Sem}
    (h : Move c s l out) {id : Nat} (hctl : l.ctl = .heapHold (.newTcb id))
    (hcreate : out.event.bind Event.subject = some (.thread id)) :
    0 < out.shared.amount (.tcb id) := by
  cases h <;> cases hcreate <;> cases hctl
  exact List.count_pos_iff.mpr List.mem_cons_self

theorem Life.gone_step (hlife : Life past m items) (h : Inv m items)
    (hmove : Move c m.shared (m.cores c) out) (id : Nat)
    (hzero : out.shared.amount (.tcb id) = 0) :
    phaseOf (past ++ out.event.toList) (.thread id) = .absent ∨
      phaseOf (past ++ out.event.toList) (.thread id) = .freed := by
  by_cases hfree : out.event = some (.freeTcb c (.thread id))
  · right
    rw [hfree, Option.toList_some, phaseOf_concat, Phase.next, if_pos rfl]
  · have hle := hmove.amount_tcb hfree
    rw [phaseOf_append_of_ne]
    · exact hlife.gone id (by omega)
    · intro hsubject
      refine h.subject_ne_of_amount hmove (by omega) (fun hctl => ?_) hsubject
      have hpos := hmove.amount_of_create hctl hsubject
      omega

theorem Life.fresh_step (hlife : Life past m items) (h : Inv m items)
    (hmove : Move c m.shared (m.cores c) out) (id : Nat)
    (hid : out.shared.nextId ≤ id) :
    phaseOf (past ++ out.event.toList) (.thread id) = .absent := by
  have hle : m.shared.nextId ≤ id := by
    rcases hmove.blocks_cases with ⟨hsame, -⟩ | ⟨hnext, -⟩
    · omega
    · omega
  rw [phaseOf_append_of_ne, hlife.fresh id hle]
  refine h.subject_ne_of_amount hmove (h.fresh _ _ rfl hle) fun hctl => ?_
  have hbuilds : (m.cores c).ctl.builds = some id := by
    rw [hctl]
    rfl
  have hlt := h.builds_lt hbuilds
  omega

/-- Every move keeps the history and the state in agreement. -/
theorem Life.move (hlife : Life past m items) (h : Inv m items)
    (hmove : Move c m.shared (m.cores c) out) :
    Life (past ++ out.event.toList) (m.after c out)
      (itemsAfter (m.cores c).ctl items) where
  core := hlife.core_step h hmove
  queued := hlife.queued_step h hmove
  gone := hlife.gone_step h hmove
  fresh := hlife.fresh_step h hmove

/-- Every event of the history was permitted when it happened. -/
def Lawful (past : List (Event Core Sem)) : Prop :=
  ∀ pre event post, past = pre ++ event :: post → Permitted pre event

section

omit [DecidableEq Sem]

theorem life_initial (cnt : Sem → Int) :
    Life [] (initial cnt : Machine Core Sem) fun _ => [] where
  core := fun c =>
    { spots := by rintro id (_ | _ | _ | _ | _) ⟨hslot, -⟩ <;> cases hslot
      idle := rfl
      building := nofun
      stack := rfl }
  queued := fun _ _ hnode => absurd hnode List.not_mem_nil
  gone := fun _ _ => .inl rfl
  fresh := fun _ _ => rfl

theorem Lawful.concat {event : Event Core Sem} (h : Lawful past)
    (hevent : Permitted past event) : Lawful (past ++ [event]) :=
  History.Along.concat h hevent

end

theorem Run.life {cnt : Sem → Int}
    {ok : List (Event Core Sem) → Machine Core Sem → Core → Action Sem → Prop}
    (h : Run cnt ok past m) :
    Lawful past ∧ ∃ items, Inv m items ∧ Life past m items := by
  induction h with
  | boot =>
      exact ⟨History.along_nil, _, inv_initial cnt, life_initial cnt⟩
  | @step past m m' c action event _ _ hstep ih =>
      obtain ⟨hlawful, items, hinv, hlife⟩ := ih
      obtain ⟨out, hmove, hevent, rfl⟩ := hinv.step_move hstep
      refine ⟨?_, _, hinv.move hmove, by rw [hevent]; exact hlife.move hinv hmove⟩
      cases event with
      | none =>
          rw [Option.toList_none, List.append_nil]
          exact hlawful
      | some event =>
          exact hlawful.concat (hmove.permitted (hlife.core c) (hinv.ctl c)
            (fun _ _ _ => hlife.unlink_phase hinv) hevent.symm)

end Whole

end Threads

end IntroOs
